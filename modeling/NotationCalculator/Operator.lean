import NotationCalculator.Binary64.Integral
import NotationCalculator.Elementary

/-!
# Operators

A computation fails in one of two ways. Where it is merely undefined, there is no number and the
answer is `nan`. A fault is raised by an operator's function for reasons of its own; it ends the
evaluation, which then has no answer at all.

A table gives functions to names. An entry hides the later ones of the same name, and the names
are listed in the order of their code points.
-/
namespace NotationCalculator

/-- What an operator's function reports when it gives up: a kind of fault and a message. A special
case of a kind that is told apart here goes by the name of that kind. -/
structure Fault where
  kind : String
  message : String
  deriving DecidableEq

/-- Whether calls within the function were nested too deeply. -/
def Fault.isRecursion (cause : Fault) : Bool := cause.kind = "RecursionError"

inductive Failure where
  | undefined
  | fault (cause : Fault)
  deriving DecidableEq

namespace Failure

/-- The answer of a computation: `nan` where it is undefined. -/
def settle : Except Failure Binary64 → Except Fault Binary64
  | .ok x => .ok x
  | .error .undefined => .ok .nan
  | .error (.fault cause) => .error cause

/-- The failure as it is where calls nested too deeply only leave a computation undefined. -/
def forgiveRecursion : Failure → Failure
  | .undefined => .undefined
  | .fault cause => if cause.isRecursion then .undefined else .fault cause

@[simp] theorem forgiveRecursion_undefined : forgiveRecursion .undefined = .undefined := rfl

@[simp] theorem settle_ok (x : Binary64) : settle (.ok x) = .ok x := rfl

@[simp] theorem settle_undefined : settle (.error .undefined) = .ok .nan := rfl

@[simp] theorem settle_fault (cause : Fault) : settle (.error (.fault cause)) = .error cause := rfl

theorem settle_eq_error_iff {r : Except Failure Binary64} {cause : Fault} :
    settle r = .error cause ↔ r = .error (.fault cause) := by
  rcases r with (_ | _) | _ <;> simp

section Results

variable {ε ε' α β : Type} {r : Except ε α} {f : α → Except ε β} {e : ε} {x : α} {y : β}

/-- A computation in two parts has a result when the first has one and the second has it from
there. -/
theorem bind_eq_ok_iff : (r >>= f) = .ok y ↔ ∃ x, r = .ok x ∧ f x = .ok y := by
  cases r <;> simp [bind, Except.bind]

theorem bind_eq_error_iff :
    (r >>= f) = .error e ↔ r = .error e ∨ ∃ x, r = .ok x ∧ f x = .error e := by
  cases r <;> simp [bind, Except.bind]

theorem map_eq_ok_iff {g : α → β} : r.map g = .ok y ↔ ∃ x, r = .ok x ∧ g x = y := by
  cases r <;> simp [Except.map]

@[simp] theorem mapError_ok (g : ε → ε') (x : α) :
    (Except.ok x : Except ε α).mapError g = .ok x := rfl

@[simp] theorem mapError_error (g : ε → ε') (e : ε) :
    (Except.error e : Except ε α).mapError g = .error (g e) := rfl

theorem mapError_eq_ok_iff {g : ε → ε'} : r.mapError g = .ok x ↔ r = .ok x := by
  cases r <;> simp

end Results

end Failure

/-- What a table does with one operand: its function together with the conversion of what the
function returns to a double. A conversion that does not succeed is a fault like any other. -/
abbrev UnaryFunction := Binary64 → Except Failure Binary64

/-- What a table does with two operands, likewise up to the conversion to a double. -/
abbrev BinaryFunction := Binary64 → Binary64 → Except Failure Binary64

structure OperatorTable (α : Type) where
  entries : List (String × α)

namespace OperatorTable

variable {α β : Type}

def find? (table : OperatorTable α) (name : String) : Option α := table.entries.lookup name

def contains (table : OperatorTable α) (name : String) : Bool := (table.find? name).isSome

/-- The names in increasing order, each once. -/
def names (table : OperatorTable α) : List String :=
  (table.entries.map Prod.fst).eraseDups.mergeSort fun a b => decide (a ≤ b)

/-- The table with each function changed in a way that may depend on its name. -/
def mapFunctions (change : String → α → β) (table : OperatorTable α) : OperatorTable β :=
  ⟨table.entries.map fun (name, f) => (name, change name f)⟩

theorem contains_eq_true_iff (table : OperatorTable α) (name : String) :
    table.contains name = true ↔ name ∈ table.entries.map Prod.fst := by
  rw [contains, find?, List.lookup_isSome_iff]
  simp

theorem mem_entries_of_find? {table : OperatorTable α} {name : String} {f : α}
    (h : table.find? name = some f) : (name, f) ∈ table.entries := by
  obtain ⟨before, after, hentries, -⟩ := List.lookup_eq_some_iff.mp h
  rw [hentries]
  exact List.mem_append_right before List.mem_cons_self

@[simp] theorem find?_mapFunctions (change : String → α → β) (table : OperatorTable α)
    (name : String) :
    (table.mapFunctions change).find? name = (table.find? name).map (change name) := by
  obtain ⟨entries⟩ := table
  induction entries with
  | nil => rfl
  | cons entry entries ih =>
    obtain ⟨key, f⟩ := entry
    simp only [find?, mapFunctions, List.map_cons, List.lookup_cons] at ih ⊢
    cases h : name == key with
    | true => simp [eq_of_beq h]
    | false => simpa using ih

end OperatorTable

/-- The operators of one and of two operands that a reader knows. -/
structure OperatorTables where
  unary : OperatorTable UnaryFunction
  binary : OperatorTable BinaryFunction

/-!
## The standard operators

Twenty-two operators of one operand and six of two. All of them are defined everywhere, with `nan`
for what is not a number.
-/

namespace Operator

def standardUnaryFunctions : List (String × (Binary64 → Binary64)) :=
  [("!", .factorial), ("sqrt", .sqrt), ("~", .roundHalfUp), ("abs", .abs),
    ("sin", .sin), ("cos", .cos), ("tan", .tan), ("asin", .asin), ("acos", .acos), ("atan", .atan),
    ("sec", .sec), ("csc", .csc), ("cot", .cot), ("asec", .asec), ("acsc", .acsc), ("acot", .acot),
    ("sinh", .sinh), ("cosh", .cosh), ("tanh", .tanh),
    ("exp", .exp), ("ln", .log), ("log10", .log10)]

def standardBinaryFunctions : List (String × (Binary64 → Binary64 → Binary64)) :=
  [("+", .add), ("-", .sub), ("*", .mul), ("/", .div), ("%", .remainder), ("^", .power)]

/-- The function that never fails. -/
def totalUnary (f : Binary64 → Binary64) : UnaryFunction := fun x => .ok (f x)

def totalBinary (f : Binary64 → Binary64 → Binary64) : BinaryFunction := fun x y => .ok (f x y)

/-- The functions of an angle. -/
def trigonometricNames : List String := ["sin", "cos", "tan", "sec", "csc", "cot"]

/-- The functions that give an angle. -/
def inverseTrigonometricNames : List String := ["asin", "acos", "atan", "asec", "acsc", "acot"]

end Operator

def OperatorTables.standard : OperatorTables where
  unary := ⟨Operator.standardUnaryFunctions.map fun (name, f) => (name, Operator.totalUnary f)⟩
  binary := ⟨Operator.standardBinaryFunctions.map fun (name, f) => (name, Operator.totalBinary f)⟩

namespace OperatorTables

theorem standard_unary_find? (name : String) :
    standard.unary.find? name =
      ((⟨Operator.standardUnaryFunctions⟩ : OperatorTable (Binary64 → Binary64)).find? name).map
        Operator.totalUnary :=
  OperatorTable.find?_mapFunctions (fun _ => Operator.totalUnary) _ name

theorem standard_binary_find? (name : String) :
    standard.binary.find? name =
      ((⟨Operator.standardBinaryFunctions⟩ :
        OperatorTable (Binary64 → Binary64 → Binary64)).find? name).map Operator.totalBinary :=
  OperatorTable.find?_mapFunctions (fun _ => Operator.totalBinary) _ name

theorem exists_standard_unary {name : String} {f : UnaryFunction}
    (h : standard.unary.find? name = some f) :
    ∃ g, (name, g) ∈ Operator.standardUnaryFunctions ∧ f = Operator.totalUnary g := by
  rw [standard_unary_find?] at h
  obtain ⟨g, hg, rfl⟩ := Option.map_eq_some_iff.mp h
  exact ⟨g, OperatorTable.mem_entries_of_find? hg, rfl⟩

theorem exists_standard_binary {name : String} {f : BinaryFunction}
    (h : standard.binary.find? name = some f) :
    ∃ g, (name, g) ∈ Operator.standardBinaryFunctions ∧ f = Operator.totalBinary g := by
  rw [standard_binary_find?] at h
  obtain ⟨g, hg, rfl⟩ := Option.map_eq_some_iff.mp h
  exact ⟨g, OperatorTable.mem_entries_of_find? hg, rfl⟩

end OperatorTables

end NotationCalculator
