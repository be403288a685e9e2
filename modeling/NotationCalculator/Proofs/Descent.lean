import NotationCalculator.Calculator
import NotationCalculator.Expression
import NotationCalculator.Proofs.Faults
import NotationCalculator.Proofs.Listings
import NotationCalculator.Proofs.Words

/-!
# What the descent accepts

Reading from the front takes up the listing of exactly one tree, which has the value that is read,
and no more tokens than that. It fails where there is no such listing, or where the operators are
nested too deeply. How deeply they are nested is a matter of the tokens alone, and a limit that is
not reached plays no part.
-/
namespace NotationCalculator.PreOrder

/-- One expression takes up all of the tokens. -/
def Reads (scope : Scope) (tokens : List String) : Prop :=
  ∃ x, readValue scope nestingLimit tokens = .ok (x, [])

/-- The tokens list this tree, and each has the role of its place. -/
def IsListing (scope : Scope) (t : Tree) (tokens : List String) : Prop :=
  t.Fits scope isAnswer ∧ t.preOrder = tokens

/-- Reading an expression from the front of the tokens comes to have this many operators open, one
within the other. It comes to the right operand of an operator only past a complete left one. -/
inductive Opens (scope : Scope) : ℕ → List String → Prop
  | start (tokens : List String) : Opens scope 0 tokens
  | argument {n : ℕ} {operator : String} {tokens : List String} :
      scope.role isAnswer operator = .unary → Opens scope n tokens →
      Opens scope (n + 1) (operator :: tokens)
  | left {n : ℕ} {operator : String} {tokens : List String} :
      scope.role isAnswer operator = .binary → Opens scope n tokens →
      Opens scope (n + 1) (operator :: tokens)
  | right {n : ℕ} {operator : String} {t : Tree} {tokens : List String} :
      scope.role isAnswer operator = .binary → t.Fits scope isAnswer → Opens scope n tokens →
      Opens scope (n + 1) (operator :: (t.preOrder ++ tokens))

variable {scope : Scope} {tokens rest : List String} {x : Binary64} {limit : ℕ}

theorem Opens.of_le {m n : ℕ} (h : Opens scope n tokens) (hmn : m ≤ n) : Opens scope m tokens := by
  induction h generalizing m with
  | start tokens =>
    obtain rfl : m = 0 := by omega
    exact .start tokens
  | argument hrole _ ih =>
    cases m with
    | zero => exact .start _
    | succ m => exact .argument hrole (ih (by omega))
  | left hrole _ ih =>
    cases m with
    | zero => exact .start _
    | succ m => exact .left hrole (ih (by omega))
  | right hrole ht _ ih =>
    cases m with
    | zero => exact .start _
    | succ m => exact .right hrole ht (ih (by omega))

theorem Opens.le_length {n : ℕ} (h : Opens scope n tokens) : n ≤ tokens.length := by
  induction h with
  | start tokens => exact Nat.zero_le _
  | argument _ _ ih => exact Nat.succ_le_succ ih
  | left _ _ ih => exact Nat.succ_le_succ ih
  | right _ _ _ ih =>
    simp only [List.length_cons, List.length_append]
    omega

theorem opens_nesting {t : Tree} (ht : t.Fits scope isAnswer) (rest : List String) :
    Opens scope t.nesting (t.preOrder ++ rest) := by
  induction t generalizing rest with
  | operand token => exact .start _
  | unary operator argument ih =>
    obtain ⟨hrole, harg⟩ := ht
    exact .argument hrole (ih harg rest)
  | binary operator left right ihLeft ihRight =>
    obtain ⟨hrole, hleft, hright⟩ := ht
    simp only [Tree.nesting, Tree.preOrder, List.cons_append, List.append_assoc]
    rcases Nat.le_total left.nesting right.nesting with h | h
    · rw [Nat.max_eq_right h]
      exact .right hrole hleft (ihRight hright rest)
    · rw [Nat.max_eq_left h]
      exact .left hrole (ihLeft hleft (right.preOrder ++ rest))

theorem opens_replicate {scope : Scope} {operator : String}
    (h : scope.role isAnswer operator = .unary) (n : ℕ) :
    Opens scope n (List.replicate n operator) := by
  induction n with
  | zero => exact .start _
  | succ n ih => exact .argument h ih

/-- All that one operator more means for the first of the tokens. -/
theorem Opens.cons_cases {n : ℕ} {operator : String}
    (h : Opens scope (n + 1) (operator :: tokens)) :
    (scope.role isAnswer operator = .unary ∧ Opens scope n tokens) ∨
    (scope.role isAnswer operator = .binary ∧ (Opens scope n tokens ∨
      ∃ (t : Tree) (rest : List String), t.Fits scope isAnswer ∧ tokens = t.preOrder ++ rest ∧
        Opens scope n rest)) := by
  cases h with
  | argument hrole hopen => exact .inl ⟨hrole, hopen⟩
  | left hrole hopen => exact .inr ⟨hrole, .inl hopen⟩
  | right hrole ht hopen => exact .inr ⟨hrole, .inr ⟨_, _, ht, rfl, hopen⟩⟩

theorem Opens.le_nesting {t : Tree} (ht : t.Fits scope isAnswer) {n : ℕ}
    (h : Opens scope n (t.preOrder ++ rest)) : n ≤ t.nesting := by
  induction t generalizing n rest with
  | operand token =>
    obtain ⟨x, hrole⟩ := ht
    cases n with
    | zero => exact Nat.zero_le _
    | succ n =>
      obtain ⟨hrole', -⟩ | ⟨hrole', -⟩ := h.cons_cases
      · simp [hrole] at hrole'
      · simp [hrole] at hrole'
  | unary operator argument ih =>
    obtain ⟨hrole, harg⟩ := ht
    cases n with
    | zero => exact Nat.zero_le _
    | succ n =>
      obtain ⟨-, hopen⟩ | ⟨hrole', -⟩ := h.cons_cases
      · exact Nat.succ_le_succ (ih harg hopen)
      · simp [hrole] at hrole'
  | binary operator left right ihLeft ihRight =>
    obtain ⟨hrole, hleft, hright⟩ := ht
    cases n with
    | zero => exact Nat.zero_le _
    | succ n =>
      rw [Tree.preOrder, List.cons_append, List.append_assoc] at h
      rw [Tree.nesting]
      obtain ⟨hrole', -⟩ | ⟨-, hopen | ⟨u, rest', hu, htail, hopen⟩⟩ := h.cons_cases
      · simp [hrole] at hrole'
      · have hn := ihLeft hleft hopen
        omega
      · obtain ⟨rfl, rfl⟩ := Tree.preOrder_append_inj hleft hu htail
        have hn := ihRight hright hopen
        omega

theorem exists_tree_of_readValue (h : readValue scope limit tokens = .ok (x, rest)) :
    ∃ t : Tree, t.Fits scope isAnswer ∧ t.nesting < limit ∧ t.eval scope isAnswer = .ok x ∧
      tokens = t.preOrder ++ rest := by
  induction limit generalizing tokens x rest with
  | zero => simp [readValue] at h
  | succ limit ih =>
    cases tokens with
    | nil => simp at h
    | cons token tokens =>
      rw [readValue] at h
      split at h
      · next y hrole =>
        obtain ⟨rfl, rfl⟩ : y = x ∧ tokens = rest := by simpa using h
        exact ⟨.operand token, ⟨y, hrole⟩, Nat.succ_pos _,
          by simp [Tree.eval, Tree.leafValue, hrole], rfl⟩
      · next hrole =>
        obtain ⟨⟨y, after⟩, hy, h⟩ := Failure.bind_eq_ok_iff.mp h
        obtain ⟨z, hz, h⟩ := Failure.bind_eq_ok_iff.mp h
        obtain ⟨rfl, rfl⟩ : z = x ∧ after = rest := by simpa [pure, Except.pure] using h
        obtain ⟨t, ht, hnest, heval, rfl⟩ := ih hy
        refine ⟨.unary token t, ⟨hrole, ht⟩, Nat.succ_lt_succ hnest, ?_, rfl⟩
        rw [Tree.eval, heval]
        exact Failure.mapError_eq_ok_iff.mp hz
      · next hrole =>
        obtain ⟨⟨y, middle⟩, hy, h⟩ := Failure.bind_eq_ok_iff.mp h
        obtain ⟨⟨z, after⟩, hz, h⟩ := Failure.bind_eq_ok_iff.mp h
        obtain ⟨w, hw, h⟩ := Failure.bind_eq_ok_iff.mp h
        obtain ⟨rfl, rfl⟩ : w = x ∧ after = rest := by simpa [pure, Except.pure] using h
        obtain ⟨t, ht, hnest, heval, rfl⟩ := ih hy
        obtain ⟨u, hu, hnest', heval', rfl⟩ := ih hz
        refine ⟨.binary token t u, ⟨hrole, ht, hu⟩, ?_, ?_, by simp [Tree.preOrder]⟩
        · exact Nat.succ_lt_succ (Nat.max_lt.mpr ⟨hnest, hnest'⟩)
        · rw [Tree.eval, heval, heval']
          exact Failure.mapError_eq_ok_iff.mp hw
      · cases h

/-- Reading takes up one listing that is not nested too deeply, and nothing else. -/
theorem readValue_eq_ok_iff :
    readValue scope limit tokens = .ok (x, rest) ↔
      ∃ t : Tree, t.Fits scope isAnswer ∧ t.nesting < limit ∧ t.eval scope isAnswer = .ok x ∧
        tokens = t.preOrder ++ rest := by
  constructor
  · exact exists_tree_of_readValue
  · rintro ⟨t, ht, hnest, heval, rfl⟩
    rw [readValue_preOrder ht hnest, heval]
    rfl

theorem readValue_ne_fault (hfree : scope.tables.FaultFree) (limit : ℕ) (tokens : List String)
    (cause : Fault) : readValue scope limit tokens ≠ .error (.fault cause) := by
  induction limit generalizing tokens with
  | zero => simp [readValue]
  | succ limit ih =>
    cases tokens with
    | nil => simp
    | cons token tokens =>
      intro h
      rw [readValue] at h
      split at h
      · cases h
      · rcases Failure.bind_eq_error_iff.mp h with h | ⟨⟨y, after⟩, -, h⟩
        · exact ih tokens h
        · obtain ⟨z, hz⟩ := Scope.exists_applyUnary_eq_ok hfree token y
          simp [hz, bind, Except.bind, pure, Except.pure] at h
      · rcases Failure.bind_eq_error_iff.mp h with h | ⟨⟨y, middle⟩, -, h⟩
        · exact ih tokens h
        rcases Failure.bind_eq_error_iff.mp h with h | ⟨⟨z, after⟩, -, h⟩
        · exact ih middle h
        · obtain ⟨w, hw⟩ := Scope.exists_applyBinary_eq_ok hfree token y z
          simp [hw, bind, Except.bind, pure, Except.pure] at h
      · cases h

/-- A limit that is not reached might as well be a greater one. -/
theorem readValue_of_not_opens {limit' : ℕ} (h : ¬ Opens scope limit tokens)
    (hle : limit ≤ limit') : readValue scope limit' tokens = readValue scope limit tokens := by
  induction limit generalizing limit' tokens with
  | zero => exact absurd (.start tokens) h
  | succ limit ih =>
    obtain ⟨limit', rfl⟩ : ∃ k, limit' = k + 1 := ⟨limit' - 1, by omega⟩
    have hle : limit ≤ limit' := by omega
    cases tokens with
    | nil => simp
    | cons token tokens =>
      rw [readValue, readValue]
      split
      · rfl
      · next hrole =>
        rw [ih (fun hopen => h (.argument hrole hopen)) hle]
      · next hrole =>
        rw [ih (fun hopen => h (.left hrole hopen)) hle]
        cases hy : readValue scope limit tokens with
        | error e => rfl
        | ok result =>
          obtain ⟨y, middle⟩ := result
          obtain ⟨t, ht, -, -, rfl⟩ := readValue_eq_ok_iff.mp hy
          simp only [bind, Except.bind, ih (fun hopen => h (.right hrole ht hopen)) hle]
      · rfl

theorem IsListing.unique {t u : Tree} (ht : IsListing scope t tokens)
    (hu : IsListing scope u tokens) : t = u :=
  Tree.preOrder_inj ht.1 hu.1 (ht.2.trans hu.2.symm)

theorem value_of_readValue (h : readValue scope nestingLimit tokens = .ok (x, [])) :
    value scope tokens = .ok x := by
  rw [value, readAll, h]
  rfl

theorem value_of_not_reads (hfree : scope.tables.FaultFree) (h : ¬ Reads scope tokens) :
    value scope tokens = .error .undefined := by
  rw [value, readAll]
  match hread : readValue scope nestingLimit tokens with
  | .ok (x, []) => exact absurd ⟨x, hread⟩ h
  | .ok (_, _ :: _) => rfl
  | .error .undefined => rfl
  | .error (.fault cause) => exact absurd hread (readValue_ne_fault hfree _ tokens cause)

/-- The listing of a tree has the value of the tree, unless it nests too deeply. -/
theorem readAll_preOrder {t : Tree} (ht : t.Fits scope isAnswer)
    (hnest : t.nesting < nestingLimit) :
    readAll scope t.preOrder = (t.eval scope isAnswer).mapError .fault := by
  have hread := readValue_preOrder ht hnest []
  rw [List.append_nil] at hread
  rw [readAll, hread]
  cases t.eval scope isAnswer <;> rfl

theorem value_preOrder {t : Tree} (ht : t.Fits scope isAnswer)
    (hnest : t.nesting < nestingLimit) (hx : t.eval scope isAnswer = .ok x) :
    value scope t.preOrder = .ok x := by
  rw [value, readAll_preOrder ht hnest, hx]
  rfl

theorem value_of_recursion {cause : Fault} (hcause : cause.isRecursion)
    (h : readAll scope tokens = .error (.fault cause)) :
    value scope tokens = .error .undefined := by
  rw [value, h, Failure.mapError_error, Failure.forgiveRecursion, if_pos hcause]

/-- Calls nested too deeply within a function are no fault of the reading. -/
theorem not_isRecursion_of_value {cause : Fault} (h : value scope tokens = .error (.fault cause)) :
    ¬ cause.isRecursion := by
  intro hcause
  match hread : readAll scope tokens with
  | .ok x => simp [value, hread] at h
  | .error .undefined => simp [value, hread] at h
  | .error (.fault other) =>
    by_cases hother : other.isRecursion
    · simp [value_of_recursion hother hread] at h
    · rw [value, hread, Failure.mapError_error, Failure.forgiveRecursion, if_neg hother] at h
      obtain rfl : other = cause := Failure.fault.inj (Except.error.inj h)
      exact hother hcause

theorem not_reads_of_opens (h : Opens scope nestingLimit tokens) : ¬ Reads scope tokens := by
  rintro ⟨x, hread⟩
  obtain ⟨t, ht, hnest, -, rfl⟩ := readValue_eq_ok_iff.mp hread
  have hle := h.le_nesting ht
  omega

theorem reads_of_isListing (hfree : scope.tables.FaultFree) {t : Tree}
    (hdeep : ¬ Opens scope nestingLimit tokens) (ht : IsListing scope t tokens) :
    ∃ x, t.eval scope isAnswer = .ok x ∧
      readValue scope nestingLimit tokens = .ok (x, []) := by
  obtain ⟨hfits, rfl⟩ := ht
  obtain ⟨x, hx⟩ := Tree.exists_eval_eq_ok scope hfree isAnswer t
  have hnest : t.nesting < nestingLimit := by
    by_contra hge
    have hopen := opens_nesting hfits []
    rw [List.append_nil] at hopen
    exact hdeep (hopen.of_le (by omega))
  exact ⟨x, hx, readValue_eq_ok_iff.mpr ⟨t, hfits, hnest, hx, by simp⟩⟩

/-- As long as no more than 600 operators are open at once, exactly the listings of trees are read,
each of them is of one tree, whose value is the answer, and all else has the answer `nan`, whatever
the limit is from there on. With 1500 operators open the answer is `nan` in any case. -/
theorem reads_iff_listing {tables : OperatorTables} (hfree : tables.FaultFree)
    (settings : Settings) (last : Binary64) (tokens : List String) :
    let c : Calculator := ⟨.preOrder tables, settings, last⟩
    (¬ Opens c.scope 601 tokens →
      (Reads c.scope tokens ↔ ∃ t, IsListing c.scope t tokens) ∧
      (∀ t u, IsListing c.scope t tokens → IsListing c.scope u tokens → t = u) ∧
      (∀ t, IsListing c.scope t tokens → ∃ x, t.eval c.scope isAnswer = .ok x ∧
        ∀ text, Text.words text = tokens →
          c.evaluate text = (.ok x, { c with lastAnswer := x })) ∧
      ((¬ ∃ t, IsListing c.scope t tokens) → ∀ text, Text.words text = tokens →
        c.evaluate text = (.ok .nan, { c with lastAnswer := .nan })) ∧
      (∀ limit, 600 < limit →
        readValue c.scope limit tokens = readValue c.scope nestingLimit tokens)) ∧
    (Opens c.scope 1500 tokens → ∀ text, Text.words text = tokens →
      c.evaluate text = (.ok .nan, { c with lastAnswer := .nan })) := by
  intro c
  have hnan : ¬ Reads c.scope tokens → ∀ text, Text.words text = tokens →
      c.evaluate text = (.ok .nan, { c with lastAnswer := .nan }) := by
    rintro hreads text rfl
    have hvalue := value_of_not_reads hfree hreads
    exact Calculator.evaluate_of_settle (congrArg Failure.settle hvalue)
  constructor
  · intro hdeep
    have hlimit : ¬ Opens c.scope nestingLimit tokens := fun h => hdeep (h.of_le (by decide))
    have hiff : Reads c.scope tokens ↔ ∃ t, IsListing c.scope t tokens := by
      constructor
      · rintro ⟨x, hread⟩
        obtain ⟨t, ht, -, -, htokens⟩ := readValue_eq_ok_iff.mp hread
        exact ⟨t, ht, by simpa using htokens.symm⟩
      · rintro ⟨t, ht⟩
        obtain ⟨x, -, hread⟩ := reads_of_isListing hfree hlimit ht
        exact ⟨x, hread⟩
    refine ⟨hiff, fun t u ht hu => ht.unique hu, ?_, fun hnone => hnan (mt hiff.mp hnone), ?_⟩
    · intro t ht
      obtain ⟨x, hx, hread⟩ := reads_of_isListing hfree hlimit ht
      refine ⟨x, hx, ?_⟩
      rintro text rfl
      have hvalue := value_of_readValue hread
      exact Calculator.evaluate_of_settle (congrArg Failure.settle hvalue)
    · intro limit hlt
      have hchosen : readValue c.scope nestingLimit tokens = readValue c.scope 601 tokens :=
        readValue_of_not_opens hdeep (by decide)
      rw [readValue_of_not_opens hdeep hlt, hchosen]
  · intro hopen
    exact hnan (not_reads_of_opens (hopen.of_le (by decide)))

/-- A short expression with a value, and one that is nested too deeply to have one. -/
theorem evaluate_shallow_and_deep :
    let c : Calculator := ⟨.preOrder .standard, {}, .nan⟩
    let t : Tree := .binary "-" (.operand "ans") (.unary "~" (.operand "2"))
    (OperatorTables.standard.FaultFree ∧ ¬ Opens c.scope 601 t.preOrder ∧
      ∃ x, t.eval c.scope isAnswer = .ok x ∧
        c.evaluate "- ans ~ 2" = (.ok x, { c with lastAnswer := x })) ∧
    (Opens c.scope 1500 (List.replicate 1500 "~") ∧
      c.evaluate (" ".intercalate (List.replicate 1500 "~")) =
        (.ok .nan, { c with lastAnswer := .nan })) := by
  intro c t
  have hfree := OperatorTables.standard_faultFree
  constructor
  · have hshort : ¬ Opens c.scope 601 t.preOrder := fun h => absurd h.le_length (by decide)
    have ht : IsListing c.scope t t.preOrder :=
      ⟨⟨by decide, ⟨_, rfl⟩, by decide, _, rfl⟩, rfl⟩
    obtain ⟨-, -, heval, -⟩ := (reads_iff_listing hfree {} .nan t.preOrder).1 hshort
    obtain ⟨x, hx, htext⟩ := heval t ht
    exact ⟨hfree, hshort, x, hx, htext "- ans ~ 2" (by decide)⟩
  · have hdeep : Opens c.scope 1500 (List.replicate 1500 "~") := opens_replicate (by decide) 1500
    have hwords : Text.words (" ".intercalate (List.replicate 1500 "~")) =
        List.replicate 1500 "~" := by
      refine Text.words_intercalate (fun token hmem => ?_)
      rw [List.eq_of_mem_replicate hmem]
      decide
    exact ⟨hdeep, (reads_iff_listing hfree {} .nan _).2 hdeep _ hwords⟩

end NotationCalculator.PreOrder
