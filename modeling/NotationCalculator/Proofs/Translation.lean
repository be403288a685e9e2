import NotationCalculator.Expression
import Mathlib.Data.List.TakeDrop
import Mathlib.Order.Nat

/-!
# Bringing phrases into post-order

Where a phrase is read, the operators that wait below it all go on waiting while its own come and
go. At its end some of its own operators are still waiting; what has come out before them and these
operators together are the post-order listing of the phrase's tree. This is kept by every rule of
the grammar, because an operator of two operands releases all that wait of its left operand and is
itself not released within its right one.
-/
namespace NotationCalculator.InOrder

def IsOperator (token : String) : Prop := kind token = .unary ∨ kind token = .binary

/-- The strength with which the weakest operator of a phrase binds, those in parentheses apart. -/
def Phrase.strength : Phrase → ℕ
  | .sum => 1
  | .product => 2
  | .power => 3
  | .unit => 4
  | .atom => 5

variable {operator other token : String} {waiting tokens out : List String} {due : Bool}

theorem kind_opening : kind "(" = .opening := by decide

theorem kind_closing : kind ")" = .closing := by decide

theorem eq_opening_of_kind (h : kind token = .opening) : token = "(" := by
  unfold kind at h
  split_ifs at h
  assumption

theorem eq_closing_of_kind (h : kind token = .closing) : token = ")" := by
  unfold kind at h
  split_ifs at h
  assumption

theorem strength_of_unary (h : kind operator = .unary) : strength operator = 4 := by
  unfold kind at h
  split at h
  · cases h
  split at h
  · next hmem => simp [strength, hmem]
  all_goals (repeat' split at h) <;> cases h

theorem strength_le (operator : String) : strength operator ≤ 4 := by
  unfold strength
  split_ifs <;> omega

/-- Only operators of strength one and two are grouped from the left. -/
theorem strength_le_of_groupsLeft (h : groupsLeft operator = true) : strength operator ≤ 2 := by
  have hall : ∀ name ∈ ["*", "/", "%", "+", "-"], strength name ≤ 2 := by decide
  exact hall operator (by simpa [groupsLeft] using h)

@[simp] theorem waits_opening (operator : String) : waits operator "(" = true := by simp [waits]

theorem waits_of_lt (h : strength other < strength operator) : waits operator other = true := by
  simp [waits, h]

theorem waits_of_le (h : strength other ≤ strength operator) (hright : 3 ≤ strength operator) :
    waits operator other = true := by
  have hgroup : groupsLeft operator = false := by
    by_contra hleft
    have hle : strength operator ≤ 2 := strength_le_of_groupsLeft (by simpa using hleft)
    omega
  rcases Nat.lt_or_eq_of_le h with hlt | heq
  · exact waits_of_lt hlt
  · simp [waits, heq, hgroup]

theorem not_waits_of_lt (hother : other ≠ "(") (h : strength operator < strength other) :
    waits operator other = false := by
  simp only [waits, Bool.or_eq_false_iff, Bool.and_eq_false_iff, decide_eq_false_iff_not]
  exact ⟨⟨hother, by omega⟩, .inl (by omega)⟩

theorem not_waits_of_le (hother : other ≠ "(") (h : strength operator ≤ strength other)
    (hleft : groupsLeft operator = true) : waits operator other = false := by
  simp only [waits, Bool.or_eq_false_iff, Bool.and_eq_false_iff, decide_eq_false_iff_not]
  exact ⟨⟨hother, by omega⟩, .inr (by simp [hleft])⟩

theorem IsOperator.ne_opening (h : IsOperator operator) : operator ≠ "(" := by
  rintro rfl
  rcases h with h | h <;> exact absurd h (by decide)

theorem span_append {p : String → Bool} {xs ys : List String} (hxs : ∀ x ∈ xs, p x = true)
    (hys : ∀ y ∈ ys.head?, p y = false) : (xs ++ ys).span p = (xs, ys) := by
  have htake : ys.takeWhile p = [] := by
    cases ys with
    | nil => rfl
    | cons y ys => simp [hys y rfl]
  have hdrop : ys.dropWhile p = ys := by
    cases ys with
    | nil => rfl
    | cons y ys => simp [hys y rfl]
  rw [List.span_eq_takeWhile_dropWhile, List.takeWhile_append_of_pos hxs,
    List.dropWhile_append_of_pos hxs, htake, hdrop, List.append_nil]

/-- Operators at least this strong leave the latest of the waiting ones where it is. -/
def Admits (bound : ℕ) (waiting : List String) : Prop :=
  ∀ top ∈ waiting.head?, ∀ operator, bound ≤ strength operator → waits operator top = true

theorem Admits.mono {bound bound' : ℕ} (h : Admits bound waiting) (hle : bound ≤ bound') :
    Admits bound' waiting := by
  intro top htop operator hop
  exact h top htop operator (hle.trans hop)

theorem Admits.cons {bound : ℕ}
    (h : ∀ other, bound ≤ strength other → waits other operator = true) :
    Admits bound (operator :: waiting) := by
  intro top htop other hother
  obtain rfl : operator = top := by simpa using htop
  exact h other hother

/-- Operators of one operand wait on each other. -/
theorem Admits.unaries {operators : List String} (h : Admits 4 waiting)
    (hops : ∀ operator ∈ operators, kind operator = .unary) :
    Admits 4 (operators ++ waiting) := by
  cases operators with
  | nil => exact h
  | cons operator operators =>
    have hstrength := strength_of_unary (hops operator List.mem_cons_self)
    exact .cons (fun other hother => waits_of_le (by omega) (by omega))

theorem reorderFrom_operand (h : kind token = .operand) (waiting tokens : List String) :
    reorderFrom waiting true (token :: tokens) =
      (reorderFrom waiting false tokens).map (token :: ·) := by
  rw [reorderFrom, h]
  rfl

theorem reorderFrom_operand_not_due (h : kind token = .operand) (waiting tokens : List String) :
    reorderFrom waiting false (token :: tokens) = none := by
  rw [reorderFrom, h]
  rfl

theorem reorderFrom_opening (waiting tokens : List String) :
    reorderFrom waiting true ("(" :: tokens) = reorderFrom ("(" :: waiting) true tokens := by
  rw [reorderFrom, kind_opening]
  rfl

theorem reorderFrom_opening_not_due (waiting tokens : List String) :
    reorderFrom waiting false ("(" :: tokens) = none := by
  rw [reorderFrom, kind_opening]
  rfl

theorem reorderFrom_operator (h : IsOperator token) {released kept : List String}
    (hspan : waiting.span (fun other => !waits token other) = (released, kept))
    (tokens : List String) :
    reorderFrom waiting due (token :: tokens) =
      (reorderFrom (token :: kept) (due || kind token = .binary) tokens).map (released ++ ·) := by
  rcases h with hkind | hkind
  · rw [reorderFrom, hkind]
    simp only [hspan, reduceCtorEq, decide_false, Bool.or_false]
  · rw [reorderFrom, hkind]
    simp only [hspan, decide_true, Bool.or_true]

/-- An operator releases what does not wait for it, down to what admits it. -/
theorem reorderFrom_release {kept : List String} {bound : ℕ} (hop : IsOperator operator)
    (hbound : bound ≤ strength operator) (hadmits : Admits bound waiting)
    (hkept : ∀ other ∈ kept, waits operator other = false) (tokens : List String) :
    reorderFrom (kept ++ waiting) due (operator :: tokens) =
      (reorderFrom (operator :: waiting) (due || kind operator = .binary) tokens).map
        (kept ++ ·) := by
  have hspan : (kept ++ waiting).span (fun other => !waits operator other) = (kept, waiting) := by
    refine span_append (fun other hother => ?_) (fun top htop => ?_)
    · rw [hkept other hother]
      rfl
    · rw [hadmits top htop operator hbound]
      rfl
  exact reorderFrom_operator hop hspan tokens

/-- Operators of one operand that come one after the other all wait. -/
theorem reorderFrom_unaries {operators : List String}
    (hops : ∀ operator ∈ operators, kind operator = .unary) (hadmits : Admits 4 waiting)
    (tokens : List String) :
    reorderFrom waiting due (operators ++ tokens) =
      reorderFrom (operators.reverse ++ waiting) due tokens := by
  induction operators generalizing waiting with
  | nil => rfl
  | cons operator operators ih =>
    have hkind := hops operator List.mem_cons_self
    have hstrength := strength_of_unary hkind
    have hadmits' : Admits 4 (operator :: waiting) :=
      .cons (fun other hother => waits_of_le (by omega) (by omega))
    have hstep : reorderFrom ([] ++ waiting) due (operator :: (operators ++ tokens)) = _ :=
      reorderFrom_release (.inl hkind) hstrength.ge hadmits (by simp) (operators ++ tokens)
    have hrest := ih (fun other hother => hops other (List.mem_cons_of_mem operator hother))
      hadmits'
    rw [List.nil_append] at hstep
    rw [List.cons_append, hstep, hkind]
    simp [hrest]

/-- A closing parenthesis releases all that waits within. -/
theorem reorderFrom_closing {kept : List String} (hkept : ∀ other ∈ kept, other ≠ "(")
    (tokens : List String) :
    reorderFrom (kept ++ "(" :: waiting) due (")" :: tokens) =
      (reorderFrom waiting due tokens).map (kept ++ ·) := by
  have hspan : (kept ++ "(" :: waiting).span (fun other => decide (other ≠ "(")) =
      (kept, "(" :: waiting) :=
    span_append (fun other hother => by simpa using hkept other hother) (by simp)
  rw [reorderFrom, kind_closing]
  simp only [hspan]

theorem append_of_span {p : String → Bool} (hp : p "(" = false) {released kept : List String}
    (hspan : waiting.span p = (released, kept)) : waiting = released ++ kept ∧ "(" ∉ released := by
  rw [List.span_eq_takeWhile_dropWhile] at hspan
  obtain ⟨rfl, rfl⟩ := Prod.mk.inj hspan
  refine ⟨List.takeWhile_append_dropWhile.symm, fun hmem => ?_⟩
  have htrue := List.all_eq_true.mp List.all_takeWhile "(" hmem
  rw [hp] at htrue
  cases htrue

theorem reorderFrom_closing_eq_none (hnone : "(" ∉ waiting) (due : Bool) (tokens : List String) :
    reorderFrom waiting due (")" :: tokens) = none := by
  have hall : ∀ other ∈ waiting, decide (other ≠ "(") = true := fun other hother => by
    simpa using ne_of_mem_of_not_mem hother hnone
  have hend : ∀ other ∈ ([] : List String).head?, decide (other ≠ "(") = false := by simp
  have hspan := span_append hall hend
  rw [List.append_nil] at hspan
  rw [reorderFrom, kind_closing]
  simp only [hspan]

/-- What a token does: which of the waiting tokens it puts out or whether it comes out itself, which
ones wait from then on, and whether an operand is due. -/
inductive Moves : List String → Bool → String → List String → List String → Bool → Prop
  | operand {token : String} {waiting : List String} :
      kind token = .operand → Moves waiting true token [token] waiting false
  | operator {token : String} {waiting released kept : List String} {due : Bool} :
      IsOperator token → waiting.span (fun other => !waits token other) = (released, kept) →
      Moves waiting due token released (token :: kept) (due || kind token = .binary)
  | opening {waiting : List String} : Moves waiting true "(" [] ("(" :: waiting) true
  | closing {released kept : List String} {due : Bool} :
      "(" ∉ released → Moves (released ++ "(" :: kept) due ")" released kept due

theorem Moves.reorderFrom_cons {released kept : List String} {due' : Bool}
    (h : Moves waiting due token released kept due') (tokens : List String) :
    reorderFrom waiting due (token :: tokens) =
      (reorderFrom kept due' tokens).map (released ++ ·) := by
  cases h with
  | operand hkind => exact reorderFrom_operand hkind waiting tokens
  | operator hop hspan => exact reorderFrom_operator hop hspan tokens
  | opening =>
    rw [reorderFrom_opening]
    exact Option.map_id'.symm
  | closing hnone => exact reorderFrom_closing (fun other hother heq => hnone (heq ▸ hother)) tokens

/-- A token that can do nothing leaves no result, whatever comes after it. -/
theorem exists_moves (waiting : List String) (due : Bool) (token : String) :
    (∃ released kept due', Moves waiting due token released kept due') ∨
      ∀ tokens, reorderFrom waiting due (token :: tokens) = none := by
  cases hkind : kind token with
  | operand =>
    cases due with
    | true => exact .inl ⟨_, _, _, .operand hkind⟩
    | false => exact .inr (reorderFrom_operand_not_due hkind waiting)
  | unary => exact .inl ⟨_, _, _, .operator (.inl hkind) rfl⟩
  | binary => exact .inl ⟨_, _, _, .operator (.inr hkind) rfl⟩
  | opening =>
    obtain rfl := eq_opening_of_kind hkind
    cases due with
    | true => exact .inl ⟨_, _, _, .opening⟩
    | false => exact .inr (reorderFrom_opening_not_due waiting)
  | closing =>
    obtain rfl := eq_closing_of_kind hkind
    by_cases hmem : "(" ∈ waiting
    · obtain ⟨released, kept, rfl, hnone⟩ := List.eq_append_cons_of_mem hmem
      exact .inl ⟨_, _, _, .closing hnone⟩
    · exact .inr (reorderFrom_closing_eq_none hmem due)
  | unknown =>
    refine .inr fun tokens => ?_
    rw [reorderFrom, hkind]

/-- All that one token can do when there is a result in the end. -/
theorem reorderFrom_cons_cases (h : reorderFrom waiting due (token :: tokens) = some out) :
    (kind token = .operand ∧ due = true ∧
      ∃ out', reorderFrom waiting false tokens = some out' ∧ out = token :: out') ∨
    (IsOperator token ∧ ∃ released kept out', waiting = released ++ kept ∧ "(" ∉ released ∧
      reorderFrom (token :: kept) (due || kind token = .binary) tokens = some out' ∧
        out = released ++ out') ∨
    (token = "(" ∧ due = true ∧ reorderFrom ("(" :: waiting) true tokens = some out) ∨
    (token = ")" ∧ ∃ released kept out', waiting = released ++ "(" :: kept ∧ "(" ∉ released ∧
      reorderFrom kept due tokens = some out' ∧ out = released ++ out') := by
  obtain ⟨released, kept, due', hmoves⟩ | hnone := exists_moves waiting due token
  · rw [hmoves.reorderFrom_cons] at h
    obtain ⟨out', hread, rfl⟩ := Option.map_eq_some_iff.mp h
    cases hmoves with
    | operand hkind => exact .inl ⟨hkind, rfl, out', hread, rfl⟩
    | operator hop hspan =>
      obtain ⟨rfl, hnone⟩ := append_of_span (by simp) hspan
      exact .inr (.inl ⟨hop, released, _, out', rfl, hnone, hread, rfl⟩)
    | opening => exact .inr (.inr (.inl ⟨rfl, rfl, hread⟩))
    | closing hnone => exact .inr (.inr (.inr ⟨rfl, released, kept, out', rfl, hnone, hread, rfl⟩))
  · rw [hnone] at h
    cases h

/-- Reading the tokens with an operand due puts out the beginning of the tree's listing and leaves
the rest of it waiting: operators of the given strength at least. -/
def Translates (bound : ℕ) (tokens : List String) (t : Tree) : Prop :=
  ∀ waiting, Admits bound waiting → ∃ out kept, out ++ kept = t.postOrder ∧
    (∀ operator ∈ kept, IsOperator operator ∧ bound ≤ strength operator) ∧
    ∀ rest, reorderFrom waiting true (tokens ++ rest) =
      (reorderFrom (kept ++ waiting) false rest).map (out ++ ·)

variable {t x y : Tree} {left right : List String}

theorem Translates.mono {bound bound' : ℕ} (h : Translates bound' tokens t)
    (hle : bound ≤ bound') : Translates bound tokens t := by
  intro waiting hadmits
  obtain ⟨out, kept, hlisting, hkept, hread⟩ := h waiting (hadmits.mono hle)
  exact ⟨out, kept, hlisting, fun other hother =>
    ⟨(hkept other hother).1, hle.trans (hkept other hother).2⟩, hread⟩

theorem Translates.operand (h : kind token = .operand) (bound : ℕ) :
    Translates bound [token] (.operand token) := by
  intro waiting _
  exact ⟨[token], [], rfl, by simp, reorderFrom_operand h waiting⟩

theorem Translates.group {bound : ℕ} (h : Translates bound tokens t) (bound' : ℕ) :
    Translates bound' ("(" :: tokens ++ [")"]) t := by
  intro waiting _
  obtain ⟨out, kept, hlisting, hkept, hread⟩ :=
    h ("(" :: waiting) (.cons (fun other _ => waits_opening other))
  refine ⟨out ++ kept, [], by rw [List.append_nil, hlisting], by simp, fun rest => ?_⟩
  have hopen : reorderFrom waiting true ("(" :: tokens ++ [")"] ++ rest) =
      reorderFrom ("(" :: waiting) true (tokens ++ ")" :: rest) := by
    rw [List.append_assoc, List.singleton_append, List.cons_append, reorderFrom_opening]
  have hclose : reorderFrom (kept ++ "(" :: waiting) false (")" :: rest) = _ :=
    reorderFrom_closing (fun other hother => (hkept other hother).1.ne_opening) rest
  rw [hopen, hread, hclose, Option.map_map]
  simp [Function.comp_def]

theorem postOrder_wrap (operators : List String) (t : Tree) :
    (wrap operators t).postOrder = t.postOrder ++ operators.reverse := by
  induction operators with
  | nil => simp [wrap]
  | cons operator operators ih =>
    have hwrap : wrap (operator :: operators) t = .unary operator (wrap operators t) := rfl
    rw [hwrap, Tree.postOrder, ih, List.reverse_cons, List.append_assoc]

/-- Nothing waits of an atom, so the operators of one operand around it wait on one another. -/
theorem Translates.wrapped {before after : List String}
    (hops : ∀ operator ∈ before ++ after, kind operator = .unary) (h : Translates 5 tokens t) :
    Translates 4 (before ++ tokens ++ after) (wrap (before ++ after) t) := by
  intro waiting hadmits
  have hbefore : ∀ operator ∈ before, kind operator = .unary :=
    fun operator hop => hops operator (List.mem_append_left after hop)
  have hafter : ∀ operator ∈ after, kind operator = .unary :=
    fun operator hop => hops operator (List.mem_append_right before hop)
  have hadmits' : Admits 4 (before.reverse ++ waiting) :=
    hadmits.unaries (fun operator hop => hbefore operator (List.mem_reverse.mp hop))
  obtain ⟨out, kept, hlisting, hkept, hread⟩ :=
    h (before.reverse ++ waiting) (hadmits'.mono (by omega))
  obtain rfl : kept = [] := by
    refine List.eq_nil_iff_forall_not_mem.mpr (fun other hother => ?_)
    have hge := (hkept other hother).2
    have hle := strength_le other
    omega
  refine ⟨out, (before ++ after).reverse, ?_, ?_, fun rest => ?_⟩
  · rw [postOrder_wrap, ← hlisting, List.append_nil]
  · intro operator hop
    have hkind := hops operator (List.mem_reverse.mp hop)
    exact ⟨.inl hkind, (strength_of_unary hkind).ge⟩
  · rw [List.append_assoc, List.append_assoc, reorderFrom_unaries hbefore hadmits, hread,
      List.nil_append, reorderFrom_unaries hafter hadmits']
    simp

theorem Translates.binary {bound boundLeft boundRight : ℕ} (hkind : kind operator = .binary)
    (hbound : bound ≤ strength operator) (hleft : bound ≤ boundLeft)
    (hright : bound ≤ boundRight)
    (hrelease : ∀ other, other ≠ "(" → boundLeft ≤ strength other → waits operator other = false)
    (hwait : ∀ other, boundRight ≤ strength other → waits other operator = true)
    (hx : Translates boundLeft left x) (hy : Translates boundRight right y) :
    Translates bound (left ++ operator :: right) (.binary operator x y) := by
  intro waiting hadmits
  obtain ⟨out, kept, hlisting, hkept, hread⟩ := hx waiting (hadmits.mono hleft)
  obtain ⟨out', kept', hlisting', hkept', hread'⟩ := hy (operator :: waiting) (.cons hwait)
  refine ⟨out ++ kept ++ out', kept' ++ [operator], ?_, ?_, fun rest => ?_⟩
  · rw [Tree.postOrder, ← hlisting, ← hlisting']
    simp only [List.append_assoc]
  · intro other hother
    rcases List.mem_append.mp hother with hother | hother
    · exact ⟨(hkept' other hother).1, hright.trans (hkept' other hother).2⟩
    · obtain rfl := List.mem_singleton.mp hother
      exact ⟨.inr hkind, hbound⟩
  · have hreleased (other : String) (hother : other ∈ kept) : waits operator other = false :=
      hrelease other (hkept other hother).1.ne_opening (hkept other hother).2
    have hmiddle : reorderFrom (kept ++ waiting) false (operator :: (right ++ rest)) =
        (reorderFrom (operator :: waiting) true (right ++ rest)).map (kept ++ ·) := by
      rw [reorderFrom_release (.inr hkind) hbound hadmits hreleased, hkind]
      simp
    rw [List.append_assoc, List.cons_append, hread, hmiddle, hread', Option.map_map,
      Option.map_map]
    simp [Function.comp_def]

/-- An operator that is grouped from the left, with a right operand that binds more strongly. -/
theorem Translates.leftward {bound : ℕ}
    (hop : kind operator = .binary ∧ strength operator = bound ∧ groupsLeft operator = true)
    (hx : Translates bound left x) (hy : Translates (bound + 1) right y) :
    Translates bound (left ++ operator :: right) (.binary operator x y) := by
  obtain ⟨hkind, rfl, hgroup⟩ := hop
  exact .binary hkind le_rfl le_rfl (Nat.le_succ _)
    (fun other hne hother => not_waits_of_le hne hother hgroup)
    (fun other hother => waits_of_lt hother) hx hy

theorem Denotes.translates {phrase : Phrase} (h : Denotes phrase tokens t) :
    Translates phrase.strength tokens t := by
  induction h with
  | operand hkind => exact .operand hkind 5
  | group _ ih => exact ih.group 5
  | wrapped hops _ ih => exact ih.wrapped hops
  | ofUnit _ ih => exact ih.mono (by decide)
  | power _ _ ihLeft ihRight =>
    have hstrength : strength "^" = 3 := by decide
    exact .binary (by decide) hstrength.ge (by decide) le_rfl
      (fun other hne hother => not_waits_of_lt hne (hstrength ▸ hother))
      (fun other hother => waits_of_le (hstrength ▸ hother) hother) ihLeft ihRight
  | ofPower _ ih => exact ih.mono (by decide)
  | @product _ _ _ _ operator hmem _ _ ihLeft ihRight =>
    have hall : ∀ name ∈ ["*", "/", "%"], kind name = .binary ∧ strength name = 2 ∧
        groupsLeft name = true := by decide
    exact .leftward (hall operator hmem) ihLeft ihRight
  | ofProduct _ ih => exact ih.mono (by decide)
  | @sum _ _ _ _ operator hmem _ _ ihLeft ihRight =>
    have hall : ∀ name ∈ ["+", "-"], kind name = .binary ∧ strength name = 1 ∧
        groupsLeft name = true := by decide
    exact .leftward (hall operator hmem) ihLeft ihRight

/-- An expression is brought into the post-order listing of the tree that it denotes. -/
theorem reorderTokens_of_denotes {phrase : Phrase} (h : Denotes phrase tokens t) :
    reorderTokens tokens = some t.postOrder := by
  obtain ⟨out, kept, hlisting, hkept, hread⟩ := h.translates [] (by simp [Admits])
  have hnone : "(" ∉ kept := fun hmem => (hkept "(" hmem).1.ne_opening rfl
  have hall := hread []
  rw [List.append_nil, List.append_nil] at hall
  rw [reorderTokens, hall, reorderFrom, if_neg hnone, Option.map_some, hlisting]

end NotationCalculator.InOrder
