import NotationCalculator.Proofs.Rendering

/-!
# Where the tokens of in-order expressions stand

Whether tokens are an expression can be told by reading them once, with no more in mind than how
many parentheses are open and whether an operand is due. It is due at the start, after an operator
of two operands and after an opening parenthesis; operators of one operand change nothing. Operands
and opening parentheses stand where it is due, operators of two operands and closing parentheses
where it is not.

While the tokens are read, what stands within each open parenthesis is an expression that lacks its
last operand, and what stands within the last of them is one that lacks an operand if one is due
and a complete one otherwise.
-/
namespace NotationCalculator.InOrder

/-- The tokens stand where they may from a place where this many parentheses are open and an
operand is due or not. -/
inductive Placed : ℕ → Bool → List String → Prop
  | done : Placed 0 false []
  | operand {depth : ℕ} {token : String} {tokens : List String} :
      kind token = .operand → Placed depth false tokens → Placed depth true (token :: tokens)
  | unary {depth : ℕ} {due : Bool} {operator : String} {tokens : List String} :
      kind operator = .unary → Placed depth due tokens → Placed depth due (operator :: tokens)
  | binary {depth : ℕ} {operator : String} {tokens : List String} :
      kind operator = .binary → Placed depth true tokens → Placed depth false (operator :: tokens)
  | opening {depth : ℕ} {tokens : List String} :
      Placed (depth + 1) true tokens → Placed depth true ("(" :: tokens)
  | closing {depth : ℕ} {tokens : List String} :
      Placed depth false tokens → Placed (depth + 1) false (")" :: tokens)

/-- Whether an operand is due after a token. -/
def dueAfter (due : Bool) (token : String) : Bool :=
  match kind token with
  | .operand => false
  | .binary => true
  | _ => due

/-- No parenthesis is closed where an operand is due. -/
def ClosesComplete (due : Bool) (tokens : List String) : Prop :=
  ∀ before after, tokens = before ++ ")" :: after → before.foldl dueAfter due = false

/-- With this many parentheses open, every closing one has its partner and none is left open. -/
inductive Balanced : ℕ → List String → Prop
  | done : Balanced 0 []
  | opening {depth : ℕ} {tokens : List String} :
      Balanced (depth + 1) tokens → Balanced depth ("(" :: tokens)
  | closing {depth : ℕ} {tokens : List String} :
      Balanced depth tokens → Balanced (depth + 1) (")" :: tokens)
  | other {depth : ℕ} {token : String} {tokens : List String} :
      isParenthesis token = false → Balanced depth tokens → Balanced depth (token :: tokens)

/-- An expression without its last operand: operators of one operand that stand before it, at the
start or behind an operator of two operands. -/
inductive Lacking : List String → Prop
  | start {before : List String} :
      (∀ operator ∈ before, kind operator = .unary) → Lacking before
  | behind {left before : List String} {operator : String} {x : Tree} :
      Denotes .sum left x → kind operator = .binary →
      (∀ other ∈ before, kind other = .unary) → Lacking (left ++ operator :: before)

/-- The tokens up to the last open parenthesis. Each of these stands in place of an operand. -/
inductive Opened : ℕ → List String → Prop
  | start : Opened 0 []
  | opening {depth : ℕ} {outer inner : List String} :
      Opened depth outer → Lacking inner → Opened (depth + 1) (outer ++ inner ++ ["("])

/-- What stands within the last open parenthesis. -/
def Within : Bool → List String → Prop
  | true, tokens => Lacking tokens
  | false, tokens => ∃ t, Denotes .sum tokens t

variable {depth : ℕ} {due : Bool} {operator token : String} {tokens left right : List String}
  {phrase : Phrase} {t x y : Tree}

theorem mem_of_kind_binary (h : kind operator = .binary) :
    operator ∈ ["+", "-", "*", "/", "%", "^"] := by
  unfold kind at h
  split_ifs at h with _ _ hmem
  exact mem_of_standard_binary hmem

/-- The phrase ends in one of the kind `last`, and with any of the kind `other` in its place it is
still a phrase of its kind. -/
def EndsIn (phrase last other : Phrase) (tokens : List String) : Prop :=
  ∃ front back x, tokens = front ++ back ∧ Denotes last back x ∧
    ∀ back' y, Denotes other back' y → ∃ t, Denotes phrase (front ++ back') t

theorem EndsIn.trans {middle last other : Phrase} (h : EndsIn phrase middle middle tokens)
    (hlast : ∀ tokens x, Denotes middle tokens x → EndsIn middle last other tokens) :
    EndsIn phrase last other tokens := by
  obtain ⟨front, back, x, rfl, hx, hreplace⟩ := h
  obtain ⟨front', back', y, rfl, hy, hreplace'⟩ := hlast back x hx
  refine ⟨front ++ front', back', y, (List.append_assoc ..).symm, hy, fun new z hz => ?_⟩
  obtain ⟨u, hu⟩ := hreplace' new z hz
  rw [List.append_assoc]
  exact hreplace (front' ++ new) u hu

theorem Denotes.endsIn_product (h : Denotes .sum tokens t) :
    EndsIn .sum .product .product tokens := by
  cases h with
  | ofProduct h => exact ⟨[], tokens, t, rfl, h, fun _ y hy => ⟨y, .ofProduct hy⟩⟩
  | @sum left right x y operator hop hx hy =>
    refine ⟨left ++ [operator], right, y, by simp, hy, fun new z hz => ?_⟩
    rw [List.append_assoc, List.singleton_append]
    exact ⟨_, .sum hop hx hz⟩

theorem Denotes.endsIn_power (h : Denotes .product tokens t) :
    EndsIn .product .power .power tokens := by
  cases h with
  | ofPower h => exact ⟨[], tokens, t, rfl, h, fun _ y hy => ⟨y, .ofPower hy⟩⟩
  | @product left right x y operator hop hx hy =>
    refine ⟨left ++ [operator], right, y, by simp, hy, fun new z hz => ?_⟩
    rw [List.append_assoc, List.singleton_append]
    exact ⟨_, .product hop hx hz⟩

/-- Powers are grouped from the right, so another power may take the place of the last unit. -/
theorem Denotes.endsIn_unit (h : Denotes phrase tokens t) (hphrase : phrase = .power) :
    EndsIn .power .unit .power tokens := by
  induction h with
  | @ofUnit tokens t h => exact ⟨[], tokens, t, rfl, h, fun _ y hy => ⟨y, hy⟩⟩
  | @power left right x y hx _ _ ih =>
    obtain ⟨front, back, z, rfl, hz, hreplace⟩ := ih rfl
    refine ⟨left ++ "^" :: front, back, z, by simp, hz, fun new w hw => ?_⟩
    obtain ⟨u, hu⟩ := hreplace new w hw
    rw [List.append_assoc, List.cons_append]
    exact ⟨_, .power hx hu⟩
  | _ => cases hphrase

theorem Denotes.sum_endsIn_unit (h : Denotes .sum tokens t) : EndsIn .sum .unit .power tokens := by
  have hpower : EndsIn .sum .power .power tokens :=
    h.endsIn_product.trans (fun _ _ hproduct => hproduct.endsIn_power)
  exact hpower.trans (fun _ _ hpower => hpower.endsIn_unit rfl)

/-- An operator of one operand behind an expression belongs to its last unit. -/
theorem Denotes.append_unary (h : Denotes .sum tokens t) (hop : kind operator = .unary) :
    ∃ u, Denotes .sum (tokens ++ [operator]) u := by
  obtain ⟨front, back, x, rfl, hx, hreplace⟩ := h.sum_endsIn_unit
  cases hx with
  | @wrapped before after inner y hops hy =>
    have hops' : ∀ other ∈ before ++ (after ++ [operator]), kind other = .unary := by
      intro other hother
      rw [← List.append_assoc, List.mem_append, List.mem_singleton] at hother
      rcases hother with hother | rfl
      · exact hops other hother
      · exact hop
    obtain ⟨u, hu⟩ := hreplace _ _ (.ofUnit (.wrapped hops' hy))
    refine ⟨u, ?_⟩
    simpa only [List.append_assoc] using hu

/-- An operator of two operands and a unit behind an expression make one of them together with the
part of it that the operator does not bind more strongly than. -/
theorem Denotes.append_binary (h : Denotes .sum left x)
    (hop : operator ∈ ["+", "-", "*", "/", "%", "^"]) (hy : Denotes .unit right y) :
    ∃ t, Denotes .sum (left ++ operator :: right) t := by
  have hall : ∀ name ∈ ["+", "-", "*", "/", "%", "^"],
      name ∈ ["+", "-"] ∨ name ∈ ["*", "/", "%"] ∨ name = "^" := by decide
  rcases hall operator hop with hmem | hmem | rfl
  · exact ⟨_, .sum hmem h (.ofPower (.ofUnit hy))⟩
  · obtain ⟨front, back, z, rfl, hz, hreplace⟩ := h.endsIn_product
    rw [List.append_assoc]
    exact hreplace _ _ (.product hmem hz (.ofUnit hy))
  · obtain ⟨front, back, z, rfl, hz, hreplace⟩ := h.sum_endsIn_unit
    rw [List.append_assoc]
    exact hreplace _ _ (.power hz (.ofUnit hy))

theorem Lacking.append_unary (h : Lacking tokens) (hop : kind operator = .unary) :
    Lacking (tokens ++ [operator]) := by
  cases h with
  | start hbefore =>
    exact .start (List.forall_mem_append.mpr ⟨hbefore, List.forall_mem_singleton.mpr hop⟩)
  | behind hx hbinary hbefore =>
    rw [List.append_assoc, List.cons_append]
    exact .behind hx hbinary
      (List.forall_mem_append.mpr ⟨hbefore, List.forall_mem_singleton.mpr hop⟩)

/-- With the operand that it lacks it is an expression. -/
theorem Lacking.append_atom (h : Lacking left) (hy : Denotes .atom right y) :
    ∃ t, Denotes .sum (left ++ right) t := by
  have hunit {before : List String} (hbefore : ∀ operator ∈ before, kind operator = .unary) :
      ∃ t, Denotes .unit (before ++ right) t := by
    have hwrapped : Denotes .unit (before ++ right ++ []) (wrap (before ++ []) y) :=
      .wrapped (by simpa using hbefore) hy
    rw [List.append_nil] at hwrapped
    exact ⟨_, hwrapped⟩
  cases h with
  | start hbefore =>
    obtain ⟨t, ht⟩ := hunit hbefore
    exact ⟨t, .ofProduct (.ofPower (.ofUnit ht))⟩
  | behind hx hbinary hbefore =>
    obtain ⟨t, ht⟩ := hunit hbefore
    rw [List.append_assoc, List.cons_append]
    exact hx.append_binary (mem_of_kind_binary hbinary) ht

/-- From a place where all that has been read is as it should be, tokens that stand where they may
make an expression of it. -/
theorem Placed.denotes (h : Placed depth due tokens) {outer inner : List String}
    (houter : Opened depth outer) (hinner : Within due inner) :
    ∃ t, Denotes .sum (outer ++ inner ++ tokens) t := by
  induction h generalizing outer inner with
  | done =>
    cases houter
    rwa [List.nil_append, List.append_nil]
  | @operand depth token tokens hkind _ ih =>
    have hnext : Within false (inner ++ [token]) := hinner.append_atom (.operand hkind)
    have hall := ih houter hnext
    rwa [← List.append_assoc, List.append_assoc, List.singleton_append] at hall
  | @unary depth due operator tokens hkind _ ih =>
    have hnext : Within due (inner ++ [operator]) := by
      cases due with
      | true => exact hinner.append_unary hkind
      | false =>
        obtain ⟨t, ht⟩ := hinner
        exact ht.append_unary hkind
    have hall := ih houter hnext
    rwa [← List.append_assoc, List.append_assoc, List.singleton_append] at hall
  | @binary depth operator tokens hkind _ ih =>
    obtain ⟨t, ht⟩ := hinner
    have hnext : Within true (inner ++ [operator]) := .behind ht hkind (by simp)
    have hall := ih houter hnext
    rwa [← List.append_assoc, List.append_assoc, List.singleton_append] at hall
  | @opening depth tokens _ ih =>
    have hnext : Within true [] := .start (by simp)
    have hall := ih (.opening houter hinner) hnext
    rwa [List.append_nil, List.append_assoc, List.singleton_append] at hall
  | @closing depth tokens _ ih =>
    cases houter with
    | @opening depth outer before houter hbefore =>
      obtain ⟨t, ht⟩ := hinner
      have hnext : Within false (before ++ ("(" :: inner ++ [")"])) :=
        hbefore.append_atom (.group ht)
      have hall := ih houter hnext
      simpa only [List.append_assoc, List.cons_append, List.nil_append] using hall

theorem Placed.unaries {operators rest : List String}
    (hops : ∀ operator ∈ operators, kind operator = .unary) (h : Placed depth due rest) :
    Placed depth due (operators ++ rest) := by
  induction operators with
  | nil => exact h
  | cons operator operators ih =>
    rw [List.forall_mem_cons] at hops
    exact .unary hops.1 (ih hops.2)

theorem Denotes.placed (h : Denotes phrase tokens t) {rest : List String}
    (hrest : Placed depth false rest) : Placed depth true (tokens ++ rest) := by
  induction h generalizing depth rest with
  | operand hkind => exact .operand hkind hrest
  | group _ ih =>
    rw [List.append_assoc, List.singleton_append, List.cons_append]
    exact .opening (ih (.closing hrest))
  | wrapped hops _ ih =>
    rw [List.forall_mem_append] at hops
    rw [List.append_assoc, List.append_assoc]
    exact (ih (hrest.unaries hops.2)).unaries hops.1
  | ofUnit _ ih => exact ih hrest
  | power _ _ ihLeft ihRight =>
    rw [List.append_assoc, List.cons_append]
    exact ihLeft (.binary (by decide) (ihRight hrest))
  | ofPower _ ih => exact ih hrest
  | @product _ _ _ _ operator hmem _ _ ihLeft ihRight =>
    have hall : ∀ name ∈ ["*", "/", "%"], kind name = .binary := by decide
    rw [List.append_assoc, List.cons_append]
    exact ihLeft (.binary (hall operator hmem) (ihRight hrest))
  | ofProduct _ ih => exact ih hrest
  | @sum _ _ _ _ operator hmem _ _ ihLeft ihRight =>
    have hall : ∀ name ∈ ["+", "-"], kind name = .binary := by decide
    rw [List.append_assoc, List.cons_append]
    exact ihLeft (.binary (hall operator hmem) (ihRight hrest))

/-- The tokens of an expression are those that stand where they may. -/
theorem exists_denotes_iff : (∃ t, Denotes .sum tokens t) ↔ Placed 0 true tokens := by
  constructor
  · rintro ⟨t, ht⟩
    have hplaced := ht.placed .done
    rwa [List.append_nil] at hplaced
  · intro h
    have hstart : Within true [] := .start (by simp)
    exact h.denotes .start hstart

/-- Behind any token the others stand where they may, with an operand due as the token leaves it. -/
theorem Placed.tail (h : Placed depth due (token :: tokens)) :
    ∃ depth', Placed depth' (dueAfter due token) tokens := by
  unfold dueAfter
  cases h with
  | operand hkind hrest | unary hkind hrest | binary hkind hrest =>
    rw [hkind]
    exact ⟨_, hrest⟩
  | opening hrest =>
    rw [kind_opening]
    exact ⟨_, hrest⟩
  | closing hrest =>
    rw [kind_closing]
    exact ⟨_, hrest⟩

theorem Placed.of_append {before after : List String} (h : Placed depth due (before ++ after)) :
    ∃ depth', Placed depth' (before.foldl dueAfter due) after := by
  induction before generalizing depth due with
  | nil => exact ⟨depth, h⟩
  | cons token before ih =>
    obtain ⟨depth', hrest⟩ := h.tail
    exact ih hrest

theorem Placed.opening_inv (h : Placed depth due (token :: tokens))
    (hkind : kind token = .opening) : due = true ∧ Placed (depth + 1) true tokens := by
  cases h with
  | opening h => exact ⟨rfl, h⟩
  | closing _ => simp [kind_closing] at hkind
  | operand hkind' _ | unary hkind' _ | binary hkind' _ => simp [hkind] at hkind'

theorem Placed.closing_inv (h : Placed depth due (token :: tokens))
    (hkind : kind token = .closing) :
    due = false ∧ ∃ depth', depth = depth' + 1 ∧ Placed depth' false tokens := by
  cases h with
  | @closing depth _ h => exact ⟨rfl, depth, rfl, h⟩
  | opening _ => simp [kind_opening] at hkind
  | operand hkind' _ | unary hkind' _ | binary hkind' _ => simp [hkind] at hkind'

theorem Placed.closesComplete (h : Placed depth due tokens) : ClosesComplete due tokens := by
  rintro before after rfl
  obtain ⟨depth', hclosing⟩ := h.of_append
  exact (hclosing.closing_inv kind_closing).1

/-- What stands up to the partner of an open parenthesis stands where it may by itself. -/
theorem Placed.of_balanced {inner after : List String} {outside inside : ℕ}
    (hinner : Balanced inside inner)
    (h : Placed (inside + outside + 1) due (inner ++ ")" :: after)) : Placed inside due inner := by
  induction hinner generalizing due with
  | done =>
    obtain ⟨rfl, -⟩ := h.closing_inv kind_closing
    exact .done
  | @opening inside inner _ ih =>
    obtain ⟨rfl, hrest⟩ := h.opening_inv kind_opening
    exact .opening (ih (by rwa [Nat.add_right_comm inside 1]))
  | @closing inside inner _ ih =>
    obtain ⟨rfl, depth, hdepth, hrest⟩ := h.closing_inv kind_closing
    obtain rfl : depth = inside + outside + 1 := by omega
    exact .closing (ih hrest)
  | @other inside token inner hother _ ih =>
    rw [List.cons_append] at h
    cases h with
    | operand hkind hrest => exact .operand hkind (ih hrest)
    | unary hkind hrest => exact .unary hkind (ih hrest)
    | binary hkind hrest => exact .binary hkind (ih hrest)
    | opening _ => simp [isParenthesis] at hother
    | closing _ => simp [isParenthesis] at hother

/-- Partners enclose an expression. -/
theorem Placed.exists_denotes_inner {before inner after : List String}
    (h : Placed depth due (before ++ "(" :: (inner ++ ")" :: after)))
    (hinner : Balanced 0 inner) : ∃ t, Denotes .sum inner t := by
  obtain ⟨outside, hopening⟩ := h.of_append
  obtain ⟨-, hrest⟩ := hopening.opening_inv kind_opening
  rw [← Nat.zero_add outside] at hrest
  exact exists_denotes_iff.mpr (hrest.of_balanced hinner)

end NotationCalculator.InOrder
