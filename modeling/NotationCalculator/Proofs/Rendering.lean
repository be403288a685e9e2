import NotationCalculator.Proofs.InOrderReading
import NotationCalculator.Proofs.NumeralCharacters

/-!
# Writing trees in order

A tree over numerals, `ans` and the standard operators is written in order with parentheses around
every operation, or only where the tree would otherwise be another one. Both ways of writing denote
the tree, and the tokens are the same again when they are read from a text.
-/
namespace NotationCalculator

/-- The leaves are numerals or `ans` in small letters, the operators standard ones. -/
def Tree.IsStandard : Tree → Prop
  | .operand token => (Numeral.parse? token).isSome ∨ token = "ans"
  | .unary operator argument =>
    OperatorTables.standard.unary.contains operator = true ∧ argument.IsStandard
  | .binary operator left right =>
    OperatorTables.standard.binary.contains operator = true ∧ left.IsStandard ∧ right.IsStandard

namespace InOrder

open Text

/-- The phrase that an operator of two operands makes. -/
def phraseOf (operator : String) : Phrase :=
  if operator = "^" then .power
  else if operator ∈ ["*", "/", "%"] then .product
  else .sum

/-- The weakest phrases that need no parentheses as operands of an operator in such a phrase. -/
def operandPhrases : Phrase → Phrase × Phrase
  | .sum => (.sum, .product)
  | .product => (.product, .power)
  | .power => (.unit, .power)
  | phrase => (phrase, phrase)

/-- Parentheses around tokens, where they are wanted. -/
def enclose (wanted : Bool) (tokens : List String) : List String :=
  if wanted then "(" :: tokens ++ [")"] else tokens

/-- The tree written as a phrase, with parentheses around every operation or only where needed. -/
def write (every : Bool) (phrase : Phrase) : Tree → List String
  | .operand token => [token]
  | .unary operator argument =>
    enclose (every || Phrase.unit.strength < phrase.strength)
      (operator :: write every .unit argument)
  | .binary operator left right =>
    let own := phraseOf operator
    enclose (every || own.strength < phrase.strength)
      (write every (operandPhrases own).1 left ++ operator ::
        write every (operandPhrases own).2 right)

variable {tokens : List String} {t : Tree} {phrase phrase' : Phrase}

theorem kind_of_standard_unary {operator : String}
    (h : OperatorTables.standard.unary.contains operator = true) : kind operator = .unary := by
  have hall : ∀ name ∈ OperatorTables.standard.unary.entries.map Prod.fst,
      kind name = .unary := by decide
  exact hall operator ((OperatorTable.contains_eq_true_iff _ _).mp h)

theorem mem_of_standard_binary {operator : String}
    (h : OperatorTables.standard.binary.contains operator = true) :
    operator ∈ ["+", "-", "*", "/", "%", "^"] :=
  (OperatorTable.contains_eq_true_iff _ _).mp h

/-- A phrase that binds more strongly is also one that binds less strongly. -/
theorem Denotes.weaken (h : Denotes phrase tokens t) (hle : phrase'.strength ≤ phrase.strength) :
    Denotes phrase' tokens t := by
  have hunit (h : Denotes .unit tokens t) (hle : phrase'.strength ≤ 4) :
      Denotes phrase' tokens t := by
    cases phrase' with
    | sum => exact .ofProduct (.ofPower (.ofUnit h))
    | product => exact .ofPower (.ofUnit h)
    | power => exact .ofUnit h
    | unit => exact h
    | atom => exact absurd hle (by decide)
  cases phrase with
  | atom =>
    cases phrase' with
    | atom => exact h
    | sum | product | power | unit => exact hunit h.ofAtom (by decide)
  | unit => exact hunit h hle
  | power =>
    cases phrase' with
    | sum => exact .ofProduct (.ofPower h)
    | product => exact .ofPower h
    | power => exact h
    | unit | atom => exact absurd hle (by decide)
  | product =>
    cases phrase' with
    | sum => exact .ofProduct h
    | product => exact h
    | power | unit | atom => exact absurd hle (by decide)
  | sum =>
    cases phrase' with
    | sum => exact h
    | product | power | unit | atom => exact absurd hle (by decide)

theorem Denotes.enclosed {wanted : Bool} (h : Denotes phrase tokens t)
    (hneeded : wanted = false → phrase'.strength ≤ phrase.strength) :
    Denotes phrase' (enclose wanted tokens) t := by
  cases wanted with
  | false => exact h.weaken (hneeded rfl)
  | true =>
    have hsum : Denotes .sum tokens t := h.weaken (by cases phrase <;> decide)
    exact hsum.group.weaken (by cases phrase' <;> decide)

theorem Denotes.unary {operator : String} (hop : kind operator = .unary)
    (h : Denotes .unit tokens t) : Denotes .unit (operator :: tokens) (.unary operator t) := by
  cases h with
  | @wrapped before after tokens t hops hatom =>
    have hunit : Denotes .unit (operator :: before ++ tokens ++ after)
        (wrap (operator :: before ++ after) t) :=
      .wrapped (List.forall_mem_cons.mpr ⟨hop, hops⟩) hatom
    exact hunit

theorem Denotes.binary {operator : String} {left right : List String} {x y : Tree}
    (hop : operator ∈ ["+", "-", "*", "/", "%", "^"])
    (hx : Denotes (operandPhrases (phraseOf operator)).1 left x)
    (hy : Denotes (operandPhrases (phraseOf operator)).2 right y) :
    Denotes (phraseOf operator) (left ++ operator :: right) (.binary operator x y) := by
  simp only [List.mem_cons, List.not_mem_nil, or_false] at hop
  rcases hop with rfl | rfl | rfl | rfl | rfl | rfl
  · exact .sum (by decide) hx hy
  · exact .sum (by decide) hx hy
  · exact .product (by decide) hx hy
  · exact .product (by decide) hx hy
  · exact .product (by decide) hx hy
  · exact .power hx hy

/-- A tree is denoted by what is written of it, with all parentheses or with few. -/
theorem denotes_write (ht : t.IsStandard) (every : Bool) (phrase : Phrase) :
    Denotes phrase (write every phrase t) t := by
  induction t generalizing phrase with
  | operand token =>
    have hkind : kind token = .operand := by
      rcases ht with hnumeral | rfl
      · simp [kind, hnumeral]
      · decide
    exact (Denotes.operand hkind).weaken (by cases phrase <;> decide)
  | unary operator argument ih =>
    obtain ⟨hop, harg⟩ := ht
    refine ((ih harg .unit).unary (kind_of_standard_unary hop)).enclosed (fun hfew => ?_)
    simp only [Bool.or_eq_false_iff, decide_eq_false_iff_not] at hfew
    omega
  | binary operator left right ihLeft ihRight =>
    obtain ⟨hop, hleft, hright⟩ := ht
    refine (Denotes.binary (mem_of_standard_binary hop) (ihLeft hleft _)
      (ihRight hright _)).enclosed (fun hfew => ?_)
    simp only [Bool.or_eq_false_iff, decide_eq_false_iff_not] at hfew
    omega

/-- A word with no parenthesis in it. -/
structure IsPlain (token : String) : Prop where
  word : IsWord token.toList
  no_opening : '(' ∉ token.toList
  no_closing : ')' ∉ token.toList

instance (token : String) : Decidable (IsPlain token) :=
  decidable_of_iff (IsWord token.toList ∧ '(' ∉ token.toList ∧ ')' ∉ token.toList)
    ⟨fun h => ⟨h.1, h.2.1, h.2.2⟩, fun h => ⟨h.word, h.no_opening, h.no_closing⟩⟩

theorem padParentheses_append (cs cs' : List Char) :
    padParentheses (cs ++ cs') = padParentheses cs ++ padParentheses cs' :=
  List.flatMap_append

theorem padParentheses_of_not_mem {cs : List Char} (hopen : '(' ∉ cs) (hclose : ')' ∉ cs) :
    padParentheses cs = cs := by
  induction cs with
  | nil => rfl
  | cons c cs ih =>
    rw [List.mem_cons, not_or] at hopen hclose
    have hrest := ih hopen.2 hclose.2
    rw [padParentheses] at hrest ⊢
    rw [List.flatMap_cons, hrest]
    simp [Ne.symm hopen.1, Ne.symm hclose.1]

/-- Spaces beside a parenthesis do not change which word it is. -/
theorem splitWords_padParentheses_append {token : String} {rest : List Char}
    (h : IsPlain token ∨ isParenthesis token = true) (hrest : ∀ b ∈ rest.head?, isBlank b) :
    splitWords (padParentheses token.toList ++ rest) = token.toList :: splitWords rest := by
  have hspace : isBlank ' ' = true := by decide
  rcases h with hplain | hparen
  · rw [padParentheses_of_not_mem hplain.no_opening hplain.no_closing,
      splitWords_append hplain.word hrest]
  · have hpad : padParentheses token.toList = ' ' :: token.toList ++ [' '] := by
      simp only [isParenthesis, Bool.or_eq_true, decide_eq_true_eq] at hparen
      rcases hparen with rfl | rfl <;> rfl
    have hword : IsWord token.toList := by
      simp only [isParenthesis, Bool.or_eq_true, decide_eq_true_eq] at hparen
      rcases hparen with rfl | rfl <;> decide
    rw [hpad, List.append_assoc, List.singleton_append, List.cons_append,
      splitWords_cons_blank hspace, splitWords_append hword (by simpa using hspace),
      splitWords_cons_blank hspace]

/-- Tokens that are written with spaces between them are the tokens of the text. -/
theorem tokens_intercalate {ts : List String}
    (h : ∀ token ∈ ts, IsPlain token ∨ isParenthesis token = true) :
    InOrder.tokens (" ".intercalate ts) = ts := by
  have hlists : splitWords (padParentheses ([' '].intercalate (ts.map String.toList))) =
      ts.map String.toList := by
    induction ts with
    | nil => rfl
    | cons token ts ih =>
      have htoken := h token List.mem_cons_self
      have htail := ih (fun other hother => h other (List.mem_cons_of_mem token hother))
      cases ts with
      | nil =>
        have hend : ∀ b ∈ ([] : List Char).head?, isBlank b := by simp
        have hsingle := splitWords_padParentheses_append htoken hend
        rw [List.append_nil] at hsingle
        rw [List.map_singleton, List.intercalate_singleton, hsingle]
        rfl
      | cons other ts =>
        have hspace : isBlank ' ' = true := by decide
        have hpad : padParentheses [' '] = [' '] := rfl
        rw [List.map_cons] at htail
        rw [List.map_cons, List.map_cons, List.intercalate_cons_cons, padParentheses_append,
          padParentheses_append, hpad, List.append_assoc, List.singleton_append,
          splitWords_padParentheses_append htoken (by simpa using hspace),
          splitWords_cons_blank hspace, htail]
  have hspace : " ".toList = [' '] := rfl
  rw [InOrder.tokens, String.toList_intercalate, hspace, hlists, List.map_map]
  simp

theorem isPlain_of_mem_postOrder (ht : t.IsStandard) : ∀ token ∈ t.postOrder, IsPlain token := by
  induction t with
  | operand token =>
    refine List.forall_mem_singleton.mpr ?_
    rcases ht with hnumeral | rfl
    · have hapart : ∀ c ∈ token.toList, c ≠ '(' ∧ c ≠ ')' := fun c hc =>
        (Numeral.forall_isCharacter hnumeral c hc).ne_parenthesis
      exact ⟨Numeral.isWord_of_parse hnumeral, fun hopen => (hapart _ hopen).1 rfl,
        fun hclose => (hapart _ hclose).2 rfl⟩
    · decide
  | unary operator argument ih =>
    obtain ⟨hop, harg⟩ := ht
    have hall : ∀ name ∈ OperatorTables.standard.unary.entries.map Prod.fst, IsPlain name := by
      decide
    have hplain := hall operator ((OperatorTable.contains_eq_true_iff _ _).mp hop)
    exact List.forall_mem_append.mpr ⟨ih harg, List.forall_mem_singleton.mpr hplain⟩
  | binary operator left right ihLeft ihRight =>
    obtain ⟨hop, hleft, hright⟩ := ht
    have hall : ∀ name ∈ ["+", "-", "*", "/", "%", "^"], IsPlain name := by decide
    have hplain := hall operator (mem_of_standard_binary hop)
    exact List.forall_mem_append.mpr
      ⟨List.forall_mem_append.mpr ⟨ihLeft hleft, ihRight hright⟩,
        List.forall_mem_singleton.mpr hplain⟩

/-- The text that is written of a tree is read as the tokens that were written. -/
theorem tokens_write (ht : t.IsStandard) (every : Bool) :
    InOrder.tokens (" ".intercalate (write every .sum t)) = write every .sum t := by
  refine tokens_intercalate (fun token htoken => ?_)
  have hperm := reorderFrom_perm (reorderTokens_of_denotes (denotes_write ht every .sum))
  rw [List.filter_nil, List.nil_append] at hperm
  cases hparen : isParenthesis token with
  | true => exact .inr rfl
  | false =>
    have hmem := hperm.mem_iff.mpr (List.mem_filter.mpr ⟨htoken, by simp [hparen]⟩)
    exact .inl (isPlain_of_mem_postOrder ht token hmem)

end InOrder
end NotationCalculator
