import NotationCalculator.Proofs.CommandLines
import NotationCalculator.Proofs.Outcomes
import NotationCalculator.Proofs.Tidying

/-!
# Commands and expressions

The first token of a command is the word that makes it one. No notation knows these words as
numerals, operators or names of the last answer, in any of their forms, and a text that has one
unknown token is no expression, wherever the token stands. So no expression is taken for a command:
whatever the notation, a line that is an expression in it is evaluated, and only the last answer
changes.
-/
namespace NotationCalculator

open Text

/-- The whole text is one expression of the notation. -/
def Dialect.WellFormed (scope : Scope) (text : String) : Dialect → Prop
  | .preOrder _ => PreOrder.Reads scope (words text)
  | .inOrder => ∃ translation, InOrder.reorder text = some translation ∧
      PostOrder.Accepts scope (words translation)
  | .postOrder _ => PostOrder.Accepts scope (words text)

/-- The words that the console obeys, alone or with what follows them. -/
def Command.keywords : List String := loneWords ++ ["quit", "precision"]

/-- The console does not evaluate the line. -/
def Console.IsCommand (line : String) : Prop :=
  (∃ command, Command.ofLine? line = some command) ∨ lower line = "quit"

/-- What the console does after answering a line. -/
def Console.Reaction.ofAnswer : Except Error String × Calculator → Console.Reaction
  | (.ok text, after) => .next (text ++ "\n\n") after
  | (.error e, _) => .failure e

variable {scope : Scope} {dialect : Dialect} {keyword line text text' token : String}
  {tokens : List String}

section UnknownTokens

theorem Tree.Fits.role_ne_unknown {t : Tree} {isAnswer : String → Bool}
    (ht : t.Fits scope isAnswer) : ∀ token ∈ t.postOrder, scope.role isAnswer token ≠ .unknown := by
  induction t with
  | operand token =>
    obtain ⟨x, hrole⟩ := ht
    simp [postOrder, hrole]
  | unary operator argument ih =>
    obtain ⟨hrole, harg⟩ := ht
    exact List.forall_mem_append.mpr ⟨ih harg, by simp [hrole]⟩
  | binary operator left right ihLeft ihRight =>
    obtain ⟨hrole, hleft, hright⟩ := ht
    exact List.forall_mem_append.mpr
      ⟨List.forall_mem_append.mpr ⟨ihLeft hleft, ihRight hright⟩, by simp [hrole]⟩

/-- With the standard operators, what in-order notation does not know no notation knows. -/
theorem role_of_kind_unknown (hs : scope.tables = .standard) (h : InOrder.kind token = .unknown)
    (dialect : Dialect) : scope.role dialect.isAnswer token = .unknown := by
  have hrole := InOrder.role_eq_of_kind hs token
  rw [h] at hrole
  cases dialect with
  | preOrder tables =>
    -- The name of the last answer is narrower there.
    have hanswer : PreOrder.isAnswer token = false := by
      rw [← Bool.not_eq_true]
      intro htoken
      obtain rfl : token = "ans" := of_decide_eq_true htoken
      exact absurd h (by decide)
    have hnone : PostOrder.isAnswer token = false := InOrder.isAnswer_eq_false (by simp [h])
    rw [Scope.role, hnone] at hrole
    rwa [Dialect.isAnswer, Scope.role, hanswer]
  | inOrder | postOrder tables => exact hrole

theorem PostOrder.not_accepts_of_unknown (htoken : token ∈ tokens)
    (h : scope.role isAnswer token = .unknown) : ¬ Accepts scope tokens := by
  rintro ⟨x, hx⟩
  obtain ⟨t, ⟨ht, rfl⟩, -⟩ := run_eq_single_iff.mp hx
  exact ht.role_ne_unknown token htoken h

theorem PreOrder.not_reads_of_unknown (htoken : token ∈ tokens)
    (h : scope.role isAnswer token = .unknown) : ¬ Reads scope tokens := by
  rintro ⟨x, hx⟩
  obtain ⟨t, ht, -, -, rfl⟩ := readValue_eq_ok_iff.mp hx
  rw [List.append_nil] at htoken
  exact ht.role_ne_unknown token (t.preOrder_perm_postOrder.mem_iff.mp htoken) h

theorem InOrder.reorder_of_unknown (htoken : token ∈ InOrder.tokens text)
    (h : kind token = .unknown) : reorder text = none := by
  rw [reorder, Option.map_eq_none_iff, ← Option.not_isSome_iff_eq_none, reorderTokens,
    isSome_reorderFrom, passes_iff]
  exact fun hpasses => hpasses.1 token htoken h

end UnknownTokens

section Keywords

open Command

/-- The words have letters only, none of which stands apart. -/
theorem keyword_letters : ∀ c ∈ keywords.flatMap fun keyword => keyword.toList.flatMap forms,
    isBreak Dialect.inOrder.apart c = false := fun c hc => by
  have hall : (keywords.flatMap fun keyword => keyword.toList.flatMap forms).all
    (!isBreak Dialect.inOrder.apart ·) = true := by decide
  simpa using List.all_eq_true.mp hall c hc

/-- No numeral begins as one of the words does. -/
theorem keyword_initials : ∀ c ∈ keywords.flatMap fun keyword =>
    (keyword.toList.take 1).flatMap forms, ¬ Numeral.IsCharacter c := fun c hc => by
  have hall : (keywords.flatMap fun keyword => (keyword.toList.take 1).flatMap forms).all
    (¬ Numeral.IsCharacter ·) = true := by decide
  simpa using List.all_eq_true.mp hall c hc

/-- None of the words is an operator or a parenthesis. -/
theorem keyword_names : ∀ keyword ∈ keywords, ∀ name ∈ "(" :: ")" ::
    (OperatorTables.standard.unary.entries.map Prod.fst ++
      OperatorTables.standard.binary.entries.map Prod.fst),
    ¬ Spells keyword.toList name.toList := by
  decide

/-- None of the words is as long as the name of the last answer. -/
theorem keyword_length : ∀ keyword ∈ keywords,
    keyword.toList.length ≠ 0 ∧ keyword.toList.length ≠ 3 := by
  decide

theorem parse?_of_spells (hk : keyword ∈ keywords) (h : Spells keyword.toList token.toList) :
    Numeral.parse? token = none := by
  rw [← Option.not_isSome_iff_eq_none]
  intro hnumeral
  have hall := Numeral.forall_isCharacter hnumeral
  have hinitials (c : Char) (hc : c ∈ (keyword.toList.take 1).flatMap forms) :=
    keyword_initials c (List.mem_flatMap.mpr ⟨keyword, hk, hc⟩)
  have hlength := (keyword_length keyword hk).1
  revert h hall hinitials hlength
  generalize keyword.toList = letters
  generalize token.toList = cs
  intro h hall hinitials hlength
  cases h with
  | nil => exact hlength rfl
  | cons hc _ => exact hinitials _ (by simpa using hc) (hall _ List.mem_cons_self)

theorem kind_of_spells (hk : keyword ∈ keywords) (h : Spells keyword.toList token.toList) :
    InOrder.kind token = .unknown := by
  by_contra hknown
  have hnames := keyword_names keyword hk token
  rcases InOrder.kind_ne_unknown_iff.mp hknown with
    (hnumeral | hanswer) | hunary | hbinary | hopening | hclosing
  · simp [parse?_of_spells hk h] at hnumeral
  · have hletters := congrArg List.length (toList_of_isAnswer (decide_eq_true hanswer))
    rw [List.length_map, ← h.length_eq] at hletters
    exact (keyword_length keyword hk).2 hletters
  · rw [OperatorTable.contains_eq_true_iff] at hunary
    exact hnames (by simp [hunary]) h
  · rw [OperatorTable.contains_eq_true_iff] at hbinary
    exact hnames (by simp [hbinary]) h
  · exact hnames (by simp [hopening]) h
  · exact hnames (by simp [hclosing]) h

theorem isRun_of_spells {word : List Char} (hk : keyword ∈ keywords)
    (h : Spells keyword.toList word) (dialect : Dialect) : IsRun dialect.apart word := by
  have hlength := (keyword_length keyword hk).1
  refine ⟨fun hnil => hlength (by rw [h.length_eq, hnil]; rfl), fun c hc => ?_⟩
  obtain ⟨letter, hletter, hform⟩ := h.exists_letter c hc
  have hbreak := keyword_letters c
    (List.mem_flatMap.mpr ⟨keyword, hk, List.mem_flatMap.mpr ⟨letter, hletter, hform⟩⟩)
  cases dialect with
  | inOrder => exact hbreak
  | preOrder tables | postOrder tables =>
    exact isBreak_eq_false_iff.mpr ⟨(isBreak_eq_false_iff.mp hbreak).1, rfl⟩

/-- A command begins with one of the words, which ends where the line does or a blank follows. -/
theorem exists_keyword (h : Console.IsCommand line) :
    ∃ keyword ∈ keywords, ∃ word rest, line.toList = word ++ rest ∧
      Spells keyword.toList word ∧ ∀ b ∈ rest.head?, isBlank b = true := by
  have hwhole {keyword : String} (hk : keyword ∈ keywords) (hline : lower line = keyword) :
      ∃ keyword ∈ keywords, ∃ word rest, line.toList = word ++ rest ∧
        Spells keyword.toList word ∧ ∀ b ∈ rest.head?, isBlank b = true := by
    have hsmall : ∀ keyword ∈ keywords, keyword.toList.all Char.isLower = true := by decide
    exact ⟨keyword, hk, line.toList, [], by simp,
      spells_of_lower hline (List.all_eq_true.mp (hsmall keyword hk)), by simp⟩
  rcases h with ⟨command, hcommand⟩ | hquit
  · rcases ofLine_cases hcommand with hmem | ⟨digits, -, hprecision⟩
    · exact hwhole (List.mem_append_left _ hmem) rfl
    · generalize line.toList = cs at hprecision
      cases hprecision with
      | @mk word blanks row _ hword hblanks hne _ _ =>
        obtain ⟨b, bs, rfl⟩ := List.exists_cons_of_ne_nil hne
        exact ⟨"precision", by decide, word, b :: bs ++ row, rfl, hword,
          by simpa using hblanks b List.mem_cons_self⟩
  · exact hwhole (by decide) hquit

theorem exists_unknown (h : Console.IsCommand line) (dialect : Dialect) :
    ∃ token ∈ dialect.tokens line, InOrder.kind token = .unknown := by
  obtain ⟨keyword, hk, word, rest, hline, hword, hrest⟩ := exists_keyword h
  have hrun := isRun_of_spells hk hword dialect
  have hblank : ∀ b ∈ (spread dialect.apart rest).head?, isBlank b = true := by
    cases rest with
    | nil => simp
    | cons b rest =>
      have hb : isBlank b = true := hrest b rfl
      have hnot : ¬ dialect.apart b = true := fun hapart => by
        simp [Dialect.not_blank_of_apart hapart] at hb
      rw [spread_cons, if_neg hnot]
      simpa using hb
  refine ⟨String.ofList word, ?_, kind_of_spells hk (by rwa [String.toList_ofList])⟩
  rw [Dialect.tokens_eq, hline, spread_append_of_no_break hrun.no_break,
    splitWords_append hrun.isWord hblank, List.map_cons]
  exact List.mem_cons_self

end Keywords

section WellFormed

theorem Dialect.wellFormed_of_tokens (h : dialect.tokens text = dialect.tokens text')
    (hwell : dialect.WellFormed scope text) : dialect.WellFormed scope text' := by
  cases dialect with
  | preOrder tables => exact (congrArg (PreOrder.Reads scope) h).mp hwell
  | postOrder tables => exact (congrArg (PostOrder.Accepts scope) h).mp hwell
  | inOrder =>
    rw [WellFormed, ← InOrder.reorder_of_tokens h]
    exact hwell

theorem Dialect.WellFormed.ne_empty (h : dialect.WellFormed scope text) : text ≠ "" := by
  have hnone : ¬ PostOrder.Accepts scope [] := by
    rintro ⟨x, hx⟩
    simp at hx
  rintro rfl
  cases dialect with
  | preOrder tables =>
    obtain ⟨x, hx⟩ := h
    have hwords : words "" = [] := by decide
    simp [hwords] at hx
  | postOrder tables => exact hnone h
  | inOrder =>
    obtain ⟨translation, hreorder, haccepts⟩ := h
    have hempty : InOrder.reorder "" = some "" := by decide
    obtain rfl := Option.some.inj (hempty.symm.trans hreorder)
    exact hnone haccepts

theorem not_reads_of_isCommand (h : Console.IsCommand line) (hs : scope.tables = .standard) :
    ¬ PreOrder.Reads scope (words line) := by
  obtain ⟨token, htoken, hkind⟩ := exists_unknown h (.preOrder .standard)
  exact PreOrder.not_reads_of_unknown htoken
    (role_of_kind_unknown hs hkind (.preOrder .standard))

theorem not_accepts_of_isCommand (h : Console.IsCommand line) (hs : scope.tables = .standard) :
    ¬ PostOrder.Accepts scope (words line) := by
  obtain ⟨token, htoken, hkind⟩ := exists_unknown h (.postOrder .standard)
  exact PostOrder.not_accepts_of_unknown htoken
    (role_of_kind_unknown hs hkind (.postOrder .standard))

theorem reorder_of_isCommand (h : Console.IsCommand line) : InOrder.reorder line = none := by
  obtain ⟨token, htoken, hkind⟩ := exists_unknown h .inOrder
  exact InOrder.reorder_of_unknown htoken hkind

theorem Dialect.WellFormed.not_isCommand (h : dialect.WellFormed scope line)
    (hs : scope.tables = .standard) : ¬ Console.IsCommand line := by
  intro hcommand
  cases dialect with
  | preOrder tables => exact not_reads_of_isCommand hcommand hs h
  | postOrder tables => exact not_accepts_of_isCommand hcommand hs h
  | inOrder =>
    obtain ⟨translation, hreorder, -⟩ := h
    rw [reorder_of_isCommand hcommand] at hreorder
    cases hreorder

end WellFormed

namespace Console

theorem handle_of_not_isCommand (c : Calculator) (h : ¬ IsCommand line) :
    handle c line = answer c line :=
  handle_of_expression (Option.eq_none_iff_forall_ne_some.mpr (not_exists.mp (not_or.mp h).1))

theorem react_of_not_isCommand (c : Calculator) {raw : String} (h : ¬ IsCommand (tidy raw))
    (hempty : tidy raw ≠ "") : react c raw = .ofAnswer (answer c (tidy raw)) := by
  unfold react
  rw [if_neg (not_or.mp h).2, if_neg hempty, handle_of_not_isCommand c h]
  split <;> next heq => rw [heq, Reaction.ofAnswer]

/-- With the standard operators, a line that the console does not evaluate is no expression in any
notation, whatever the angle unit and the last answer are. An expression of the active notation is
evaluated, be it handed over as it is or as a raw line, and only the last answer changes by it. -/
theorem evaluate_of_wellFormed {c : Calculator} (hc : c.tables = .standard) (line : String) :
    (IsCommand line → ∀ scope : Scope, scope.tables = .standard →
      ¬ PreOrder.Reads scope (words line) ∧ InOrder.reorder line = none ∧
        ¬ PostOrder.Accepts scope (words line)) ∧
    (c.dialect.WellFormed c.scope line → ¬ IsCommand line ∧
      ∃ x, let after : Calculator := { c with lastAnswer := x }
        c.evaluate line = (.ok x, after) ∧ handle c line = (show? c.settings line x, after) ∧
        react c line = .ofAnswer (show? c.settings (tidy line) x, after)) := by
  constructor
  · intro hcommand scope hs
    exact ⟨not_reads_of_isCommand hcommand hs, reorder_of_isCommand hcommand,
      not_accepts_of_isCommand hcommand hs⟩
  · intro hwell
    have hfree : c.tables.FaultFree := hc ▸ OperatorTables.standard_faultFree
    obtain ⟨x, hx⟩ := Calculator.exists_evaluate_eq_ok hfree line
    -- The tidy line has the same tokens, so it is as much of an expression and has the same value.
    have htokens := Dialect.respaced_iff.mp (respaced_tidy c.dialect line)
    have htidy := Dialect.wellFormed_of_tokens htokens hwell
    have hsame := hx
    rw [Calculator.evaluate_of_tokens htokens] at hsame
    refine ⟨hwell.not_isCommand hc, x, hx, ?_, ?_⟩
    · rw [handle_of_not_isCommand c (hwell.not_isCommand hc), answer, hx]
    · rw [react_of_not_isCommand c (htidy.not_isCommand hc) htidy.ne_empty, answer, hsame]

/-- A command with other forms of its letters and a digit of another script, and an expression with
the name of the last answer in it. -/
theorem evaluate_of_wellFormed_sum :
    let c : Calculator := ⟨.preOrder .standard, {}, .ofInt 2⟩
    let line := "\t+ 1\u3000ans"
    c.tables = .standard ∧ IsCommand "PREC\u0130\u017f\u0131on \u0663" ∧
      ¬ PostOrder.Accepts c.scope (words "PREC\u0130\u017f\u0131on \u0663") ∧
      c.dialect.WellFormed c.scope line ∧ ¬ IsCommand line ∧
      ∃ x, c.evaluate line = (.ok x, { c with lastAnswer := x }) := by
  intro c line
  have hc : c.tables = .standard := rfl
  have hcommand : IsCommand "PREC\u0130\u017f\u0131on \u0663" := .inl ⟨.precision [3], by decide⟩
  have hwell : c.dialect.WellFormed c.scope line := by
    let t : Tree := .binary "+" (.operand "1") (.operand "ans")
    have ht : t.Fits c.scope PreOrder.isAnswer := ⟨by decide, ⟨_, rfl⟩, _, rfl⟩
    have hwords : words line = t.preOrder ++ [] := by decide
    have hfree := OperatorTables.standard_faultFree
    obtain ⟨x, hx⟩ := t.exists_eval_eq_ok c.scope hfree PreOrder.isAnswer
    exact ⟨x, PreOrder.readValue_eq_ok_iff.mpr ⟨t, ht, by decide, hx, hwords⟩⟩
  obtain ⟨hreject, -⟩ := evaluate_of_wellFormed hc "PREC\u0130\u017f\u0131on \u0663"
  obtain ⟨-, haccept⟩ := evaluate_of_wellFormed hc line
  obtain ⟨hnot, x, hx, -, -⟩ := haccept hwell
  exact ⟨hc, hcommand, (hreject hcommand c.scope hc).2.2, hwell, hnot, x, hx⟩

end Console

end NotationCalculator
