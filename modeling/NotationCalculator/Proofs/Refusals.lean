import NotationCalculator.Proofs.CommandLines
import NotationCalculator.Proofs.Outcomes

/-!
# What the console refuses

Two kinds of lines end the console with an error. One is a command that gives the precision with
more digits than are read; it changes nothing. The other is an expression whose value is a number
or an infinity while so many decimal places are set that none is printed; its value is the last
answer all the same. There are no others, as no reader and none of the standard operators has a
fault, and no command gives the precision more digits than can be written. An error is the end of
what is written: before it come the banner, all that belongs to the lines before and the prompt.
-/
namespace NotationCalculator

/-- A number is not printed from `2 ^ 31` decimal places on. From `2 ^ 63` on another error says so,
and a third one where the count of places cannot be written itself. -/
theorem Settings.render_eq_error_iff {settings : Settings} {x : Binary64} {e : Error} :
    settings.render x = .error e ↔ x ≠ .nan ∧
      ((2147483648 ≤ settings.precision ∧ settings.precision < 9223372036854775808 ∧
          e = .precisionTooBig) ∨
        (9223372036854775808 ≤ settings.precision ∧ settings.IsWritable ∧ e = .tooManyPlaces) ∨
        (¬ settings.IsWritable ∧ e = .precisionUnwritable)) := by
  have hsmall : Nat.pow 2 31 = 2147483648 := by decide
  have hlarge : Nat.pow 2 63 = 9223372036854775808 := by decide
  by_cases hx : x = .nan
  · simp [hx, render_nan]
  rw [render, if_neg (mt Binary64.isNaN_iff.mp hx), and_iff_right hx, hsmall, hlarge]
  by_cases hwritable : settings.IsWritable
  · rw [writtenPrecision_of_isWritable hwritable]
    simp only [bind, Except.bind, pure, Except.pure]
    split_ifs <;> grind
  · have hmany : 9223372036854775808 ≤ settings.precision :=
      not_lt.mp fun hfew => hwritable (isWritable_of_lt hfew)
    rw [writtenPrecision_of_not_isWritable hwritable]
    simp only [bind, Except.bind, Except.error.injEq]
    grind

namespace Console

open Text

/-- The line is refused with this error, and this is the calculator after it. -/
inductive Refusal (c : Calculator) (line : String) : Error → Calculator → Prop
  | precisionTooLong {digits : List ℕ} :
      Command.ofLine? line = some (.precision digits) → 4300 < digits.length →
      Refusal c line (.precisionTooLong digits.length) c
  | precisionTooBig {x : Binary64} :
      Command.ofLine? line = none → (c.evaluate line).1 = .ok x → x ≠ .nan →
      2147483648 ≤ c.settings.precision → c.settings.precision < 9223372036854775808 →
      Refusal c line .precisionTooBig { c with lastAnswer := x }
  | tooManyPlaces {x : Binary64} :
      Command.ofLine? line = none → (c.evaluate line).1 = .ok x → x ≠ .nan →
      9223372036854775808 ≤ c.settings.precision →
      Refusal c line .tooManyPlaces { c with lastAnswer := x }

/-- What is so of every calculator that the console comes to. -/
structure Regular (c : Calculator) : Prop where
  tables : c.tables = .standard
  writable : c.settings.IsWritable

/-- The lines that are answered: the raw ones made tidy, without those that are empty then. -/
def answered (raws : List String) : List String := (raws.map tidy).filter (· ≠ "")

/-- The text of a line on the screen. -/
def shown : Except Error String → String
  | .ok text => text ++ "\n\n"
  | .error _ => ""

/-- What is written for raw lines: after a prompt the text of each that is answered. -/
def dialogue (c : Calculator) : List String → String
  | [] => ""
  | raw :: raws =>
    if tidy raw = "" then prompt ++ dialogue c raws
    else prompt ++ shown (handle c (tidy raw)).1 ++ dialogue (handle c (tidy raw)).2 raws

/-- Among the raw lines, before any that quits, the one after `before` is refused. -/
structure BreaksAt (c : Calculator) (raws before : List String) (raw : String) (e : Error)
    (c' : Calculator) : Prop where
  split : ∃ behind, raws = before ++ raw :: behind
  not_quit : ∀ other ∈ before ++ [raw], lower (tidy other) ≠ "quit"
  not_empty : tidy raw ≠ ""
  refusal : Refusal (after c (answered before)) (tidy raw) e c'

variable {c c' : Calculator} {line raw text written : String} {raws before rest : List String}
  {e : Error} {x : Binary64}

theorem show_eq_error_iff {settings : Settings} :
    show? settings line x = .error e ↔ settings.render x = .error e := by
  rw [show?]
  cases settings.render x <;> simp [Except.map]

/-- A command gives no precision that cannot be written. -/
theorem isWritable_of_ofLine {digits : List ℕ} (settings : Settings)
    (h : Command.ofLine? line = some (.precision digits)) (hfew : digits.length ≤ 4300) :
    { settings with precision := positional digits }.IsWritable := by
  rw [Numeral.positional_eq]
  exact (Command.ofLine_eq_precision_iff.mp h).length_toDigits_le.trans hfew

namespace Regular

theorem handle (hc : Regular c) (line : String) : Regular (handle c line).2 := by
  have heffect := effect c line
  generalize (Console.handle c line).2 = next at heffect
  cases heffect with
  | none => exact hc
  | switchTo new => exact ⟨by cases new <;> rfl, hc.writable⟩
  | angleUnit unit => exact ⟨hc.tables, hc.writable⟩
  | precision hline hfew => exact ⟨hc.tables, isWritable_of_ofLine c.settings hline hfew⟩
  | value => exact ⟨hc.tables, hc.writable⟩

theorem after (hc : Regular c) (lines : List String) : Regular (after c lines) := by
  induction lines generalizing c with
  | nil => exact hc
  | cons line lines ih => exact ih (hc.handle line)

end Regular

theorem obey_eq_error_iff {command : Command} (hc : Regular c)
    (hline : Command.ofLine? line = some command) :
    obey c command = (.error e, c') ↔
      ∃ digits, command = .precision digits ∧ 4300 < digits.length ∧
        e = .precisionTooLong digits.length ∧ c' = c := by
  cases command with
  | help | switchTo _ => simp [obey]
  | settings =>
    obtain ⟨shown, hshown⟩ := Settings.exists_text_iff.mpr hc.writable
    simp [obey, hshown]
  | angleUnit unit =>
    have hwritable : { c.settings with angleUnit := unit }.IsWritable := hc.writable
    obtain ⟨shown, hshown⟩ := Settings.exists_text_iff.mpr hwritable
    simp [obey, hshown]
  | precision digits =>
    have hlimit : Error.digitLimit = 4300 := rfl
    rw [obey, hlimit]
    split_ifs with hfew
    · obtain ⟨shown, hshown⟩ :=
        Settings.exists_text_iff.mpr (isWritable_of_ofLine c.settings hline hfew)
      simp only [hshown, Prod.mk.injEq, reduceCtorEq, false_and, Command.precision.injEq,
        exists_eq_left', false_iff, not_and]
      omega
    · simp only [Prod.mk.injEq, Except.error.injEq, Command.precision.injEq, exists_eq_left']
      constructor
      · rintro ⟨rfl, rfl⟩
        exact ⟨by omega, rfl, rfl⟩
      · rintro ⟨-, rfl, rfl⟩
        exact ⟨rfl, rfl⟩

/-- The error of an expression is that of printing its value. -/
theorem answer_eq_error_iff (h : c.tables = .standard) :
    answer c line = (.error e, c') ↔ ∃ x, (c.evaluate line).1 = .ok x ∧
      c.settings.render x = .error e ∧ c' = { c with lastAnswer := x } := by
  have hfree : c.tables.FaultFree := h ▸ OperatorTables.standard_faultFree
  obtain ⟨x, hx⟩ := c.exists_evaluate_eq_ok hfree line
  simp only [answer, hx, Prod.mk.injEq, show_eq_error_iff, Except.ok.injEq, exists_eq_left']
  exact and_congr_right fun _ => eq_comm

/-- A line has an error exactly when it is refused. -/
theorem handle_eq_error_iff (hc : Regular c) :
    handle c line = (.error e, c') ↔ Refusal c line e c' := by
  cases hcommand : Command.ofLine? line with
  | some command =>
    rw [handle_of_command hcommand, obey_eq_error_iff hc hcommand]
    constructor
    · rintro ⟨digits, rfl, hmany, rfl, rfl⟩
      exact .precisionTooLong hcommand hmany
    · intro hrefusal
      cases hrefusal with
      | precisionTooLong hline hmany =>
        rw [hcommand, Option.some.injEq] at hline
        exact ⟨_, hline, hmany, rfl, rfl⟩
      | precisionTooBig hline | tooManyPlaces hline => simp [hcommand] at hline
  | none =>
    rw [handle_of_expression hcommand, answer_eq_error_iff hc.tables]
    constructor
    · rintro ⟨x, hx, hrender, rfl⟩
      rw [Settings.render_eq_error_iff] at hrender
      obtain ⟨hnumber, ⟨hle, hlt, rfl⟩ | ⟨hle, -, rfl⟩ | ⟨hmany, -⟩⟩ := hrender
      · exact .precisionTooBig hcommand hx hnumber hle hlt
      · exact .tooManyPlaces hcommand hx hnumber hle
      · exact absurd hc.writable hmany
    · intro hrefusal
      cases hrefusal with
      | precisionTooLong hline _ => simp [hcommand] at hline
      | precisionTooBig _ hx hnumber hle hlt =>
        exact ⟨_, hx, Settings.render_eq_error_iff.mpr ⟨hnumber, .inl ⟨hle, hlt, rfl⟩⟩, rfl⟩
      | tooManyPlaces _ hx hnumber hle =>
        exact ⟨_, hx, Settings.render_eq_error_iff.mpr
          ⟨hnumber, .inr (.inl ⟨hle, hc.writable, rfl⟩)⟩, rfl⟩

theorem answered_cons_of_empty (h : tidy raw = "") (raws : List String) :
    answered (raw :: raws) = answered raws := by
  simp [answered, h]

theorem answered_cons_of_ne (h : tidy raw ≠ "") (raws : List String) :
    answered (raw :: raws) = tidy raw :: answered raws := by
  simp [answered, h]

theorem transcriptFrom_of_empty (h : tidy raw = "") (raws : List String) :
    transcriptFrom c (raw :: raws) =
      (prompt ++ (transcriptFrom c raws).1, (transcriptFrom c raws).2) := by
  have hlower : lower "" ≠ "quit" := by decide
  have hreact : react c raw = .next "" c := by
    simp only [react, h, if_neg hlower, if_true]
  simp only [transcriptFrom, hreact, String.append_empty]

theorem transcriptFrom_of_ok (hempty : tidy raw ≠ "") (hquit : lower (tidy raw) ≠ "quit")
    (h : (handle c (tidy raw)).1 = .ok text) (raws : List String) :
    transcriptFrom c (raw :: raws) =
      (prompt ++ (text ++ "\n\n") ++ (transcriptFrom (handle c (tidy raw)).2 raws).1,
        (transcriptFrom (handle c (tidy raw)).2 raws).2) := by
  have hhandle : handle c (tidy raw) = (.ok text, (handle c (tidy raw)).2) := by rw [← h]
  have hreact : react c raw = .next (text ++ "\n\n") (handle c (tidy raw)).2 := by
    rw [react, if_neg hquit, if_neg hempty, hhandle]
  simp only [transcriptFrom, hreact]

theorem transcriptFrom_of_error (hempty : tidy raw ≠ "") (hquit : lower (tidy raw) ≠ "quit")
    (h : (handle c (tidy raw)).1 = .error e) (raws : List String) :
    transcriptFrom c (raw :: raws) = (prompt, some e) := by
  have hhandle : handle c (tidy raw) = (.error e, (handle c (tidy raw)).2) := by rw [← h]
  have hreact : react c raw = .failure e := by
    rw [react, if_neg hquit, if_neg hempty, hhandle]
  simp only [transcriptFrom, hreact]

theorem transcriptFrom_of_quit (hquit : lower (tidy raw) = "quit") (raws : List String) :
    transcriptFrom c (raw :: raws) = (prompt, none) := by
  have hreact : react c raw = .quit := by rw [react, if_pos hquit]
  simp only [transcriptFrom, hreact]

/-- Past lines that neither quit nor have an error the console goes on with the calculator after
them. -/
theorem transcriptFrom_append (hquit : ∀ raw ∈ before, lower (tidy raw) ≠ "quit")
    (hnone : (transcriptFrom c before).2 = none) (rest : List String) :
    transcriptFrom c (before ++ rest) =
      (dialogue c before ++ (transcriptFrom (after c (answered before)) rest).1,
        (transcriptFrom (after c (answered before)) rest).2) := by
  induction before generalizing c with
  | nil => simp [dialogue, answered]
  | cons raw before ih =>
    rw [List.forall_mem_cons] at hquit
    rw [List.cons_append]
    by_cases hempty : tidy raw = ""
    · rw [transcriptFrom_of_empty hempty] at hnone
      rw [transcriptFrom_of_empty hempty, ih hquit.2 hnone, answered_cons_of_empty hempty, dialogue,
        if_pos hempty, String.append_assoc]
    · cases hline : (handle c (tidy raw)).1 with
      | ok text =>
        rw [transcriptFrom_of_ok hempty hquit.1 hline] at hnone
        rw [transcriptFrom_of_ok hempty hquit.1 hline, ih hquit.2 hnone,
          answered_cons_of_ne hempty, after_cons, dialogue, if_neg hempty, hline, shown]
        simp only [String.append_assoc]
      | error e =>
        rw [transcriptFrom_of_error hempty hquit.1 hline] at hnone
        cases hnone

/-- What comes after an error does not matter. -/
theorem transcriptFrom_append_of_error (h : (transcriptFrom c before).2 = some e)
    (rest : List String) : transcriptFrom c (before ++ rest) = transcriptFrom c before := by
  induction before generalizing c with
  | nil => simp [transcriptFrom] at h
  | cons raw before ih =>
    rw [List.cons_append]
    by_cases hquit : lower (tidy raw) = "quit"
    · rw [transcriptFrom_of_quit hquit, transcriptFrom_of_quit hquit]
    by_cases hempty : tidy raw = ""
    · rw [transcriptFrom_of_empty hempty] at h
      rw [transcriptFrom_of_empty hempty, transcriptFrom_of_empty hempty, ih h]
    cases hline : (handle c (tidy raw)).1 with
    | ok text =>
      rw [transcriptFrom_of_ok hempty hquit hline] at h
      rw [transcriptFrom_of_ok hempty hquit hline, transcriptFrom_of_ok hempty hquit hline, ih h]
    | error e' =>
      rw [transcriptFrom_of_error hempty hquit hline, transcriptFrom_of_error hempty hquit hline]

theorem BreaksAt.cons_of_empty (h : BreaksAt c raws before line e c') (hempty : tidy raw = "") :
    BreaksAt c (raw :: raws) (raw :: before) line e c' where
  split := by
    obtain ⟨behind, hbehind⟩ := h.split
    exact ⟨behind, by rw [hbehind, List.cons_append]⟩
  not_quit := by
    have hlower : lower "" ≠ "quit" := by decide
    rw [List.cons_append, List.forall_mem_cons, hempty]
    exact ⟨hlower, h.not_quit⟩
  not_empty := h.not_empty
  refusal := by
    rw [answered_cons_of_empty hempty]
    exact h.refusal

theorem BreaksAt.cons_of_ne (h : BreaksAt (handle c (tidy raw)).2 raws before line e c')
    (hempty : tidy raw ≠ "") (hquit : lower (tidy raw) ≠ "quit") :
    BreaksAt c (raw :: raws) (raw :: before) line e c' where
  split := by
    obtain ⟨behind, hbehind⟩ := h.split
    exact ⟨behind, by rw [hbehind, List.cons_append]⟩
  not_quit := by
    rw [List.cons_append, List.forall_mem_cons]
    exact ⟨hquit, h.not_quit⟩
  not_empty := h.not_empty
  refusal := by
    rw [answered_cons_of_ne hempty, after_cons]
    exact h.refusal

theorem exists_breaksAt (hc : Regular c) (h : (transcriptFrom c raws).2 = some e) :
    ∃ before raw c', BreaksAt c raws before raw e c' := by
  induction raws generalizing c with
  | nil => simp [transcriptFrom] at h
  | cons raw raws ih =>
    by_cases hquit : lower (tidy raw) = "quit"
    · rw [transcriptFrom_of_quit hquit] at h
      cases h
    by_cases hempty : tidy raw = ""
    · rw [transcriptFrom_of_empty hempty] at h
      obtain ⟨before, line, c', hbreak⟩ := ih hc h
      exact ⟨raw :: before, line, c', hbreak.cons_of_empty hempty⟩
    cases hline : (handle c (tidy raw)).1 with
    | ok text =>
      rw [transcriptFrom_of_ok hempty hquit hline] at h
      obtain ⟨before, line, c', hbreak⟩ := ih (hc.handle (tidy raw)) h
      exact ⟨raw :: before, line, c', hbreak.cons_of_ne hempty hquit⟩
    | error e' =>
      rw [transcriptFrom_of_error hempty hquit hline, Option.some.injEq] at h
      subst h
      have hhandle : handle c (tidy raw) = (.error e', (handle c (tidy raw)).2) := by rw [← hline]
      exact ⟨[], raw, _, ⟨raws, rfl⟩, by simpa using hquit, hempty,
        (handle_eq_error_iff hc).mp hhandle⟩

/-- Where nothing has gone wrong before, the console ends at the refused line. -/
theorem BreaksAt.transcriptFrom_eq (h : BreaksAt c raws before raw e c')
    (hc : Regular c) (hnone : (transcriptFrom c before).2 = none) :
    transcriptFrom c raws = (dialogue c before ++ prompt, some e) ∧
      transcriptFrom c before = (dialogue c before ++ prompt ++ "\n", none) := by
  obtain ⟨⟨behind, rfl⟩, hquit, hempty, hrefusal⟩ := h
  rw [List.forall_mem_append, List.forall_mem_singleton] at hquit
  have herror := (handle_eq_error_iff (hc.after (answered before))).mpr hrefusal
  have hend := transcriptFrom_append hquit.1 hnone []
  rw [List.append_nil] at hend
  constructor
  · rw [transcriptFrom_append hquit.1 hnone,
      transcriptFrom_of_error hempty hquit.2 (by rw [herror])]
  · rw [hend, transcriptFrom, String.append_assoc]

/-- An error ends the console exactly when some line that it comes to is refused. Up to the first of
these lines it writes what it would write without the lines from there on, but for the newline at
the end of input. How a refused line leaves the calculator is the matter of `Refusal`, and no other
line has an error. -/
theorem transcript_error_iff (raws : List String) :
    ((∃ e, (transcript raws).2 = some e) ↔
      ∃ before raw e c', BreaksAt start raws before raw e c') ∧
    (∀ before raw e c', BreaksAt start raws before raw e c' → (transcript before).2 = none →
      let written := banner ++ dialogue start before ++ prompt
      transcript raws = (written, some e) ∧ transcript before = (written ++ "\n", none)) ∧
    ∀ (lines : List String) (line : String) (e : Error) (c' : Calculator),
      handle (after start lines) line = (.error e, c') ↔
        Refusal (after start lines) line e c' := by
  have hstart : Regular start := ⟨rfl, Settings.isWritable_of_lt (by decide)⟩
  refine ⟨⟨?_, ?_⟩, ?_, ?_⟩
  · rintro ⟨e, he⟩
    obtain ⟨before, raw, c', hbreak⟩ := exists_breaksAt hstart he
    exact ⟨before, raw, e, c', hbreak⟩
  · rintro ⟨before, raw, e, c', hbreak⟩
    cases hbefore : (transcriptFrom start before).2 with
    | none =>
      have h := (hbreak.transcriptFrom_eq hstart hbefore).1
      exact ⟨e, by rw [transcript, h]⟩
    | some e' =>
      obtain ⟨behind, rfl⟩ := hbreak.split
      exact ⟨e', by rw [transcript, transcriptFrom_append_of_error hbefore, hbefore]⟩
  · intro before raw e c' hbreak hnone
    obtain ⟨hraws, hbefore⟩ := hbreak.transcriptFrom_eq hstart hnone
    constructor
    · rw [transcript, hraws, String.append_assoc]
    · rw [transcript, hbefore]
      simp only [String.append_assoc]
  · intro lines line e c'
    exact handle_eq_error_iff (hstart.after lines)

/-- A quotient by zero, an infinity, when `2 ^ 31` places are to be printed. -/
theorem transcript_of_infinity :
    let before := ["PRECISION  2147483648", " "]
    let raws := before ++ " 1  0 /" :: ["7"]
    let c' : Calculator := { after start (answered before) with lastAnswer := .infinite false }
    BreaksAt start raws before " 1  0 /" .precisionTooBig c' ∧ (transcript before).2 = none ∧
      transcript raws = (banner ++ dialogue start before ++ prompt, some .precisionTooBig) := by
  intro before raws c'
  have hrefusal : Refusal (after start (answered before)) (tidy " 1  0 /") .precisionTooBig c' :=
    .precisionTooBig (by decide) (by decide +kernel) (by decide) (by decide +kernel)
      (by decide +kernel)
  have hbreak : BreaksAt start raws before " 1  0 /" .precisionTooBig c' :=
    ⟨⟨["7"], rfl⟩, by decide, by decide, hrefusal⟩
  have hnone : (transcript before).2 = none := by decide +kernel
  obtain ⟨-, hend, -⟩ := transcript_error_iff raws
  exact ⟨hbreak, hnone, (hend before _ _ c' hbreak hnone).1⟩

end Console
end NotationCalculator
