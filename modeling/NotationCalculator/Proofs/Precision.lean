import NotationCalculator.Proofs.Outcomes

/-!
# What the precision matters to

The precision is for printing. Whatever it is, and whatever the commands set it to that the console
is given, an expression has the same value and leaves the same last answer, a switch makes the same
calculator, and a line that has no value shows so. All that the precision makes a difference to is
the text of the settings, the places that a number is printed with, and whether it can be printed.
-/
namespace NotationCalculator

/-- The calculators differ in the precision at most. -/
structure Calculator.SameButPrecision (c d : Calculator) : Prop where
  dialect : c.dialect = d.dialect
  angleUnit : c.settings.angleUnit = d.settings.angleUnit
  lastAnswer : c.lastAnswer = d.lastAnswer

namespace Console

/-- The same line, or two that set the precision, whatever digits they give. -/
inductive SameButDigits : String → String → Prop
  | same (line : String) : SameButDigits line line
  | precision {line line' : String} {digits digits' : List ℕ} :
      Command.ofLine? line = some (.precision digits) →
      Command.ofLine? line' = some (.precision digits') → SameButDigits line line'

/-- The text shown for each of the lines and the calculator after it, whether or not they end in
errors. -/
def replies (c : Calculator) : List String → List (Except Error String × Calculator)
  | [] => []
  | line :: lines => handle c line :: replies (handle c line).2 lines

/-- What is shown where the precision is set: the settings, or that there are too many digits. -/
inductive SetsPrecision (c : Calculator) : Except Error String → Prop
  | settings : SetsPrecision c c.settings.text
  | tooLong (digits : ℕ) : SetsPrecision c (.error (.precisionTooLong digits))

/-- What is shown with two calculators, where only their precision makes a difference: the same
text, their settings, a number that is printed with the places of each or not at all, or that their
precision has been set or not. -/
inductive SameButPlaces (c d : Calculator) : Except Error String → Except Error String → Prop
  | same (text : Except Error String) : SameButPlaces c d text text
  | settings : SameButPlaces c d c.settings.text d.settings.text
  | number {x : Binary64} (line : String) : x ≠ .nan → c.lastAnswer = x → d.lastAnswer = x →
      SameButPlaces c d (show? c.settings line x) (show? d.settings line x)
  | precision {text text' : Except Error String} : SetsPrecision c text → SetsPrecision d text' →
      SameButPlaces c d text text'

/-- Replies that only the precision can tell apart. -/
structure RepliesAgree (reply reply' : Except Error String × Calculator) : Prop where
  calculators : reply.2.SameButPrecision reply'.2
  texts : SameButPlaces reply.2 reply'.2 reply.1 reply'.1
  noValue_iff : reply.1 = .ok "ERROR" ↔ reply'.1 = .ok "ERROR"

end Console

theorem ne_error_of_mem_space {text : String} (h : ' ' ∈ text.toList) : text ≠ "ERROR" := by
  rintro rfl
  exact absurd h (by decide)

theorem Settings.text_ne_error (settings : Settings) : settings.text ≠ .ok "ERROR" := by
  intro htext
  have hspace : ' ' ∈ "angles: ".toList := by decide
  rw [text_of_isWritable (exists_text_iff.mp ⟨_, htext⟩)] at htext
  refine ne_error_of_mem_space ?_ (Except.ok.inj htext)
  simp only [String.toList_append, List.mem_append]
  exact .inl (.inl (.inl hspace))

theorem Binary64.not_mem_placedDigits (n places : ℕ) : 'E' ∉ placedDigits n places := by
  have hdigits (m : ℕ) : 'E' ∉ Nat.toDigits 10 m := by
    intro hmem
    exact absurd (Nat.isDigit_of_mem_toDigits (by decide) (by decide) hmem) (by decide)
  have hdecimals : 'E' ∉ List.leftpad places '0' (Nat.toDigits 10 (n % Nat.pow 10 places)) := by
    rw [List.leftpad, List.mem_append, not_or]
    exact ⟨fun hmem => absurd (List.eq_of_mem_replicate hmem) (by decide), hdigits _⟩
  rw [placedDigits]
  split_ifs
  · exact hdigits _
  · rw [List.mem_append, List.mem_cons, not_or, not_or]
    exact ⟨hdigits _, by decide, hdecimals⟩

theorem Binary64.fixed_ne_error {x : Binary64} {places : ℕ} {text : String}
    (h : x.fixed? places = some text) : text ≠ "ERROR" := by
  cases x with
  | nan => cases h
  | infinite negative =>
    rw [fixed?, Option.some.injEq] at h
    subst h
    cases negative <;> decide
  | finite negative rank =>
    have hdigits := not_mem_placedDigits (lastPlaces rank places) places
    rw [fixed?, Option.some.injEq] at h
    rintro rfl
    have hmem : 'E' ∈ "ERROR".toList := by decide
    rw [← h, String.toList_ofList] at hmem
    cases negative with
    | false =>
      rw [if_neg Bool.false_ne_true] at hmem
      exact hdigits hmem
    | true =>
      rw [if_pos rfl, List.mem_cons] at hmem
      rcases hmem with hsign | hmem
      · exact absurd hsign (by decide)
      · exact hdigits hmem

theorem Binary64.exists_fixed {x : Binary64} (hx : x ≠ .nan) (places : ℕ) :
    ∃ text, x.fixed? places = some text := by
  cases x with
  | nan => exact absurd rfl hx
  | infinite negative => exact ⟨_, rfl⟩
  | finite negative rank => exact ⟨_, rfl⟩

theorem Settings.render_ne_error {settings : Settings} {x : Binary64} {text : String}
    (hx : x ≠ .nan) (h : settings.render x = .ok text) : text ≠ "ERROR" := by
  obtain ⟨text, hfixed⟩ := Binary64.exists_fixed hx settings.precision
  rw [render, if_neg (mt Binary64.isNaN_iff.mp hx), hfixed, Option.getD_some] at h
  obtain ⟨_, -, h⟩ := Failure.bind_eq_ok_iff.mp h
  split_ifs at h
  obtain rfl := Except.ok.inj h
  exact Binary64.fixed_ne_error hfixed

namespace Calculator.SameButPrecision

variable {c d e : Calculator} {text : String}

theorem symm (h : c.SameButPrecision d) : d.SameButPrecision c :=
  ⟨h.dialect.symm, h.angleUnit.symm, h.lastAnswer.symm⟩

theorem trans (h : c.SameButPrecision d) (h' : d.SameButPrecision e) : c.SameButPrecision e :=
  ⟨h.dialect.trans h'.dialect, h.angleUnit.trans h'.angleUnit, h.lastAnswer.trans h'.lastAnswer⟩

/-- A text means the same to both. -/
theorem value_eq (h : c.SameButPrecision d) (text : String) :
    c.dialect.value c.scope text = d.dialect.value d.scope text := by
  rw [scope, scope, tables, tables, h.dialect, h.angleUnit, h.lastAnswer]

/-- Both evaluations give the same value, or have the same fault. -/
theorem evaluate_cases (h : c.SameButPrecision d) (text : String) :
    (∃ x, c.evaluate text = (.ok x, { c with lastAnswer := x }) ∧
      d.evaluate text = (.ok x, { d with lastAnswer := x })) ∨
    ∃ cause, c.evaluate text = (.error cause, c) ∧ d.evaluate text = (.error cause, d) := by
  have hvalue := h.value_eq text
  cases hsettle : Failure.settle (c.dialect.value c.scope text) with
  | ok x => exact .inl ⟨x, evaluate_of_settle hsettle, evaluate_of_settle (hvalue ▸ hsettle)⟩
  | error cause => exact .inr ⟨cause, by simp only [evaluate, hsettle],
      by simp only [evaluate, ← hvalue, hsettle]⟩

end Calculator.SameButPrecision

namespace Console

variable {c d : Calculator} {line line' : String} {x : Binary64}

theorem show_nan (settings : Settings) (line : String) :
    show? settings line .nan = .ok "ERROR" := by
  rw [show?, Settings.render_nan]
  rfl

/-- Only what is not a number has the sign of no value for its text. -/
theorem show_ne_error (settings : Settings) (line : String) (hx : x ≠ .nan) :
    show? settings line x ≠ .ok "ERROR" := by
  intro h
  obtain ⟨text, hrender, htext⟩ := Failure.map_eq_ok_iff.mp h
  have hspace : ' ' ∈ " = ".toList := by decide
  rw [if_neg (Settings.render_ne_error hx hrender)] at htext
  refine ne_error_of_mem_space ?_ htext
  simp only [String.toList_append, List.mem_append]
  exact .inl (.inr hspace)

theorem SetsPrecision.ne_error {text : Except Error String} (h : SetsPrecision c text) :
    text ≠ .ok "ERROR" := by
  cases h with
  | settings => exact c.settings.text_ne_error
  | tooLong digits => exact nofun

theorem SameButPlaces.noValue_iff {text text' : Except Error String}
    (h : SameButPlaces c d text text') : text = .ok "ERROR" ↔ text' = .ok "ERROR" := by
  cases h with
  | same => exact Iff.rfl
  | settings => exact iff_of_false c.settings.text_ne_error d.settings.text_ne_error
  | number line hx _ _ =>
    exact iff_of_false (show_ne_error c.settings line hx) (show_ne_error d.settings line hx)
  | precision hc hd => exact iff_of_false hc.ne_error hd.ne_error

theorem RepliesAgree.of_texts {reply reply' : Except Error String × Calculator}
    (hafter : reply.2.SameButPrecision reply'.2)
    (htexts : SameButPlaces reply.2 reply'.2 reply.1 reply'.1) : RepliesAgree reply reply' :=
  ⟨hafter, htexts, htexts.noValue_iff⟩

/-- Setting the precision changes nothing else. -/
theorem obey_precision (c : Calculator) (digits : List ℕ) :
    SetsPrecision (obey c (.precision digits)).2 (obey c (.precision digits)).1 ∧
      (obey c (.precision digits)).2.SameButPrecision c := by
  rw [obey]
  split
  · exact ⟨.settings, rfl, rfl, rfl⟩
  · exact ⟨.tooLong digits.length, rfl, rfl, rfl⟩

theorem obey_precision_agree (h : c.SameButPrecision d) (digits digits' : List ℕ) :
    RepliesAgree (obey c (.precision digits)) (obey d (.precision digits')) := by
  obtain ⟨hc, hafter⟩ := obey_precision c digits
  obtain ⟨hd, hafter'⟩ := obey_precision d digits'
  exact .of_texts (hafter.trans (h.trans hafter'.symm)) (.precision hc hd)

theorem obey_agree (h : c.SameButPrecision d) (command : Command) :
    RepliesAgree (obey c command) (obey d command) := by
  have htables : c.tables = d.tables := congrArg Dialect.tables h.dialect
  cases command with
  | help =>
    rw [obey, obey, htables]
    exact .of_texts h (.same _)
  | settings => exact .of_texts h .settings
  | switchTo new => exact .of_texts ⟨rfl, h.angleUnit, rfl⟩ (.same _)
  | angleUnit unit => exact .of_texts ⟨h.dialect, rfl, h.lastAnswer⟩ .settings
  | precision digits => exact obey_precision_agree h digits digits

/-- The value of an expression comes before it is printed. -/
theorem answer_agree (h : c.SameButPrecision d) (line : String) :
    RepliesAgree (answer c line) (answer d line) := by
  obtain ⟨x, hc, hd⟩ | ⟨cause, hc, hd⟩ := h.evaluate_cases line
  · simp only [answer, hc, hd]
    refine .of_texts ⟨h.dialect, h.angleUnit, rfl⟩ ?_
    by_cases hnan : x = .nan
    · simp only [hnan, show_nan]
      exact .same _
    · exact .number line hnan rfl rfl
  · simp only [answer, hc, hd]
    exact .of_texts h (.same _)

theorem handle_agree (h : c.SameButPrecision d) (hline : SameButDigits line line') :
    RepliesAgree (handle c line) (handle d line') := by
  cases hline with
  | same =>
    cases hcommand : Command.ofLine? line with
    | some command =>
      rw [handle_of_command hcommand, handle_of_command hcommand]
      exact obey_agree h command
    | none =>
      rw [handle_of_expression hcommand, handle_of_expression hcommand]
      exact answer_agree h line
  | precision hdigits hdigits' =>
    rw [handle_of_command hdigits, handle_of_command hdigits']
    exact obey_precision_agree h _ _

/-- Two calculators that differ in the precision at most are given the same lines, but for the
digits of the commands that set it. After every line they still differ in nothing else, and only
where the precision itself or the places of a number are shown do the texts differ. -/
theorem replies_same_but_precision {lines lines' : List String} (h : c.SameButPrecision d)
    (hlines : List.Forall₂ SameButDigits lines lines') :
    List.Forall₂ RepliesAgree (replies c lines) (replies d lines') := by
  induction hlines generalizing c d with
  | nil => exact .nil
  | cons hline _ ih =>
    have hreply := handle_agree h hline
    exact .cons hreply (ih hreply.calculators)

/-- A quotient by zero that is printed in one run and cannot be in the other. -/
theorem replies_of_infinity :
    let c : Calculator := { start with settings := ⟨.degrees, 2⟩ }
    let d : Calculator := { start with settings := ⟨.degrees, 3⟩ }
    let lines := ["1 0 /", "precision 4", "1 0 /", "Infix", "ans + 1", "settings"]
    let lines' := ["1 0 /", "PRECISION  2147483648", "1 0 /", "Infix", "ans + 1", "settings"]
    c.SameButPrecision d ∧ List.Forall₂ SameButDigits lines lines' ∧
      List.Forall₂ RepliesAgree (replies c lines) (replies d lines') := by
  intro c d lines lines'
  have h : c.SameButPrecision d := ⟨rfl, rfl, rfl⟩
  have hfour : Command.ofLine? "precision 4" = some (.precision [4]) := by decide
  have hmany : Command.ofLine? "PRECISION  2147483648" =
      some (.precision [2, 1, 4, 7, 4, 8, 3, 6, 4, 8]) := by decide
  have hlines : List.Forall₂ SameButDigits lines lines' :=
    .cons (.same _) (.cons (.precision hfour hmany)
      (.cons (.same _) (.cons (.same _) (.cons (.same _) (.cons (.same _) .nil)))))
  exact ⟨h, hlines, replies_same_but_precision h hlines⟩

end Console
end NotationCalculator
