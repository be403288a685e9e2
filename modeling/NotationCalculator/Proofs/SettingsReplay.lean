import NotationCalculator.Proofs.CommandLines
import NotationCalculator.Proofs.Outcomes
import NotationCalculator.Proofs.PrintedNumerals

/-!
# Settings sent to another calculator

A line that sets the precision gives it as a row of digits, of any scripts and with any number of
zeros in front, and the precision is the number that the row stands for. The text of the settings
shows the precision as such a row, and there is none if the row would be too long to be read; it
shows the angle unit as the word that sets it. What is shown of one calculator can therefore be sent
to another one, in either order, and the settings of the second are then those of the first.
-/
namespace NotationCalculator

open Text Numeral Rounding

variable {line label number : String} {digits : List ℕ}

namespace Settings

theorem isWritable_iff {settings : Settings} :
    settings.IsWritable ↔ settings.precision < 10 ^ 4300 := by
  -- for any number of digits, as the power of a fixed one would be computed
  have hlength (k : ℕ) (hk : 0 < k) :
      (Nat.toDigits 10 settings.precision).length ≤ k ↔ settings.precision < 10 ^ k :=
    Nat.length_toDigits_le_iff (by decide) hk
  exact hlength 4300 (by decide)

/-- The text is read in one way only, for it has one comma. -/
theorem shown_eq_iff (settings : Settings) :
    "angles: " ++ settings.angleUnit.label ++ ", precision: " ++ toString settings.precision =
        "angles: " ++ label ++ ", precision: " ++ number ↔
      label = settings.angleUnit.label ∧ number = toString settings.precision := by
  refine ⟨fun h => ?_, by rintro ⟨rfl, rfl⟩; rfl⟩
  have hcomma : ", precision: ".toList = ',' :: " precision: ".toList := rfl
  have hlist := congrArg String.toList h
  simp only [String.toList_append, List.append_assoc, hcomma, List.cons_append] at hlist
  have hunit : ',' ∉ settings.angleUnit.label.toList := by cases settings.angleUnit <;> decide
  have hrest : ',' ∉ " precision: ".toList ++ (toString settings.precision).toList := by
    rw [List.mem_append, not_or, Nat.toString_eq_repr, Nat.toList_repr]
    refine ⟨by decide, fun hmem => ?_⟩
    exact absurd (Nat.isDigit_of_mem_toDigits (by decide) (by decide) hmem) (by decide)
  obtain ⟨hlabel, -, hnumber⟩ :=
    (List.append_cons_inj_of_notMem hunit hrest).mp (List.append_cancel_left hlist)
  exact ⟨String.toList_inj.mp hlabel.symm,
    String.toList_inj.mp (List.append_cancel_left hnumber).symm⟩

theorem text_eq_ok_iff (settings : Settings) :
    settings.text = .ok ("angles: " ++ label ++ ", precision: " ++ number) ↔
      settings.IsWritable ∧ label = settings.angleUnit.label ∧
        number = toString settings.precision := by
  by_cases h : settings.IsWritable
  · rw [text_of_isWritable h, Except.ok.injEq, and_iff_right h]
    exact settings.shown_eq_iff
  · simp [text_of_not_isWritable h, h]

end Settings

namespace Command

/-- The precision as it is shown sets the precision. -/
theorem precisionLine_toString (n : ℕ) :
    PrecisionLine ("precision " ++ toString n).toList (digitRow n) := by
  have hrow : WritesDigits (Nat.toDigits 10 n) (digitRow n) := by
    rw [toDigits_eq_map_digitRow]
    exact writesDigits_map_digitChar fun _ => lt_of_mem_digitRow
  have hline : ("precision " ++ toString n).toList =
      "precision".toList ++ ([' '] ++ Nat.toDigits 10 n) := by
    rw [String.toList_append, Nat.toString_eq_repr, Nat.toList_repr]
    rfl
  rw [hline]
  have hword : Spells "precision".toList "precision".toList :=
    List.forall₂_same.mpr fun _ _ => List.mem_cons_self
  exact .mk hword (allBlank_singleton (by decide)) (by simp) hrow (digitRow_ne_nil n)

end Command

namespace Console

theorem handle_of_precisionLine (h : Command.PrecisionLine line.toList digits) (c : Calculator) :
    handle c line =
      if digits.length ≤ 4300 then
        (.ok ("angles: " ++ c.settings.angleUnit.label ++ ", precision: " ++
            toString (rowValue digits)),
          { c with settings := { c.settings with precision := rowValue digits } })
      else (.error (.precisionTooLong digits.length), c) := by
  have hlimit : Error.digitLimit = 4300 := rfl
  rw [handle_of_command (Command.ofLine_eq_precision_iff.mpr h), obey, positional_eq, hlimit]
  split_ifs with hfew
  · have hwritable : { c.settings with precision := rowValue digits }.IsWritable :=
      h.length_toDigits_le.trans hfew
    exact congrArg (·, _) (Settings.text_of_isWritable hwritable)
  · rfl

theorem handle_precision (c : Calculator) {settings : Settings} (h : settings.IsWritable) :
    handle c ("precision " ++ toString settings.precision) =
      (.ok ("angles: " ++ c.settings.angleUnit.label ++ ", precision: " ++
          toString settings.precision),
        { c with settings := { c.settings with precision := settings.precision } }) := by
  have hlength : (digitRow settings.precision).length ≤ 4300 := (length_digitRow _).trans_le h
  rw [handle_of_precisionLine (Command.precisionLine_toString _), if_pos hlength, rowValue_digitRow]

theorem handle_label (c : Calculator) (unit : AngleUnit) :
    handle c unit.label =
      ({ c.settings with angleUnit := unit }.text,
        { c with settings := { c.settings with angleUnit := unit } }) := by
  have hcommand : Command.ofLine? unit.label = some (.angleUnit unit) := by cases unit <;> decide
  rw [handle_of_command hcommand, obey]

/-- The whole of a line that sets the precision is the word, blanks and digits, and nothing but the
precision changes by it, or nothing at all if the digits are too many. A calculator whose precision
can be written shows its settings, and what is shown gives another one the same settings. The unit
is set even if the other one had a precision with which it cannot show so. -/
theorem handle_shown_settings (c d : Calculator) (line : String) (digits : List ℕ) :
    (Command.ofLine? line = some (.precision digits) ↔
      Command.PrecisionLine line.toList digits) ∧
    (Command.PrecisionLine line.toList digits → handle c line =
      if digits.length ≤ 4300 then
        (.ok ("angles: " ++ c.settings.angleUnit.label ++ ", precision: " ++
            toString (rowValue digits)),
          { c with settings := { c.settings with precision := rowValue digits } })
      else (.error (.precisionTooLong digits.length), c)) ∧
    (c.settings.precision < 10 ^ 4300 →
      (∃ label number, c.settings.text = .ok ("angles: " ++ label ++ ", precision: " ++ number)) ∧
      ∀ label number : String,
        c.settings.text = .ok ("angles: " ++ label ++ ", precision: " ++ number) →
        (∃ reply, (handle d ("precision " ++ number)).1 = .ok reply) ∧
        ((∃ reply, (handle d label).1 = .ok reply) ↔ d.settings.precision < 10 ^ 4300) ∧
        ∀ first second : String,
          first = "precision " ++ number ∧ second = label ∨
            first = label ∧ second = "precision " ++ number →
          handle (handle d first).2 second =
            (.ok ("angles: " ++ label ++ ", precision: " ++ number),
              { d with settings := c.settings })) := by
  refine ⟨Command.ofLine_eq_precision_iff, fun h => handle_of_precisionLine h c, ?_⟩
  rw [← Settings.isWritable_iff, ← Settings.isWritable_iff]
  intro hwritable
  refine ⟨⟨_, _, c.settings.text_eq_ok_iff.mpr ⟨hwritable, rfl, rfl⟩⟩, ?_⟩
  intro label number htext
  obtain ⟨-, rfl, rfl⟩ := c.settings.text_eq_ok_iff.mp htext
  refine ⟨⟨_, by rw [handle_precision d hwritable]⟩, ?_, ?_⟩
  · rw [handle_label]
    exact Settings.exists_text_iff
  · rintro first second (⟨rfl, rfl⟩ | ⟨rfl, rfl⟩)
    · rw [handle_precision d hwritable, handle_label]
      exact congrArg (·, _) htext
    · rw [handle_label, handle_precision _ hwritable]

/-- A precision in digits of three scripts with a zero in front, and settings of a calculator in
pre-order notation that are sent to one in in-order notation. -/
theorem handle_shown_settings_of_degrees :
    let c : Calculator := ⟨.preOrder .standard, ⟨.degrees, 1207⟩, .nan⟩
    let d : Calculator := ⟨.inOrder, {}, .ofInt 3⟩
    let line := "PREC\u0130\u017f\u0131on\u2003\u20040\u09677\u0663"
    Command.PrecisionLine line.toList [0, 1, 7, 3] ∧
      handle c line = (.ok "angles: degrees, precision: 173",
        { c with settings := ⟨.degrees, 173⟩ }) ∧
      c.settings.precision < 10 ^ 4300 ∧
      c.settings.text = .ok "angles: degrees, precision: 1207" ∧
      handle (handle d "precision 1207").2 "degrees" =
        (.ok "angles: degrees, precision: 1207", { d with settings := c.settings }) ∧
      handle (handle d "degrees").2 "precision 1207" =
        (.ok "angles: degrees, precision: 1207", { d with settings := c.settings }) := by
  intro c d line
  have hline : Command.ofLine? line = some (.precision [0, 1, 7, 3]) := by decide
  have hprecision : c.settings.precision < 10 ^ 4300 := Settings.isWritable_iff.mp (by decide)
  have htext : c.settings.text = .ok "angles: degrees, precision: 1207" := by decide
  obtain ⟨hiff, hset, hsend⟩ := handle_shown_settings c d line [0, 1, 7, 3]
  have hsets := hiff.mp hline
  obtain ⟨-, -, hshown⟩ := (hsend hprecision).2 "degrees" "1207" htext
  have hrow : rowValue [0, 1, 7, 3] = 173 := by decide
  refine ⟨hsets, ?_, hprecision, htext, ?_, ?_⟩
  · rw [hset hsets, if_pos (by decide), hrow]
    rfl
  · exact hshown _ _ (.inl ⟨rfl, rfl⟩)
  · exact hshown _ _ (.inr ⟨rfl, rfl⟩)

end Console

end NotationCalculator
