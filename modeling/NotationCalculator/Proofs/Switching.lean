import NotationCalculator.Proofs.Outcomes

/-!
# Switching the notation

A switch of notation makes a new calculator and gives it the angle unit and the precision of the old
one, neither of which can be refused. Nothing else is left of the old one: whatever calculators
there were before, if their settings were the same, no lines from the switch on tell them apart.
-/
namespace NotationCalculator

open Text

/-- The notation of a dialect, without its operators. -/
def Dialect.kind : Dialect → Notation
  | .preOrder _ => .preOrder
  | .inOrder => .inOrder
  | .postOrder _ => .postOrder

namespace Settings

theorem setAngleUnit_label (settings : Settings) (unit : AngleUnit) :
    settings.setAngleUnit unit.label = .ok { settings with angleUnit := unit } := by
  have hunit : AngleUnit.ofText? unit.label = some unit := by cases unit <;> decide
  unfold setAngleUnit
  rw [hunit]

/-- Every precision that there is can be set. -/
theorem setPrecision_natCast (settings : Settings) (places : ℕ) :
    settings.setPrecision places = .ok { settings with precision := places } := by
  have hnonneg : ¬ (places : Rat) < 0 := Rat.not_lt.mpr Rat.natCast_nonneg
  have hfloor : (places : Rat).floor = places := by
    rw [← Rat.intCast_natCast, Rat.floor_intCast]
  rw [setPrecision, if_neg hnonneg, hfloor, Int.toNat_natCast]

end Settings

namespace Console

/-- What is seen of the console after a line: its text, the kind of calculator, the text of its
settings and its last answer. -/
structure Sight where
  text : Except Error String
  kind : Notation
  settings : Except Error String
  lastAnswer : Binary64

/-- What is seen after each of the lines, whether or not they end in errors. -/
def sights (c : Calculator) : List String → List Sight
  | [] => []
  | line :: lines =>
    let (text, c) := handle c line
    ⟨text, c.dialect.kind, c.settings.text, c.lastAnswer⟩ :: sights c lines

variable {c d : Calculator} {line line' : String} {new : Notation}

theorem ofLine_of_lower_eq_word (h : lower line = new.word) :
    Command.ofLine? line = some (.switchTo new) := by
  have hhelp : new.word ≠ "help" := by cases new <;> decide
  have hsettings : new.word ≠ "settings" := by cases new <;> decide
  have hfind : [.preOrder, .inOrder, .postOrder].find? (fun other : Notation =>
      new.word = other.word) = some new := by cases new <;> decide
  unfold Command.ofLine?
  rw [h, if_neg hhelp, if_neg hsettings, hfind]

theorem handle_of_lower_eq_word (h : lower line = new.word) (c : Calculator) :
    handle c line =
      (.ok ("notación: " ++ new.word), { dialect := new.dialect, settings := c.settings }) := by
  rw [handle_of_command (ofLine_of_lower_eq_word h), obey]

/-- The calculator after a switch is a new one in which the settings of the old one are set. -/
theorem setSettings_new (settings : Settings) (dialect : Dialect) :
    (do
      let c ← ({ dialect } : Calculator).setAngleUnit settings.angleUnit.label
      c.setPrecision settings.precision) = .ok { dialect, settings } := by
  simp only [Calculator.setAngleUnit, Settings.setAngleUnit_label]
  simp only [Calculator.setPrecision, bind, Except.bind, pure, Except.pure,
    Settings.setPrecision_natCast]

/-- Two calculators with the same settings are switched to the same notation, each by its word in
letters of either case. Neither switch has an error, each leaves a new calculator in which the
settings are set, and from there on the same lines show the same and leave the same calculator. -/
theorem switch_forgets (hsettings : c.settings = d.settings) (hline : lower line = new.word)
    (hline' : lower line' = new.word) (lines : List String) :
    ((handle c line).1 = .ok ("notación: " ++ new.word) ∧
      (do
        let fresh ← ({ dialect := new.dialect } : Calculator).setAngleUnit
          c.settings.angleUnit.label
        fresh.setPrecision c.settings.precision) = .ok (handle c line).2) ∧
    sights c (line :: lines) = sights d (line' :: lines) ∧
    after c (line :: lines) = after d (line' :: lines) := by
  have hc := handle_of_lower_eq_word hline c
  have hd := handle_of_lower_eq_word hline' d
  rw [← hsettings] at hd
  refine ⟨⟨by rw [hc], ?_⟩, ?_, ?_⟩
  · rw [hc]
    exact setSettings_new c.settings new.dialect
  · rw [sights, sights, hc, hd]
  · rw [after_cons, after_cons, hc, hd]

/-- A calculator with a table of its own and a last answer, and one of another notation with
neither. -/
theorem switch_of_own_table :
    let same : UnaryFunction := .ok
    let settings : Settings := ⟨.degrees, 4⟩
    let c : Calculator := ⟨.preOrder ⟨⟨[("same", same)]⟩, ⟨[]⟩⟩, settings, .ofInt 7⟩
    let d : Calculator := ⟨.postOrder .standard, settings, .nan⟩
    let lines := ["sin 30", "precision 3", "help", "postfix", "ans ans"]
    c.settings = d.settings ∧ lower "Infix" = Notation.inOrder.word ∧
      lower "INFIX" = Notation.inOrder.word ∧
      (handle c "Infix").1 = .ok "notación: infix" ∧
      sights c ("Infix" :: lines) = sights d ("INFIX" :: lines) := by
  intro same settings c d lines
  have hsettings : c.settings = d.settings := rfl
  have hline : lower "Infix" = Notation.inOrder.word := by decide
  have hline' : lower "INFIX" = Notation.inOrder.word := by decide
  obtain ⟨⟨htext, -⟩, hsights, -⟩ := switch_forgets hsettings hline hline' lines
  have hword : "notación: " ++ Notation.inOrder.word = "notación: infix" := by decide
  exact ⟨hsettings, hline, hline', hword ▸ htext, hsights⟩

end Console
end NotationCalculator
