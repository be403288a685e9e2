import NotationCalculator.Numeral
import NotationCalculator.Proofs.Magnitudes
import Mathlib.Data.List.Forall2
import Mathlib.Data.Nat.Digits.Defs

/-!
# The grammar of numerals

What a numeral is and which number it writes, without a word about how it is read: a sign, digits
with a point, and an exponent, in this order and nothing else. Reading accepts a text exactly when
it is a numeral, and gives the double that the number is rounded to, however many digits there are
and however large the exponent is.
-/
namespace NotationCalculator.Numeral

open Text Binary64 Rounding

/-- The number that a row of digits stands for, the most significant one first. -/
def rowValue (digits : List ℕ) : ℕ := Nat.ofDigits 10 digits.reverse

/-- The characters are digits, of any scripts, with these values. -/
def WritesDigits (cs : List Char) (digits : List ℕ) : Prop :=
  List.Forall₂ (fun c d => digitValue? c = some d) cs digits

/-- An optional sign, and whether it is a minus. -/
inductive WritesSign : List Char → Bool → Prop
  | none : WritesSign [] false
  | plus : WritesSign ['+'] false
  | minus : WritesSign ['-'] true

/-- A mantissa with its digits in front of the point and behind it. -/
inductive WritesMantissa : List Char → List ℕ → List ℕ → Prop
  | whole {cs : List Char} {digits : List ℕ} :
      WritesDigits cs digits → digits ≠ [] → WritesMantissa cs digits []
  | point {cs ds : List Char} {whole fraction : List ℕ} :
      WritesDigits cs whole → whole ≠ [] → WritesDigits ds fraction →
      WritesMantissa (cs ++ '.' :: ds) whole fraction
  | leadingPoint {ds : List Char} {fraction : List ℕ} :
      WritesDigits ds fraction → fraction ≠ [] → WritesMantissa ('.' :: ds) [] fraction

/-- An optional exponent of ten. -/
inductive WritesExponent : List Char → ℤ → Prop
  | none : WritesExponent [] 0
  | some {letter : Char} {sign cs : List Char} {negative : Bool} {digits : List ℕ} :
      letter = 'e' ∨ letter = 'E' → WritesSign sign negative → WritesDigits cs digits →
      digits ≠ [] → WritesExponent (letter :: (sign ++ cs))
        (if negative then -(rowValue digits : ℤ) else rowValue digits)

/-- The whole text is a numeral with this sign, for a number of this size. -/
inductive Writes : List Char → Bool → ℚ → Prop
  | mk {sign mantissa exponent : List Char} {negative : Bool} {whole fraction : List ℕ} {e : ℤ} :
      WritesSign sign negative → WritesMantissa mantissa whole fraction →
      WritesExponent exponent e → Writes (sign ++ (mantissa ++ exponent)) negative
        ((rowValue whole + rowValue fraction / 10 ^ fraction.length) * 10 ^ e)

/-- The number without its sign. -/
def size (n : Numeral) : ℚ := n.mantissa * 10 ^ n.exponent

section Rows

theorem positional_eq (digits : List ℕ) : positional digits = rowValue digits := by
  rw [positional, rowValue, Nat.ofDigits_eq_foldr, List.foldr_reverse]
  simp only [Nat.cast_id, Nat.add_comm]

theorem rowValue_append (xs ys : List ℕ) :
    rowValue (xs ++ ys) = rowValue xs * 10 ^ ys.length + rowValue ys := by
  rw [rowValue, List.reverse_append, Nat.ofDigits_append, List.length_reverse, ← rowValue,
    ← rowValue]
  ring

theorem WritesDigits.lt_ten {cs : List Char} {digits : List ℕ} (h : WritesDigits cs digits) :
    ∀ d ∈ digits, d < 10 := by
  induction h with
  | nil => simp
  | cons hd _ ih => exact List.forall_mem_cons.mpr ⟨digitValue?_lt hd, ih⟩

theorem WritesDigits.rowValue_lt {cs : List Char} {digits : List ℕ} (h : WritesDigits cs digits) :
    rowValue digits < 10 ^ digits.length := by
  have hlt := Nat.ofDigits_lt_base_pow_length (by decide : 1 < 10)
    fun d hd => h.lt_ten d (List.mem_reverse.mp hd)
  rwa [List.length_reverse] at hlt

/-- The point only moves the exponent. -/
theorem size_mk (negative : Bool) (whole fraction : List ℕ) (e : ℤ) :
    size ⟨negative, positional (whole ++ fraction), e - fraction.length⟩ =
      (rowValue whole + rowValue fraction / 10 ^ fraction.length) * 10 ^ e := by
  rw [size, positional_eq, rowValue_append, zpow_sub₀ (by norm_num), zpow_natCast]
  push_cast
  field_simp

end Rows

section Reading

variable {cs rest : List Char}

/-- The text does not go on with a digit. -/
def NoDigit (cs : List Char) : Prop := ∀ c ∈ cs.head?, digitValue? c = none

theorem writesDigits_spanDigits (cs : List Char) :
    ∃ row, cs = row ++ (spanDigits cs).2 ∧ WritesDigits row (spanDigits cs).1 := by
  induction cs with
  | nil => exact ⟨[], rfl, .nil⟩
  | cons c cs ih =>
    cases hd : digitValue? c with
    | none => exact ⟨[], by simp [spanDigits, hd], by simpa [spanDigits, hd] using .nil⟩
    | some d =>
      obtain ⟨row, hcs, hrow⟩ := ih
      refine ⟨c :: row, ?_, ?_⟩
      · simp only [spanDigits, hd, List.cons_append, ← hcs]
      · simp only [spanDigits, hd]
        exact .cons hd hrow

theorem spanDigits_of_noDigit (h : NoDigit cs) : spanDigits cs = ([], cs) := by
  cases cs with
  | nil => rfl
  | cons c cs => simp only [spanDigits, h c rfl]

theorem spanDigits_append {row : List Char} {digits : List ℕ} (h : WritesDigits row digits)
    (hrest : NoDigit rest) : spanDigits (row ++ rest) = (digits, rest) := by
  induction h with
  | nil => exact spanDigits_of_noDigit hrest
  | cons hd _ ih => simp only [List.cons_append, spanDigits, hd, ih]

theorem writesSign_spanSign (cs : List Char) :
    ∃ sign, cs = sign ++ (spanSign cs).2 ∧ WritesSign sign (spanSign cs).1 := by
  unfold spanSign
  split
  · exact ⟨['-'], rfl, .minus⟩
  · exact ⟨['+'], rfl, .plus⟩
  · exact ⟨[], rfl, .none⟩

/-- A sign is taken off whatever is no sign itself. -/
theorem spanSign_append {sign : List Char} {negative : Bool} (h : WritesSign sign negative)
    (hrest : ∀ c ∈ rest.head?, c ≠ '-' ∧ c ≠ '+') : spanSign (sign ++ rest) = (negative, rest) := by
  cases h with
  | none =>
    rw [List.nil_append]
    unfold spanSign
    split
    · exact absurd rfl (hrest '-' rfl).1
    · exact absurd rfl (hrest '+' rfl).2
    · rfl
  | plus => rfl
  | minus => rfl

theorem WritesDigits.head_ne_sign {row : List Char} {digits : List ℕ} (h : WritesDigits row digits)
    (hne : digits ≠ []) (rest : List Char) : ∀ c ∈ (row ++ rest).head?, c ≠ '-' ∧ c ≠ '+' := by
  have hminus : digitValue? '-' = none := by decide
  have hplus : digitValue? '+' = none := by decide
  cases h with
  | nil => exact absurd rfl hne
  | cons hd _ =>
    intro c hc
    rw [List.cons_append, List.head?_cons, Option.mem_some_iff] at hc
    subst hc
    constructor
    · rintro rfl
      rw [hminus] at hd
      cases hd
    · rintro rfl
      rw [hplus] at hd
      cases hd

theorem readExponent_eq_some_iff {e : ℤ} : readExponent? cs = some e ↔ WritesExponent cs e := by
  constructor
  · intro h
    cases cs with
    | nil =>
      rw [readExponent?, Option.some.injEq] at h
      exact h ▸ .none
    | cons letter cs =>
      obtain ⟨sign, hcs, hsign⟩ := writesSign_spanSign cs
      obtain ⟨row, hrest, hrow⟩ := writesDigits_spanDigits (spanSign cs).2
      rw [readExponent?] at h
      split_ifs at h with hletter
      split at h
      next negative rest hspan =>
      rw [hspan] at hcs hsign hrest hrow
      split at h
      · next d ds hdigits =>
        rw [hdigits, List.append_nil] at hrest
        rw [hdigits] at hrow
        rw [positional_eq, Option.some.injEq] at h
        rw [hcs, ← h, hrest]
        exact .some hletter hsign hrow (List.cons_ne_nil d ds)
      · cases h
  · intro h
    cases h with
    | none => rfl
    | @some letter sign row negative digits hletter hsign hrow hne =>
      have hspan : spanSign (sign ++ row) = (negative, row) := by
        have hhead := hrow.head_ne_sign hne []
        rw [List.append_nil] at hhead
        exact spanSign_append hsign hhead
      have hdigits : spanDigits row = (digits, []) := by
        have hspan : spanDigits (row ++ []) = (digits, []) :=
          spanDigits_append hrow (by simp [NoDigit])
        rwa [List.append_nil] at hspan
      obtain _ | ⟨d, ds⟩ := digits
      · exact absurd rfl hne
      · rw [readExponent?, if_pos hletter, hspan]
        simp only [hdigits, positional_eq]

/-- An exponent goes on neither the digits nor the point in front of it. -/
theorem WritesExponent.apart {e : ℤ} (h : WritesExponent cs e) :
    NoDigit cs ∧ ∀ ds, cs ≠ '.' :: ds := by
  have hsmall : digitValue? 'e' = Option.none := by decide
  have hlarge : digitValue? 'E' = Option.none := by decide
  cases h with
  | none => simp [NoDigit]
  | some hletter _ _ _ =>
    rcases hletter with rfl | rfl
    · simpa [NoDigit] using hsmall
    · simpa [NoDigit] using hlarge

theorem spanFraction_of_ne (h : ∀ ds, cs ≠ '.' :: ds) : spanFraction cs = ([], cs) := by
  unfold spanFraction
  split
  · exact absurd rfl (h _)
  · rfl

/-- What is read in front of the exponent is a mantissa, if there is a digit in it. -/
theorem writesMantissa_spans (cs : List Char)
    (hsome : ¬((spanDigits cs).1 = [] ∧ (spanFraction (spanDigits cs).2).1 = [])) :
    ∃ mantissa, cs = mantissa ++ (spanFraction (spanDigits cs).2).2 ∧
      WritesMantissa mantissa (spanDigits cs).1 (spanFraction (spanDigits cs).2).1 := by
  obtain ⟨row, hcs, hrow⟩ := writesDigits_spanDigits cs
  generalize spanDigits cs = spanned at *
  obtain ⟨whole, rest⟩ := spanned
  simp only at hcs hrow hsome ⊢
  subst hcs
  by_cases hpoint : ∃ ds, rest = '.' :: ds
  · obtain ⟨ds, rfl⟩ := hpoint
    obtain ⟨decimals, hds, hdecimals⟩ := writesDigits_spanDigits ds
    refine ⟨row ++ '.' :: decimals, ?_, ?_⟩
    · simp only [spanFraction, List.append_assoc, List.cons_append, ← hds]
    · rw [spanFraction] at hsome ⊢
      by_cases hwhole : whole = []
      · subst hwhole
        obtain rfl := List.forall₂_nil_right_iff.mp hrow
        exact .leadingPoint hdecimals fun hnone => hsome ⟨rfl, hnone⟩
      · exact .point hrow hwhole hdecimals
  · rw [spanFraction_of_ne (not_exists.mp hpoint)] at hsome ⊢
    exact ⟨row, rfl, .whole hrow fun hnone => hsome ⟨hnone, rfl⟩⟩

/-- A mantissa is read as it is written. -/
theorem WritesMantissa.spans {mantissa exponent : List Char} {whole fraction : List ℕ} {e : ℤ}
    (h : WritesMantissa mantissa whole fraction) (he : WritesExponent exponent e) :
    ∃ rest, spanDigits (mantissa ++ exponent) = (whole, rest) ∧
      spanFraction rest = (fraction, exponent) ∧ ¬(whole = [] ∧ fraction = []) := by
  obtain ⟨hdigit, hpoint⟩ := he.apart
  have hstop (ds : List Char) : NoDigit ('.' :: ds) := by
    have hnone : digitValue? '.' = none := by decide
    simpa [NoDigit] using hnone
  cases h with
  | whole hrow hne =>
    exact ⟨exponent, spanDigits_append hrow hdigit, spanFraction_of_ne hpoint,
      fun hnone => hne hnone.1⟩
  | @point cs ds _ _ hrow hne hdecimals =>
    refine ⟨'.' :: (ds ++ exponent), ?_, spanDigits_append hdecimals hdigit,
      fun hnone => hne hnone.1⟩
    rw [List.append_assoc, List.cons_append]
    exact spanDigits_append hrow (hstop _)
  | @leadingPoint ds _ hdecimals hne =>
    exact ⟨'.' :: (ds ++ exponent), spanDigits_of_noDigit (hstop _),
      spanDigits_append hdecimals hdigit, fun hnone => hne hnone.2⟩

theorem WritesMantissa.head_ne_sign {mantissa : List Char} {whole fraction : List ℕ}
    (h : WritesMantissa mantissa whole fraction) (rest : List Char) :
    ∀ c ∈ (mantissa ++ rest).head?, c ≠ '-' ∧ c ≠ '+' := by
  cases h with
  | whole hrow hne => exact hrow.head_ne_sign hne _
  | point hrow hne _ =>
    rw [List.append_assoc]
    exact hrow.head_ne_sign hne _
  | leadingPoint _ _ => simp

/-- Reading gives the sign and the size of the number that a text writes. -/
theorem read_iff {negative : Bool} {q : ℚ} :
    (∃ n, read? cs = some n ∧ n.negative = negative ∧ n.size = q) ↔ Writes cs negative q := by
  constructor
  · rintro ⟨n, h, rfl, rfl⟩
    obtain ⟨sign, hcs, hsign⟩ := writesSign_spanSign cs
    simp only [read?] at h
    split_ifs at h with hnone
    obtain ⟨e, he, rfl⟩ := Option.map_eq_some_iff.mp h
    obtain ⟨mantissa, hrest, hmantissa⟩ := writesMantissa_spans _ hnone
    have hwrites := Writes.mk hsign hmantissa (readExponent_eq_some_iff.mp he)
    rw [← hrest, ← hcs] at hwrites
    rw [size_mk]
    exact hwrites
  · intro h
    obtain @⟨sign, mantissa, exponent, _, whole, fraction, e, hsign, hmantissa, hexponent⟩ := h
    obtain ⟨rest, hwhole, hfraction, hsome⟩ := hmantissa.spans hexponent
    refine ⟨⟨negative, positional (whole ++ fraction), e - fraction.length⟩, ?_, rfl,
      size_mk negative whole fraction e⟩
    simp only [read?, spanSign_append hsign (hmantissa.head_ne_sign _), hwhole, hfraction,
      if_neg hsome, readExponent_eq_some_iff.mpr hexponent, Option.map_some]

end Reading

section Parsing

variable {token : String} {negative : Bool} {q : ℚ} {x : Binary64}

theorem Writes.nonneg {cs : List Char} (h : Writes cs negative q) : 0 ≤ q := by
  cases h
  positivity

theorem exists_parse_of_writes (h : Writes token.toList negative q) :
    ∃ x, parse? token = some x ∧ RoundsTo negative q x := by
  obtain ⟨n, hread, rfl, rfl⟩ := read_iff.mpr h
  exact ⟨n.toBinary64, by rw [parse?, hread, Option.map_some], roundsTo_ofDecimal _ _ _⟩

theorem exists_writes_of_parse (h : parse? token = some x) :
    ∃ negative q, Writes token.toList negative q ∧ RoundsTo negative q x := by
  obtain ⟨n, hread, rfl⟩ := Option.map_eq_some_iff.mp h
  exact ⟨n.negative, n.size, read_iff.mp ⟨n, hread, rfl, rfl⟩, roundsTo_ofDecimal _ _ _⟩

/-- A numeral has one value: what is rounded to that is what it is read as. -/
theorem parse_eq_some_iff (h : Writes token.toList negative q) :
    parse? token = some x ↔ RoundsTo negative q x := by
  obtain ⟨y, hparse, hround⟩ := exists_parse_of_writes h
  rw [hparse, Option.some.injEq]
  constructor
  · rintro rfl
    exact hround
  · exact hround.unique

/-- The texts that are read are the numerals, each as the double that its number is rounded to: an
infinity when it is too large, a zero when it is too small, and in any case with its sign. -/
theorem parse_iff_writes (token : String) :
    ((parse? token).isSome = true ↔ ∃ negative q, Writes token.toList negative q) ∧
    (∀ x, parse? token = some x ↔
      ∃ negative q, Writes token.toList negative q ∧ RoundsTo negative q x) ∧
    ∀ negative q, Writes token.toList negative q →
      (parse? token = some (.infinite negative) ↔ overflowBound ≤ q) ∧
      (parse? token = some (zero negative) ↔ q ≤ 1 / 2 ^ 1075) := by
  have hvalue (x : Binary64) : parse? token = some x ↔
      ∃ negative q, Writes token.toList negative q ∧ RoundsTo negative q x := by
    constructor
    · exact exists_writes_of_parse
    · rintro ⟨negative, q, h, hround⟩
      exact (parse_eq_some_iff h).mpr hround
  refine ⟨?_, hvalue, fun negative q h => ?_⟩
  · rw [Option.isSome_iff_exists]
    constructor
    · rintro ⟨x, hx⟩
      obtain ⟨negative, q, h, -⟩ := (hvalue x).mp hx
      exact ⟨negative, q, h⟩
    · rintro ⟨negative, q, h⟩
      obtain ⟨x, hx, -⟩ := exists_parse_of_writes h
      exact ⟨x, hx⟩
  · rw [parse_eq_some_iff h, parse_eq_some_iff h]
    exact ⟨⟨fun hround => hround.2, fun hsize => ⟨rfl, hsize⟩⟩, roundsTo_zero_iff h.nonneg⟩

/-- A negative power of ten past all doubles, its exponent in digits of two scripts. -/
theorem parse_of_large_power : Writes "-1E+٣10".toList true (10 ^ (310 : ℤ)) ∧
    parse? "-1E+٣10" = some (.infinite true) := by
  have hwrites : Writes "-1E+٣10".toList true (10 ^ (310 : ℤ)) :=
    read_iff.mp ⟨⟨true, 1, 310⟩, by decide, rfl, by rw [size, Nat.cast_one, one_mul]⟩
  have hlarge : overflowBound ≤ 10 ^ (310 : ℤ) := by
    have hle := overflowBound_le one_ne_zero (le_refl (310 : ℤ))
    rwa [Nat.cast_one, one_mul] at hle
  exact ⟨hwrites, ((parse_iff_writes _).2.2 true _ hwrites).1.mpr hlarge⟩

end Parsing

end NotationCalculator.Numeral
