import NotationCalculator.Proofs.NumeralGrammar
import NotationCalculator.Proofs.Precision
import Mathlib.Data.Nat.Digits.Lemmas

/-!
# The decimal that is printed

A finite double is printed as a decimal with a given count of places. Of all multiples of the last
place it is the one nearest to the exact value of the double, and of two that are equally near the
one with the even last digit: however many digits stand in front of the point, and whether there are
more places than the value has digits or fewer.
-/
namespace NotationCalculator

open Rounding Numeral

/-- A decimal as it is written: with a sign, with at least one digit in front of the point but no
superfluous zero at its front, and with any digits behind it. -/
structure Decimal where
  negative : Bool
  whole : List ℕ
  places : List ℕ
  digit_lt : ∀ d ∈ whole ++ places, d < 10
  whole_ne_nil : whole ≠ []
  no_leading_zero : whole.head? = some 0 → whole = [0]

namespace Decimal

/-- The text, with no point when there are no places. -/
def chars (decimal : Decimal) : List Char :=
  (if decimal.negative then ['-'] else []) ++ (decimal.whole.map Nat.digitChar ++
    if decimal.places = [] then [] else '.' :: decimal.places.map Nat.digitChar)

/-- The number without its sign. -/
def size (decimal : Decimal) : ℚ :=
  rowValue decimal.whole + rowValue decimal.places / 10 ^ decimal.places.length

def toRat (decimal : Decimal) : ℚ := if decimal.negative then -decimal.size else decimal.size

def lastDigit (decimal : Decimal) : ℕ :=
  (decimal.whole ++ decimal.places).getLast
    (List.append_ne_nil_of_left_ne_nil decimal.whole_ne_nil _)

/-- No multiple of the last place is nearer to `x` than the decimal, and where another one is as
near, the last digit is even. -/
structure IsNearest (decimal : Decimal) (x : ℚ) : Prop where
  le (k : ℤ) : |x - decimal.toRat| ≤ |x - k / 10 ^ decimal.places.length|
  even {k : ℤ} : k / 10 ^ decimal.places.length ≠ decimal.toRat →
    |x - k / 10 ^ decimal.places.length| = |x - decimal.toRat| → Even decimal.lastDigit

end Decimal

section Rows

variable {n k : ℕ}

/-- The digits of a number; that of zero is a zero. -/
def digitRow (n : ℕ) : List ℕ := if n = 0 then [0] else (Nat.digits 10 n).reverse

theorem digitRow_of_ne_zero (hn : n ≠ 0) : digitRow n = (Nat.digits 10 n).reverse := if_neg hn

theorem digitRow_ne_nil (n : ℕ) : digitRow n ≠ [] := by
  by_cases hn : n = 0
  · simp [digitRow, hn]
  · rw [digitRow_of_ne_zero hn, ne_eq, List.reverse_eq_nil_iff]
    exact Nat.digits_ne_nil_iff_ne_zero.mpr hn

theorem lt_of_mem_digitRow {d : ℕ} (h : d ∈ digitRow n) : d < 10 := by
  by_cases hn : n = 0
  · rw [digitRow, if_pos hn, List.mem_singleton] at h
    omega
  · rw [digitRow_of_ne_zero hn, List.mem_reverse] at h
    exact Nat.digits_lt_base (by decide) h

theorem digitRow_of_head_zero (h : (digitRow n).head? = some 0) : digitRow n = [0] := by
  by_cases hn : n = 0
  · exact if_pos hn
  · rw [digitRow_of_ne_zero hn, List.head?_reverse] at h
    have hlast := Nat.getLast_digit_ne_zero 10 hn
    rw [List.getLast?_eq_some_getLast (Nat.digits_ne_nil_iff_ne_zero.mpr hn)] at h
    exact absurd (Option.some.inj h) hlast

theorem rowValue_digitRow (n : ℕ) : rowValue (digitRow n) = n := by
  by_cases hn : n = 0
  · simp [digitRow, hn, rowValue]
  · rw [digitRow_of_ne_zero hn, rowValue, List.reverse_reverse, Nat.ofDigits_digits]

/-- The row that text is made of. -/
theorem toDigits_eq_map_digitRow (n : ℕ) : Nat.toDigits 10 n = (digitRow n).map Nat.digitChar := by
  induction n using Nat.strong_induction_on with
  | h n ih =>
    by_cases hless : n < 10
    · rw [Nat.toDigits_of_lt_base hless]
      by_cases hn : n = 0
      · simp [digitRow, hn]
      · rw [digitRow_of_ne_zero hn, Nat.digits_of_lt 10 n hn hless]
        rfl
    · have hrest : n / 10 ≠ 0 := by omega
      rw [Nat.toDigits_of_base_le (by decide) (by omega), ih (n / 10) (by omega),
        digitRow_of_ne_zero hrest, digitRow_of_ne_zero (by omega),
        Nat.digits_def' (by decide) (show 0 < n by omega), List.reverse_cons, List.map_append]
      rfl

theorem length_digitRow (n : ℕ) : (digitRow n).length = (Nat.toDigits 10 n).length := by
  rw [toDigits_eq_map_digitRow, List.length_map]

theorem length_digitRow_le (hk : 0 < k) (h : n < 10 ^ k) : (digitRow n).length ≤ k := by
  rw [length_digitRow]
  exact (Nat.length_toDigits_le_iff (by decide) hk).mpr h

/-- The last places of a number, with zeros in front to make up their count. -/
def placeRow (k n : ℕ) : List ℕ := if k = 0 then [] else List.leftpad k 0 (digitRow (n % 10 ^ k))

theorem length_placeRow (k n : ℕ) : (placeRow k n).length = k := by
  rw [placeRow]
  split_ifs with hk
  · exact hk.symm
  · have hle := length_digitRow_le (Nat.pos_of_ne_zero hk) (Nat.mod_lt n (Nat.pow_pos (by decide)))
    rw [List.length_leftpad]
    exact max_eq_left hle

theorem rowValue_placeRow (k n : ℕ) : rowValue (placeRow k n) = n % 10 ^ k := by
  rw [placeRow]
  split_ifs with hk
  · rw [hk, pow_zero, Nat.mod_one]
    rfl
  · have hzeros (j : ℕ) : rowValue (List.replicate j 0) = 0 := by
      rw [rowValue, List.reverse_replicate, Nat.ofDigits_replicate_zero]
    rw [List.leftpad, rowValue_append, hzeros, zero_mul, zero_add, rowValue_digitRow]

theorem lt_of_mem_placeRow {d : ℕ} (h : d ∈ placeRow k n) : d < 10 := by
  rw [placeRow] at h
  split_ifs at h
  · cases h
  · rw [List.leftpad, List.mem_append, List.mem_replicate] at h
    rcases h with ⟨-, rfl⟩ | h
    · decide
    · exact lt_of_mem_digitRow h

/-- A number is its last digit and ten times the rest. -/
theorem rowValue_mod_ten {digits : List ℕ} (hne : digits ≠ []) (hlt : ∀ d ∈ digits, d < 10) :
    rowValue digits % 10 = digits.getLast hne := by
  have hsplit := List.dropLast_append_getLast hne
  have hlast := hlt _ (List.getLast_mem hne)
  have hvalue := rowValue_append digits.dropLast [digits.getLast hne]
  rw [hsplit, List.length_singleton] at hvalue
  have hone : rowValue [digits.getLast hne] = digits.getLast hne := by simp [rowValue]
  omega

end Rows

namespace Decimal

/-- The decimal `± n / 10 ^ k` with `k` places. -/
def ofMultiple (negative : Bool) (n k : ℕ) : Decimal where
  negative := negative
  whole := digitRow (n / 10 ^ k)
  places := placeRow k n
  digit_lt _ h := (List.mem_append.mp h).elim lt_of_mem_digitRow lt_of_mem_placeRow
  whole_ne_nil := digitRow_ne_nil _
  no_leading_zero := digitRow_of_head_zero

variable (negative : Bool) (n k : ℕ)

@[simp] theorem negative_ofMultiple : (ofMultiple negative n k).negative = negative := rfl

@[simp] theorem length_places_ofMultiple : (ofMultiple negative n k).places.length = k :=
  length_placeRow k n

theorem size_ofMultiple : (ofMultiple negative n k).size = n * (1 / 10 ^ k) := by
  have hsplit : (n : ℚ) = 10 ^ k * (n / 10 ^ k : ℕ) + (n % 10 ^ k : ℕ) := by
    exact_mod_cast (Nat.div_add_mod n (10 ^ k)).symm
  rw [size, length_places_ofMultiple, ofMultiple, rowValue_digitRow, rowValue_placeRow, hsplit]
  field_simp

/-- The last digit is that of the count of last places. -/
theorem even_lastDigit_ofMultiple : Even (ofMultiple negative n k).lastDigit ↔ Even n := by
  have hvalue :
      rowValue ((ofMultiple negative n k).whole ++ (ofMultiple negative n k).places) = n := by
    rw [rowValue_append, length_places_ofMultiple, ofMultiple, rowValue_digitRow, rowValue_placeRow]
    exact Nat.div_add_mod' n (10 ^ k)
  have hlast := rowValue_mod_ten (List.append_ne_nil_of_left_ne_nil
    (ofMultiple negative n k).whole_ne_nil _) (ofMultiple negative n k).digit_lt
  rw [hvalue] at hlast
  rw [lastDigit, ← hlast, Nat.even_iff, Nat.even_iff]
  omega

theorem chars_ofMultiple : (ofMultiple negative n k).chars =
    (if negative then ['-'] else []) ++ Binary64.placedDigits n k := by
  have hnil : placeRow k n = [] ↔ k = 0 := by
    rw [← List.length_eq_zero_iff, length_placeRow]
  rw [chars, Binary64.placedDigits, ofMultiple]
  simp only [hnil, Nat.pow_eq, toDigits_eq_map_digitRow]
  split_ifs with hnegative hk hk
  all_goals
    simp [placeRow, hk, List.leftpad]

/-- What the size is rounded to, the signed number is rounded to with the same sign. -/
theorem isNearest_ofMultiple {x : ℚ} (hx : 0 ≤ x)
    (h : NearestEven (fun j => j * (1 / 10 ^ k)) x n) :
    (ofMultiple negative n k).IsNearest (if negative then -x else x) := by
  have hstep : (0 : ℚ) < 1 / 10 ^ k := by positivity
  obtain ⟨m, hm, hdistance⟩ : ∃ m : ℤ, (ofMultiple negative n k).toRat = m * (1 / 10 ^ k) ∧
      |(if negative then -x else x) - m * (1 / 10 ^ k)| = |x - n * (1 / 10 ^ k)| := by
    rw [toRat, size_ofMultiple, negative_ofMultiple]
    cases negative with
    | false => exact ⟨n, by simp, by simp⟩
    | true =>
      refine ⟨-n, by simp, ?_⟩
      rw [if_pos rfl, ← abs_neg]
      push_cast
      ring_nf
  have hnearest := (nearestEven_multiples_iff hstep hx).mp h
  have hhalf : |(if negative then -x else x) - m * (1 / 10 ^ k)| ≤ 1 / 10 ^ k / 2 :=
    hdistance.trans_le (hnearest.elim le_of_lt fun htie => htie.1.le)
  constructor
  · intro j
    rw [length_places_ofMultiple, hm, div_eq_mul_one_div (j : ℚ)]
    rcases eq_or_ne j m with rfl | hne
    · exact le_rfl
    · exact hhalf.trans (half_le_abs_sub_multiple hstep hne hhalf)
  · intro j hne heq
    rw [length_places_ofMultiple, hm, div_eq_mul_one_div (j : ℚ)] at hne heq
    have hapart : 1 / 10 ^ k / 2 ≤ |(if negative then -x else x) - j * (1 / 10 ^ k)| :=
      half_le_abs_sub_multiple hstep (fun hjm => hne (by rw [hjm])) hhalf
    rw [even_lastDigit_ofMultiple]
    rcases hnearest with hless | htie
    · exact absurd hapart (not_le.mpr (by rwa [heq, hdistance]))
    · exact htie.2

end Decimal

namespace Binary64

theorem nearestEven_lastPlaces (rank places : ℕ) :
    NearestEven (fun k => k * (1 / 10 ^ places)) (magnitude rank) (lastPlaces rank places) := by
  have hstep : (0 : ℚ) < 1 / 10 ^ places := by positivity
  have hsize : magnitude rank =
      (units rank * Nat.pow 10 places : ℕ) / unitsPerOne * (1 / 10 ^ places) := by
    rw [magnitude, Nat.pow_eq, Nat.cast_mul, Nat.cast_pow, Nat.cast_ofNat, mul_div_right_comm,
      mul_assoc, mul_one_div_cancel (by positivity), mul_one]
  have hround : NearestEven (fun k => k * (1 / 10 ^ places))
      ((units rank * Nat.pow 10 places : ℕ) / unitsPerOne * (1 / 10 ^ places))
      (0 + roundQuotient (units rank * Nat.pow 10 places) unitsPerOne) :=
    nearestEven_roundQuotient (strictMono_multiples hstep) unitsPerOne_pos hstep .zero
      (by rw [zero_add]) (by push_cast; ring)
  rwa [zero_add, ← hsize] at hround

theorem fixed_finite (places : ℕ) (negative : Bool) (rank : Fin rankCount) :
    fixed? places (.finite negative rank) =
      some (String.ofList (Decimal.ofMultiple negative (lastPlaces rank places) places).chars) := by
  rw [fixed?, Decimal.chars_ofMultiple]
  cases negative <;> rfl

end Binary64

namespace Settings

variable {settings : Settings}

theorem render_of_ne_nan (h : settings.precision < 2 ^ 31) {x : Binary64} {text : String}
    (hx : x ≠ .nan) (hfixed : x.fixed? settings.precision = some text) :
    settings.render x = .ok text := by
  have hwritable : settings.IsWritable := isWritable_of_lt (h.trans (by decide))
  rw [render, if_neg (mt Binary64.isNaN_iff.mp hx), writtenPrecision_of_isWritable hwritable,
    Nat.pow_eq, hfixed]
  exact if_pos h

theorem render_finite (h : settings.precision < 2 ^ 31) (negative : Bool) (rank : Fin rankCount) :
    settings.render (.finite negative rank) = .ok (String.ofList (Decimal.ofMultiple negative
      (Binary64.lastPlaces rank settings.precision) settings.precision).chars) :=
  render_of_ne_nan h Binary64.noConfusion (Binary64.fixed_finite _ _ _)

/-- Every finite double is printed as the decimal nearest to its exact value with the places of the
precision and with its sign, and an infinity as a word with its sign. The word for an error stands
for what is not a number alone. -/
theorem render_isNearest (settings : Settings) (h : settings.precision < 2 ^ 31) :
    (∀ negative rank, ∃ (decimal : Decimal) (x : ℚ),
      (Binary64.finite negative rank).toRat? = some x ∧
      settings.render (.finite negative rank) = .ok (String.ofList decimal.chars) ∧
      decimal.negative = negative ∧ decimal.places.length = settings.precision ∧
      decimal.IsNearest x) ∧
    (∀ negative, settings.render (.infinite negative) = .ok (if negative then "-inf" else "inf")) ∧
    ∀ x, settings.render x = .ok "ERROR" ↔ x = .nan := by
  refine ⟨fun negative rank => ?_, fun negative => ?_, fun x => ⟨fun hrender => ?_, ?_⟩⟩
  · exact ⟨_, _, Binary64.toRat_finite negative rank, render_finite h negative rank,
      Decimal.negative_ofMultiple _ _ _, Decimal.length_places_ofMultiple _ _ _,
      Decimal.isNearest_ofMultiple negative _ _ (Binary64.magnitude_nonneg rank)
        (Binary64.nearestEven_lastPlaces rank _)⟩
  · exact render_of_ne_nan h Binary64.noConfusion rfl
  · by_contra hx
    exact render_ne_error hx hrender rfl
  · rintro rfl
    exact render_nan settings

/-- Minus an eighth is equally near to two decimals of two places. -/
theorem render_of_eighth :
    2 < 2 ^ 31 ∧
      (∃ (decimal : Decimal) (x : ℚ),
        (Binary64.finite true ⟨0x3FC0000000000000, by decide⟩).toRat? = some x ∧
        render ⟨.radians, 2⟩ (.finite true ⟨0x3FC0000000000000, by decide⟩) =
          .ok (String.ofList decimal.chars) ∧
        decimal.negative = true ∧ decimal.places.length = 2 ∧ decimal.IsNearest x) ∧
      render ⟨.radians, 2⟩ (.infinite true) = .ok "-inf" ∧
      render ⟨.radians, 2⟩ .nan = .ok "ERROR" := by
  obtain ⟨hfinite, hinfinite, herror⟩ := render_isNearest ⟨.radians, 2⟩ (by decide)
  exact ⟨by decide, hfinite true _, hinfinite true, (herror _).mpr rfl⟩

/-- The even one of the two. -/
example : render ⟨.radians, 2⟩ (.finite true ⟨0x3FC0000000000000, by decide⟩) = .ok "-0.12" := by
  decide +kernel

end Settings

end NotationCalculator
