import NotationCalculator.Proofs.FixedPoint

/-!
# Printed numbers are numerals

The text of a finite double is a numeral, and so it is read back as a double. That one may differ
from the first, but it is no farther away from the printed decimal, and therefore it is printed by
the same text. With as many places as the least positive double has, nothing is lost at all.
-/
namespace NotationCalculator

open Rounding Numeral Text

theorem writesDigits_map_digitChar {digits : List ℕ} (h : ∀ d ∈ digits, d < 10) :
    WritesDigits (digits.map Nat.digitChar) digits := by
  have hdigit : ∀ d < 10, digitValue? (Nat.digitChar d) = some d := by decide
  rw [WritesDigits, List.forall₂_map_left_iff, List.forall₂_same]
  exact fun d hd => hdigit d (h d hd)

/-- A decimal is a numeral without an exponent. -/
theorem Decimal.writes (decimal : Decimal) :
    Writes decimal.chars decimal.negative decimal.size := by
  have hwhole : WritesDigits (decimal.whole.map Nat.digitChar) decimal.whole :=
    writesDigits_map_digitChar fun d hd => decimal.digit_lt d (List.mem_append_left _ hd)
  have hplaces : WritesDigits (decimal.places.map Nat.digitChar) decimal.places :=
    writesDigits_map_digitChar fun d hd => decimal.digit_lt d (List.mem_append_right _ hd)
  have hsign : WritesSign (if decimal.negative then ['-'] else []) decimal.negative := by
    cases decimal.negative with
    | false => exact .none
    | true => exact .minus
  have hmantissa : WritesMantissa (decimal.whole.map Nat.digitChar ++
      if decimal.places = [] then [] else '.' :: decimal.places.map Nat.digitChar)
      decimal.whole decimal.places := by
    split_ifs with hnone
    · rw [List.append_nil, hnone]
      exact .whole hwhole decimal.whole_ne_nil
    · exact .point hwhole decimal.whole_ne_nil hplaces
  have hwrites := Writes.mk hsign hmantissa .none
  rwa [List.append_nil, zpow_zero, mul_one] at hwrites

/-- Its text is read, and as the double that it is rounded to. -/
theorem Decimal.exists_parse (decimal : Decimal) :
    ∃ x, parse? (String.ofList decimal.chars) = some x ∧
      Binary64.RoundsTo decimal.negative decimal.size x := by
  refine exists_parse_of_writes ?_
  rw [String.toList_ofList]
  exact decimal.writes

namespace Binary64

variable {negative : Bool} {rank : Fin rankCount} {places : ℕ}

/-- The largest double is an integer. -/
theorem exists_magnitude_last : ∃ n : ℕ, magnitude (rankCount - 1) = n := by
  have hle : 2 ^ 971 ≤ 2 ^ 1024 := by decide +kernel
  refine ⟨2 ^ 1024 - 2 ^ 971, ?_⟩
  rw [magnitude_last, Nat.cast_sub hle, Nat.cast_pow, Nat.cast_pow, Nat.cast_ofNat]

/-- No double is printed as a number past the largest one, since that is a multiple of the last
place itself. -/
theorem lastPlaces_lt_overflowBound (rank : Fin rankCount) (places : ℕ) :
    lastPlaces rank places * (1 / 10 ^ places : ℚ) < overflowBound := by
  have hstep : (0 : ℚ) < 1 / 10 ^ places := by positivity
  obtain ⟨n, hn⟩ := exists_magnitude_last
  have hlast : magnitude (rankCount - 1) = (n * 10 ^ places : ℕ) * (1 / 10 ^ places) := by
    rw [hn]
    push_cast
    field_simp
  have hrank : magnitude rank ≤ magnitude (rankCount - 1) :=
    magnitude_strictMono.monotone (by omega)
  have hle : lastPlaces rank places ≤ n * 10 ^ places :=
    (nearestEven_lastPlaces rank places).le_of_le (strictMono_multiples hstep)
      (hrank.trans_eq hlast)
  calc lastPlaces rank places * (1 / 10 ^ places : ℚ)
      ≤ (n * 10 ^ places : ℕ) * (1 / 10 ^ places) :=
        mul_le_mul_of_nonneg_right (by exact_mod_cast hle) hstep.le
    _ = magnitude (rankCount - 1) := hlast.symm
    _ < overflowBound := magnitude_last_lt

/-- With 1074 places or more a double is printed exactly. -/
theorem lastPlaces_exact (rank : ℕ) (hplaces : 1074 ≤ places) :
    lastPlaces rank places * (1 / 10 ^ places : ℚ) = magnitude rank := by
  have hstep : (0 : ℚ) < 1 / 10 ^ places := by positivity
  -- for any number of binary places, so that no power is computed
  have hmultiple (n k : ℕ) (hk : k ≤ places) :
      (n : ℚ) / 2 ^ k = (n * 5 ^ k * 10 ^ (places - k) : ℕ) * (1 / 10 ^ places) := by
    obtain ⟨j, rfl⟩ := Nat.exists_eq_add_of_le hk
    have hten : (10 : ℚ) ^ k = 2 ^ k * 5 ^ k := by
      rw [← mul_pow]
      norm_num
    rw [Nat.add_sub_cancel_left, pow_add, hten]
    push_cast
    field_simp
  have hrank := hmultiple (units rank) 1074 hplaces
  rw [← cast_unitsPerOne, ← magnitude] at hrank
  have hnearest := nearestEven_lastPlaces rank places
  rw [hrank] at hnearest
  rw [hrank, hnearest.eq_of_grid (strictMono_multiples hstep)]

/-- The double that the printed decimal is rounded to is at least as near to it as the one that was
printed, and is printed by the same count of last places. -/
theorem lastPlaces_of_roundsTo {sign : Bool} {other : Fin rankCount}
    (h : RoundsTo negative (lastPlaces rank places * (1 / 10 ^ places)) (.finite sign other)) :
    lastPlaces other places = lastPlaces rank places := by
  have hstep : (0 : ℚ) < 1 / 10 ^ places := by positivity
  have hcloser := h.nearestEven.le rank
  rw [abs_sub_comm, abs_sub_comm _ (magnitude rank)] at hcloser
  have hrank := (nearestEven_lastPlaces rank places).of_closer hstep (magnitude_nonneg rank)
    (magnitude_nonneg other) hcloser
  exact (nearestEven_lastPlaces other places).unique (strictMono_multiples hstep) hrank

end Binary64

/-- The text of a finite double is read as a double that has the same text, and with at least 1074
places as the double itself, whose sign is kept also when it is printed as a zero. -/
theorem Settings.exists_parse_render (settings : Settings) (h : settings.precision < 2 ^ 31)
    (negative : Bool) (rank : Fin rankCount) :
    ∃ text x, settings.render (.finite negative rank) = .ok text ∧
      Numeral.parse? text = some x ∧ settings.render x = .ok text ∧
      (1074 ≤ settings.precision → x = .finite negative rank) := by
  obtain ⟨x, hparse, hround⟩ := (Decimal.ofMultiple negative
    (Binary64.lastPlaces rank settings.precision) settings.precision).exists_parse
  rw [Decimal.negative_ofMultiple, Decimal.size_ofMultiple] at hround
  refine ⟨_, x, render_finite h negative rank, hparse, ?_⟩
  cases x with
  | nan => exact hround.elim
  | infinite sign =>
    exact absurd hround.2 (not_le.mpr (Binary64.lastPlaces_lt_overflowBound rank _))
  | finite sign other =>
    obtain rfl : sign = negative := hround.1
    refine ⟨?_, fun hplaces => ?_⟩
    · rw [render_finite h, Binary64.lastPlaces_of_roundsTo hround]
    · rw [Binary64.lastPlaces_exact rank hplaces] at hround
      have hrank := hround.nearestEven.eq_of_grid Binary64.magnitude_strictMono
      rw [Fin.ext hrank]

/-- The least positive double with a minus is read back from its 1074 places. -/
theorem Settings.exists_parse_render_of_least :
    1074 < 2 ^ 31 ∧ ∃ text,
      Settings.render ⟨.degrees, 1074⟩ (.finite true ⟨1, by decide⟩) = .ok text ∧
      Numeral.parse? text = some (.finite true ⟨1, by decide⟩) := by
  obtain ⟨text, x, hrender, hparse, -, hexact⟩ :=
    Settings.exists_parse_render ⟨.degrees, 1074⟩ (by decide) true ⟨1, by decide⟩
  rw [hexact le_rfl] at hparse
  exact ⟨by decide, text, hrender, hparse⟩

end NotationCalculator
