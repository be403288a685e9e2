import NotationCalculator.Binary64.Rounding
import NotationCalculator.Proofs.NearestEven
import Mathlib.Algebra.Order.Field.Power
import Mathlib.Order.Monotone.Basic

/-!
# The magnitudes of doubles

The finite magnitudes grow strictly with their ranks, by steps that are even within a binade. So
the rank that is nearest to a quotient of units can be told without searching for it, and what
`RoundsTo` asks of the double that a number is rounded to, compared with all other doubles, holds of
the one that is computed, and of no other.
-/
namespace NotationCalculator.Binary64

open Rounding

/-- The number that a finite magnitude is. -/
def magnitude (rank : ℕ) : ℚ := units rank / unitsPerOne

/-- Halfway between the largest double and the power of two that would come next. -/
def overflowBound : ℚ := 2 ^ 1024 - 2 ^ 970

/-- What a number of this sign and size is rounded to: an infinity from the overflow bound on, and
below it the nearest finite double, of two that are equally near the one with the even significand.
The sign is kept whatever the size. -/
def RoundsTo (negative : Bool) (size : ℚ) : Binary64 → Prop
  | .nan => False
  | .infinite sign => sign = negative ∧ overflowBound ≤ size
  | .finite sign rank => sign = negative ∧ size < overflowBound ∧
      (∀ other : Fin rankCount, |size - magnitude rank| ≤ |size - magnitude other|) ∧
      ∀ other : Fin rankCount, other ≠ rank → |size - magnitude other| = |size - magnitude rank| →
        Even (significand rank)

theorem unitsPerOne_eq : unitsPerOne = 2 ^ 1074 := by decide +kernel

theorem unitsPerOne_pos : 0 < unitsPerOne := by decide +kernel

theorem cast_unitsPerOne_pos : (0 : ℚ) < unitsPerOne := by exact_mod_cast unitsPerOne_pos

theorem cast_unitsPerOne : (unitsPerOne : ℚ) = 2 ^ 1074 := by
  rw [unitsPerOne_eq, Nat.cast_pow, Nat.cast_ofNat]

/-- The ranks of a binade, the next power of two among them. In the lowest one the significand has
no least value. -/
theorem units_binade {e s : ℕ} (hs : s ≤ 2 ^ 53) (he : e = 0 ∨ 2 ^ 52 ≤ s) :
    units (e * 2 ^ 52 + s) = s * 2 ^ e := by
  rcases hs.lt_or_eq with hless | rfl
  · have hexponent : ulpExponent (e * 2 ^ 52 + s) = e := by
      simp only [ulpExponent, Nat.pow_eq]
      omega
    have hsignificand : significand (e * 2 ^ 52 + s) = s := by
      simp only [significand, hexponent, Nat.pow_eq]
      omega
    rw [units, hsignificand, hexponent, Nat.pow_eq]
  · have hexponent : ulpExponent (e * 2 ^ 52 + 2 ^ 53) = e + 1 := by
      simp only [ulpExponent, Nat.pow_eq]
      omega
    have hsignificand : significand (e * 2 ^ 52 + 2 ^ 53) = 2 ^ 52 := by
      simp only [significand, hexponent, Nat.pow_eq]
      omega
    rw [units, hsignificand, hexponent, Nat.pow_eq, pow_succ]
    ring

theorem exists_binade (rank : ℕ) :
    ∃ e s, rank = e * 2 ^ 52 + s ∧ s < 2 ^ 53 ∧ (e = 0 ∨ 2 ^ 52 ≤ s) := by
  refine ⟨ulpExponent rank, significand rank, ?_⟩
  simp only [significand, ulpExponent, Nat.pow_eq]
  omega

theorem even_significand_iff {rank : ℕ} : Even (significand rank) ↔ Even rank := by
  simp only [significand, ulpExponent, Nat.pow_eq, Nat.even_iff]
  omega

theorem units_strictMono : StrictMono units := by
  refine strictMono_nat_of_lt_succ fun rank => ?_
  obtain ⟨e, s, rfl, hs, he⟩ := exists_binade rank
  have hnext : e * 2 ^ 52 + s + 1 = e * 2 ^ 52 + (s + 1) := by omega
  rw [hnext, units_binade hs.le he, units_binade hs (by omega)]
  exact Nat.mul_lt_mul_of_pos_right (by omega) (Nat.two_pow_pos e)

theorem magnitude_strictMono : StrictMono magnitude := by
  intro j k hjk
  have hunits : (units j : ℚ) < units k := by exact_mod_cast units_strictMono hjk
  exact div_lt_div_of_pos_right hunits cast_unitsPerOne_pos

theorem magnitude_nonneg (rank : ℕ) : 0 ≤ magnitude rank := by
  rw [magnitude]
  positivity

@[simp] theorem magnitude_zero : magnitude 0 = 0 := by
  rw [magnitude, units_zero, Nat.cast_zero, zero_div]

/-- The exact value of a finite double has its sign and its magnitude. -/
theorem toRat_finite (negative : Bool) (rank : Fin rankCount) :
    toRat? (.finite negative rank) =
      some (if negative then -magnitude rank else magnitude rank) := by
  rw [toRat?, Rat.mkRat_eq_div, signedUnits]
  cases negative with
  | false => rw [if_neg Bool.false_ne_true, if_neg Bool.false_ne_true, Int.cast_natCast, magnitude]
  | true => rw [if_pos rfl, if_pos rfl, Int.cast_neg, Int.cast_natCast, neg_div, magnitude]

/-- The whole units of a quotient, cut to 53 binary digits, are a significand of its binade. -/
theorem quotient_binade (n d : ℕ) :
    n / (d * 2 ^ ((n / d).log2 - 52)) < 2 ^ 53 ∧
      ((n / d).log2 - 52 = 0 ∨ 2 ^ 52 ≤ n / (d * 2 ^ ((n / d).log2 - 52))) := by
  rw [← Nat.div_div_eq_div_mul]
  constructor
  · rw [Nat.div_lt_iff_lt_mul (Nat.two_pow_pos _), ← pow_add]
    exact Nat.lt_log2_self.trans_le (Nat.pow_le_pow_right (by decide) (by omega))
  · rcases Nat.eq_zero_or_pos ((n / d).log2 - 52) with hzero | hpos
    · exact .inl hzero
    · have hne : n / d ≠ 0 := by
        intro hnone
        simp [hnone] at hpos
      refine .inr ((Nat.le_div_iff_mul_le (Nat.two_pow_pos _)).mpr ?_)
      rw [← pow_add, show 52 + ((n / d).log2 - 52) = (n / d).log2 by omega]
      exact Nat.log2_self_le hne

theorem nearestEven_nearestRank (n : ℕ) {d : ℕ} (hd : 0 < d) :
    NearestEven magnitude (n / d / unitsPerOne) (nearestRank n d) := by
  obtain ⟨hless, hlowest⟩ := quotient_binade n d
  rw [nearestRank]
  simp only [Nat.pow_eq]
  generalize (n / d).log2 - 52 = e at hless hlowest ⊢
  have hpos : (0 : ℚ) < d := by exact_mod_cast hd
  have hone := cast_unitsPerOne_pos
  have hsize : (n : ℚ) / d / unitsPerOne = n / (d * 2 ^ e : ℕ) * (2 ^ e / unitsPerOne) := by
    push_cast
    field_simp
  rw [hsize]
  refine nearestEven_roundQuotient magnitude_strictMono (by positivity)
    (div_pos (by positivity) hone) ?_ ?_ ?_
  · exact Nat.even_iff.mpr (by omega)
  · rw [magnitude, units_binade hless.le hlowest]
    push_cast
    ring
  · rw [magnitude, Nat.add_assoc, units_binade hless (by omega)]
    push_cast
    ring

theorem units_rankCount : units rankCount = 2 ^ 2098 := by decide +kernel

theorem units_last : units (rankCount - 1) + 2 ^ 2045 = 2 ^ 2098 := by decide +kernel

theorem magnitude_rankCount : magnitude rankCount = 2 ^ 1024 := by
  have hunits : (units rankCount : ℚ) = 2 ^ 2098 := by
    rw [units_rankCount, Nat.cast_pow, Nat.cast_ofNat]
  rw [magnitude, hunits, cast_unitsPerOne, div_eq_iff (by positivity), ← pow_add]

theorem magnitude_last : magnitude (rankCount - 1) = 2 ^ 1024 - 2 ^ 971 := by
  have hunits := congrArg (Nat.cast : ℕ → ℚ) units_last
  rw [Nat.cast_add, Nat.cast_pow, Nat.cast_pow, Nat.cast_ofNat] at hunits
  rw [magnitude, eq_sub_of_add_eq hunits, cast_unitsPerOne, div_eq_iff (by positivity), sub_mul,
    ← pow_add, ← pow_add]

theorem magnitude_last_lt : magnitude (rankCount - 1) < overflowBound := by
  rw [magnitude_last, overflowBound]
  exact sub_lt_sub_left (pow_lt_pow_right₀ (by norm_num) (by norm_num)) _

/-- The bound is as far from the last rank as from the first one past it. -/
theorem overflowBound_sub : overflowBound - magnitude (rankCount - 1) =
    magnitude rankCount - overflowBound := by
  have hdouble : (2 : ℚ) ^ 971 = 2 * 2 ^ 970 := pow_succ' 2 970
  rw [magnitude_rankCount, magnitude_last, overflowBound, hdouble, sub_sub_sub_cancel_left,
    sub_sub_cancel, two_mul, add_sub_cancel_right]

/-- Below the bound the last rank is nearer than all that come after it. -/
theorem last_nearer {size : ℚ} {j : ℕ} (hsize : size < overflowBound) (hj : rankCount ≤ j) :
    |size - magnitude (rankCount - 1)| < |size - magnitude j| := by
  have hmiddle := overflowBound_sub
  have hpast : magnitude rankCount ≤ magnitude j := magnitude_strictMono.monotone hj
  have hlast : rankCount - 1 < rankCount := by decide
  have hless : magnitude (rankCount - 1) < magnitude j :=
    magnitude_strictMono (hlast.trans_le hj)
  rw [← not_le, halfway_le_iff hless]
  linarith

/-- A number at the bound is not rounded to the last rank, which is odd. -/
theorem rankCount_le_iff {size : ℚ} {rank : ℕ} (h : NearestEven magnitude size rank) :
    rankCount ≤ rank ↔ overflowBound ≤ size := by
  constructor
  · intro hrank
    by_contra hless
    exact absurd (h.le (rankCount - 1)) (not_le.mpr (last_nearer (not_le.mp hless) hrank))
  · intro hsize
    by_contra hrank
    have hmiddle := overflowBound_sub
    have hbelow : magnitude rank ≤ magnitude (rankCount - 1) :=
      magnitude_strictMono.monotone (by omega)
    have hless : magnitude rank < magnitude rankCount := magnitude_strictMono (not_le.mp hrank)
    have hle : 2 * size ≤ magnitude rank + magnitude rankCount :=
      (le_halfway_iff hless).mp (h.le rankCount)
    have hlast : magnitude rank = magnitude (rankCount - 1) := by linarith
    have htie : |size - magnitude rankCount| = |size - magnitude rank| :=
      le_antisymm ((halfway_le_iff hless).mpr (by linarith)) (h.le rankCount)
    have heven : Even rank := h.even (not_le.mp hrank).ne' htie
    rw [magnitude_strictMono.injective hlast] at heven
    exact absurd heven (by decide)

section RoundsTo

variable {negative sign : Bool} {size : ℚ} {x y : Binary64}

theorem roundsTo_ofRank (negative : Bool) {rank : ℕ} (h : NearestEven magnitude size rank) :
    RoundsTo negative size (ofRank negative rank) := by
  unfold ofRank
  split
  · next hrank =>
    refine ⟨rfl, ?_, fun other => h.le other, fun other hne heq => ?_⟩
    · exact not_le.mp ((rankCount_le_iff h).not.mp (not_le.mpr hrank))
    · have hother : (other : ℕ) ≠ rank := fun hsame => hne (Fin.ext hsame)
      exact even_significand_iff.mpr (h.even hother heq)
  · next hrank => exact ⟨rfl, (rankCount_le_iff h).mp (not_lt.mp hrank)⟩

theorem roundsTo_ofUnits (negative : Bool) (n : ℕ) {d : ℕ} (hd : 0 < d) :
    RoundsTo negative (n / d / unitsPerOne) (ofUnits negative n d) :=
  roundsTo_ofRank negative (nearestEven_nearestRank n hd)

theorem roundsTo_ofInt (i : ℤ) : RoundsTo (i < 0) |i| (ofInt i) := by
  have hround := roundsTo_ofUnits (i < 0) (i.natAbs * unitsPerOne) Nat.one_pos
  rw [Nat.cast_mul, Nat.cast_one, div_one, mul_div_cancel_right₀ _ cast_unitsPerOne_pos.ne',
    Nat.cast_natAbs] at hround
  rw [← Int.cast_abs]
  exact hround

/-- The nearest of the doubles would be nearest too if there were no largest one. -/
theorem RoundsTo.nearestEven {rank : Fin rankCount}
    (h : RoundsTo negative size (.finite sign rank)) : NearestEven magnitude size rank := by
  obtain ⟨-, hsize, hle, heven⟩ := h
  have hlast (j : ℕ) (hj : rankCount ≤ j) : |size - magnitude rank| < |size - magnitude j| :=
    (hle ⟨rankCount - 1, by decide⟩).trans_lt (last_nearer hsize hj)
  constructor
  · intro j
    rcases Nat.lt_or_ge j rankCount with hj | hj
    · exact hle ⟨j, hj⟩
    · exact (hlast j hj).le
  · intro j hne heq
    rcases Nat.lt_or_ge j rankCount with hj | hj
    · refine even_significand_iff.mp (heven ⟨j, hj⟩ (fun hsame => hne ?_) heq)
      exact congrArg Fin.val hsame
    · exact absurd heq (hlast j hj).ne'

/-- A number of a sign and size is rounded to one double only. -/
theorem RoundsTo.unique (hx : RoundsTo negative size x) (hy : RoundsTo negative size y) :
    x = y := by
  cases x with
  | nan => exact hx.elim
  | infinite s =>
    cases y with
    | nan => exact hy.elim
    | infinite t => rw [hx.1, hy.1]
    | finite t b => exact absurd hx.2 (not_le.mpr hy.2.1)
  | finite s a =>
    cases y with
    | nan => exact hy.elim
    | infinite t => exact absurd hy.2 (not_le.mpr hx.2.1)
    | finite t b =>
      have hrank : (a : ℕ) = b := hx.nearestEven.unique magnitude_strictMono hy.nearestEven
      rw [hx.1, hy.1, Fin.ext hrank]

theorem magnitude_one : magnitude 1 = 1 / 2 ^ 1074 := by
  have hone : units 1 = 1 := by decide
  rw [magnitude, hone, cast_unitsPerOne, Nat.cast_one]

/-- What is rounded to zero: all that is at most half of the least positive double. -/
theorem roundsTo_zero_iff (hsize : 0 ≤ size) :
    RoundsTo negative size (zero negative) ↔ size ≤ 1 / 2 ^ 1075 := by
  have hhalf : (1 : ℚ) / 2 ^ 1075 = magnitude 1 / 2 := by
    rw [magnitude_one, div_div, ← pow_succ]
  rw [hhalf]
  constructor
  · intro h
    rw [zero_eq] at h
    have hle : 2 * size ≤ magnitude 0 + magnitude 1 :=
      (le_halfway_iff (magnitude_strictMono Nat.one_pos)).mp (h.nearestEven.le 1)
    rw [magnitude_zero] at hle
    linarith
  · intro h
    have hzero : NearestEven magnitude size 0 := by
      refine nearestEven_lower magnitude_strictMono (by rwa [magnitude_zero]) ?_
      rw [magnitude_zero, zero_add]
      rcases h.lt_or_eq with hless | htie
      · exact .inl (by linarith)
      · exact .inr ⟨by linarith, .zero⟩
    exact roundsTo_ofRank negative hzero

/-- From `10 ^ 310` on a number is past all doubles. -/
theorem overflowBound_le {mantissa : ℕ} {exponent : ℤ} (hmantissa : mantissa ≠ 0)
    (hexponent : 310 ≤ exponent) : overflowBound ≤ mantissa * 10 ^ exponent := by
  have hone : (1 : ℚ) ≤ mantissa := by exact_mod_cast Nat.one_le_iff_ne_zero.mpr hmantissa
  have hbases : 2 ^ 1024 ≤ 10 ^ 310 := by decide +kernel
  have hcast : ((2 ^ 1024 : ℕ) : ℚ) ≤ (10 ^ 310 : ℕ) := Nat.cast_le.mpr hbases
  rw [Nat.cast_pow, Nat.cast_pow, Nat.cast_ofNat, Nat.cast_ofNat] at hcast
  have hpower : (10 : ℚ) ^ (310 : ℤ) ≤ 10 ^ exponent := zpow_le_zpow_right₀ (by norm_num) hexponent
  calc overflowBound ≤ 2 ^ 1024 := sub_le_self _ (by positivity)
    _ ≤ 10 ^ 310 := hcast
    _ ≤ 10 ^ exponent := hpower
    _ ≤ mantissa * 10 ^ exponent := le_mul_of_one_le_left (by positivity) hone

/-- A mantissa has no more decimal than binary digits, and below `10 ^ (-330)` a number is nearest
to zero. -/
theorem le_half_least {mantissa : ℕ} {exponent : ℤ}
    (h : exponent + mantissa.log2 + 1 ≤ -330) : (mantissa : ℚ) * 10 ^ exponent ≤ 1 / 2 ^ 1075 := by
  have hdigits : (mantissa : ℚ) ≤ 10 ^ (mantissa.log2 + 1) := by
    have hless : mantissa < 2 ^ (mantissa.log2 + 1) := Nat.lt_log2_self
    exact_mod_cast hless.le.trans (Nat.pow_le_pow_left (by decide) _)
  have hbases : 2 ^ 1075 ≤ 10 ^ 330 := by decide +kernel
  have hcast : ((2 ^ 1075 : ℕ) : ℚ) ≤ (10 ^ 330 : ℕ) := Nat.cast_le.mpr hbases
  rw [Nat.cast_pow, Nat.cast_pow, Nat.cast_ofNat, Nat.cast_ofNat] at hcast
  calc (mantissa : ℚ) * 10 ^ exponent
      ≤ 10 ^ (mantissa.log2 + 1) * 10 ^ exponent :=
        mul_le_mul_of_nonneg_right hdigits (by positivity)
    _ = 10 ^ ((mantissa.log2 + 1 : ℕ) + exponent) := by
        rw [zpow_add₀ (by norm_num), zpow_natCast]
    _ ≤ 10 ^ (-330 : ℤ) := zpow_le_zpow_right₀ (by norm_num) (by omega)
    _ = 1 / 10 ^ 330 := by rw [zpow_neg, one_div]; rfl
    _ ≤ 1 / 2 ^ 1075 := one_div_le_one_div_of_le (by positivity) hcast

/-- A decimal is rounded once, and where its power of ten is not computed, the answer is what it
would be. -/
theorem roundsTo_ofDecimal (negative : Bool) (mantissa : ℕ) (exponent : ℤ) :
    RoundsTo negative (mantissa * 10 ^ exponent) (ofDecimal negative mantissa exponent) := by
  unfold ofDecimal
  split_ifs with hzero hlarge hsmall hwhole
  · rw [hzero, Nat.cast_zero, zero_mul]
    exact (roundsTo_zero_iff le_rfl).mpr (by positivity)
  · exact ⟨rfl, overflowBound_le hzero hlarge⟩
  · exact (roundsTo_zero_iff (by positivity)).mpr (le_half_least hsmall)
  · have hround := roundsTo_ofUnits negative (mantissa * Nat.pow 10 exponent.toNat * unitsPerOne)
      Nat.one_pos
    lift exponent to ℕ using hwhole
    rw [Int.toNat_natCast, Nat.pow_eq] at hround ⊢
    push_cast at hround
    rw [div_one, mul_div_cancel_right₀ _ cast_unitsPerOne_pos.ne'] at hround
    rwa [zpow_natCast]
  · obtain ⟨k, rfl⟩ : ∃ k : ℕ, exponent = -k := ⟨(-exponent).toNat, by omega⟩
    have hround := roundsTo_ofUnits negative (mantissa * unitsPerOne)
      (Nat.pow_pos (n := k) (show 0 < 10 by decide))
    rw [Int.neg_neg, Int.toNat_natCast, Nat.pow_eq]
    push_cast at hround
    rw [div_right_comm, mul_div_cancel_right₀ _ cast_unitsPerOne_pos.ne'] at hround
    rwa [zpow_neg, zpow_natCast, ← div_eq_mul_inv]

end RoundsTo

end NotationCalculator.Binary64
