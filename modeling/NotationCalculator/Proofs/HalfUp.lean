import NotationCalculator.Proofs.Units
import NotationCalculator.Scope
import Mathlib.Data.Rat.Floor

/-!
# Rounding half up

A double with a fraction has few digits in front of it, so the integers on either side of it are
doubles, and so is the fraction itself wherever it is below one half. Of the operations that
rounding is made of, only the difference of a tiny negative number and its floor may be rounded, and
that difference is past one half whatever it is rounded to. What comes out is therefore the exact
integer, up to the bounds of the word.
-/
namespace NotationCalculator.Binary64

/-- The integer, or the nearer bound of the word when it lies beyond one. -/
def wordClamp (i : ℤ) : ℤ := max (-2 ^ 63) (min i (2 ^ 63))

section Constants

theorem hasUnits_one : HasUnits unitsPerOne one := by
  have hunits := hasUnits_ofUnits false (isMagnitude_mul_unitsPerOne (m := 1) (e := 0)
    (by decide) (by decide))
  rw [one, ofInt]
  generalize unitsPerOne = units at hunits ⊢
  simpa using hunits

theorem exists_half :
    ∃ rank : Fin rankCount, half = .finite false rank ∧ 2 * units rank = unitsPerOne :=
  ⟨⟨1022 * 2 ^ 52, by decide⟩, by decide +kernel, by decide +kernel⟩

theorem hasUnits_wordBound (negative : Bool) :
    HasUnits ((if negative then -2 ^ 63 else 2 ^ 63) * unitsPerOne) (wordBound negative) := by
  have hunits := hasUnits_ofUnits negative (isMagnitude_mul_unitsPerOne (m := 1) (e := 63)
    (by decide) (by decide))
  rw [wordBound]
  generalize unitsPerOne = units at hunits ⊢
  rw [one_mul] at hunits
  rw [ite_mul, neg_mul]
  exact_mod_cast hunits

end Constants

section Whole

variable {n : ℤ} {x : Binary64}

/-- A number of units is a number of ones, or else a one is a multiple of the last binary digit. -/
theorem exists_digits (hx : HasUnits n x) : (∃ i : ℤ, n = i * unitsPerOne) ∨
    ∃ (t : ℤ) (j e : ℕ), n = t * 2 ^ e ∧ (unitsPerOne : ℤ) = 2 ^ (j + 1) * 2 ^ e ∧
      |t| < 2 ^ 53 ∧ e ≤ 1073 := by
  obtain ⟨negative, rank, -, rfl⟩ := hx
  obtain ⟨e, s, hrank, hs, he⟩ := exists_binade rank
  obtain ⟨t, ht, hn⟩ : ∃ t : ℤ, |t| < 2 ^ 53 ∧ signedUnits negative rank = t * 2 ^ e := by
    have hunits : (units rank : ℤ) = s * 2 ^ e := by
      rw [hrank, units_binade hs.le he]
      push_cast
      rfl
    cases negative with
    | false => exact ⟨s, abs_lt.mpr ⟨by omega, by omega⟩, hunits⟩
    | true =>
      refine ⟨-s, abs_lt.mpr ⟨by omega, by omega⟩, ?_⟩
      rw [signedUnits, if_pos rfl, hunits, neg_mul]
  rcases le_or_gt 1074 e with hwhole | hfraction
  · obtain ⟨k, rfl⟩ := Nat.exists_eq_add_of_le hwhole
    have hone : unitsPerOne * 2 ^ k = 2 ^ (1074 + k) := by rw [unitsPerOne_eq, pow_add]
    have hcast : (unitsPerOne * 2 ^ k : ℤ) = 2 ^ (1074 + k) := by exact_mod_cast hone
    exact .inl ⟨t * 2 ^ k, by rw [hn, ← hcast]; ring⟩
  · obtain ⟨j, hj⟩ := Nat.exists_eq_add_of_lt hfraction
    have hsplit : 1074 = j + 1 + e := by omega
    have hone : unitsPerOne = 2 ^ (j + 1) * 2 ^ e := by
      rw [unitsPerOne_eq, ← pow_add, ← hsplit]
    exact .inr ⟨t, j, e, hn, by exact_mod_cast hone, ht, by omega⟩

/-- With a fraction behind them there are at most 52 binary digits. -/
theorem abs_whole_le (hx : HasUnits n x) (hn : ¬ ∃ i : ℤ, n = i * unitsPerOne) :
    |n / unitsPerOne| ≤ 2 ^ 52 := by
  obtain ⟨t, j, e, hte, hone, ht, -⟩ := (exists_digits hx).resolve_left hn
  have hpos : (0 : ℤ) < 2 ^ j := by positivity
  rw [hte, hone, Int.mul_ediv_mul_of_pos_left _ _ (by positivity), pow_succ]
  rw [abs_lt] at ht
  rw [abs_le]
  constructor
  · exact Int.le_ediv_of_mul_le (by positivity) (by nlinarith)
  · exact (Int.ediv_lt_of_lt_mul (by positivity) (by nlinarith)).le

/-- A remainder that is not past half of the divisor has no more digits than the dividend. -/
theorem emod_le_of_lt_half {t d b : ℤ} (ht : |t| < b) (hhalf : 2 * (t % d) < d) : t % d ≤ b := by
  rw [abs_lt] at ht
  rcases le_or_gt d (2 * b) with hsmall | hlarge
  · omega
  · rcases le_or_gt 0 t with hnonneg | hneg
    · rw [Int.emod_eq_of_lt hnonneg (by omega)]
      omega
    · rw [← Int.add_emod_right, Int.emod_eq_of_lt (by omega) (by omega)] at hhalf
      omega

/-- A fraction below one half has no more than 53 binary digits, whatever the sign in front of the
number is. -/
theorem isMagnitude_fraction (hx : HasUnits n x) (hhalf : 2 * (n % unitsPerOne) < unitsPerOne) :
    IsMagnitude (n % unitsPerOne).natAbs := by
  by_cases hn : ∃ i : ℤ, n = i * unitsPerOne
  · obtain ⟨i, rfl⟩ := hn
    rw [Int.mul_emod_left]
    exact ⟨⟨0, by decide⟩, units_zero⟩
  · obtain ⟨t, j, e, hte, hone, ht, he⟩ := (exists_digits hx).resolve_left hn
    have hpos : (0 : ℤ) < 2 ^ e := by positivity
    have hmod : n % unitsPerOne = t % 2 ^ (j + 1) * 2 ^ e := by
      rw [hte, hone, mul_comm t, mul_comm _ (2 ^ e), Int.mul_emod_mul_of_pos _ _ hpos, mul_comm]
    have hless : 2 * (t % 2 ^ (j + 1)) < 2 ^ (j + 1) := by
      rw [hmod, hone, ← mul_assoc] at hhalf
      exact lt_of_mul_lt_mul_right hhalf hpos.le
    have hdigits := emod_le_of_lt_half ht hless
    have hnonneg : 0 ≤ t % 2 ^ (j + 1) := Int.emod_nonneg _ (by positivity)
    rw [hmod, Int.natAbs_mul, Int.natAbs_pow]
    exact isMagnitude_mul_pow (by omega) (by omega)

theorem floor_finite (negative : Bool) (rank : Fin rankCount) :
    floor (.finite negative rank) =
      ofUnits negative (signedUnits negative rank / unitsPerOne * unitsPerOne).natAbs 1 := by
  rw [floor, Int.natAbs_mul, Int.natAbs_natCast]
  congr 2
  cases negative with
  | false =>
    rw [signedUnits, if_neg Bool.false_ne_true, ← Int.natCast_ediv, Int.natAbs_natCast]
    simp
  | true =>
    have hsign : (unitsPerOne : ℤ).sign = 1 := Int.sign_eq_one_of_pos units_pos
    have hdvd : (unitsPerOne : ℤ) ∣ units rank ↔ units rank % unitsPerOne = 0 := by
      rw [Int.natCast_dvd_natCast, Nat.dvd_iff_mod_eq_zero]
    rw [signedUnits, if_pos rfl, Int.neg_ediv, hsign, ← Int.natCast_ediv]
    simp only [hdvd, true_and]
    generalize units rank / unitsPerOne = whole
    split_ifs <;> omega

/-- The floor of a double is a double. -/
theorem isMagnitude_floor (hx : HasUnits n x) :
    IsMagnitude (n / unitsPerOne * unitsPerOne).natAbs := by
  by_cases hn : ∃ i : ℤ, n = i * unitsPerOne
  · obtain ⟨i, hi⟩ := hn
    rw [hi, Int.mul_ediv_cancel _ units_pos.ne', ← hi]
    obtain ⟨negative, rank, -, rfl⟩ := hx
    refine ⟨rank, ?_⟩
    rw [signedUnits]
    split_ifs <;> omega
  · exact isMagnitude_integer ((abs_whole_le hx hn).trans (by decide))

theorem hasUnits_floor (hx : HasUnits n x) :
    HasUnits (n / unitsPerOne * unitsPerOne) (floor x) ∧ (floor x = zero true ↔ x = zero true) := by
  have hbelow : n / unitsPerOne * unitsPerOne ≤ n := Int.ediv_mul_le n units_pos.ne'
  have habove : 0 ≤ n → 0 ≤ n / unitsPerOne * unitsPerOne := fun hn =>
    mul_nonneg (Int.ediv_nonneg hn units_pos.le) units_pos.le
  obtain ⟨k, hk⟩ := isMagnitude_floor hx
  obtain ⟨negative, rank, rfl, rfl⟩ := hx
  rw [floor_finite, ← hk, ofUnits_units]
  generalize signedUnits negative rank / unitsPerOne * unitsPerOne = below at *
  have hzero := units_eq_zero_iff rank
  have hzero' := units_eq_zero_iff k
  constructor
  · refine ⟨negative, k, rfl, ?_⟩
    rw [signedUnits] at hbelow habove ⊢
    split_ifs at hbelow habove ⊢ <;> omega
  · rw [zero_eq, finite.injEq, finite.injEq, Fin.ext_iff, Fin.ext_iff]
    refine and_congr_right fun hsign => ?_
    rw [signedUnits, if_pos hsign] at hbelow habove
    simp only
    omega

end Whole

section Rounding

variable {m n i : ℤ} {x y : Binary64}

/-- A difference below one half must be exact for this; a larger one is past one half whatever it is
rounded to. -/
theorem le_half_ofSum_iff (zeroSign : Bool) (hn : 0 ≤ n)
    (hexact : 2 * n < unitsPerOne → IsMagnitude n.natAbs) :
    le half (ofSum zeroSign n) = true ↔ unitsPerOne ≤ 2 * n := by
  obtain ⟨rank, hhalf, hdouble⟩ := exists_half
  rcases lt_or_ge (2 * n) unitsPerOne with hless | hge
  · have hunits : HasUnits (units rank) half := ⟨false, rank, hhalf, rfl⟩
    rw [le_iff_of_hasUnits hunits (hasUnits_ofSum zeroSign (hexact hless))]
    omega
  · refine iff_of_true ?_ hge
    have hpos := units_pos
    have hnonzero : n ≠ 0 := by omega
    have hsign : ¬ n < 0 := by omega
    rw [hhalf, ofSum, if_neg hnonzero, decide_eq_false hsign]
    exact le_ofUnits (by omega)

/-- The half-up integer is the floor, or the next one when the fraction is not below one half. -/
theorem floor_div_add_half (n : ℤ) {d : ℕ} (hd : 0 < d) :
    ⌊(n / d + 1 / 2 : ℚ)⌋ = if (d : ℤ) ≤ 2 * (n % d) then n / d + 1 else n / d := by
  have hpos : (0 : ℚ) < d := by exact_mod_cast hd
  have hdiv : (n : ℚ) = d * (n / d : ℤ) + (n % d : ℤ) := by
    exact_mod_cast (Int.mul_ediv_add_emod n d).symm
  have hnonneg : (0 : ℚ) ≤ (n % d : ℤ) := by exact_mod_cast Int.emod_nonneg n (by omega)
  have hless : ((n % d : ℤ) : ℚ) < d := by exact_mod_cast Int.emod_lt_of_pos n (by omega)
  rw [Int.floor_eq_iff, div_add_div _ _ hpos.ne' two_ne_zero, le_div_iff₀ (by positivity),
    div_lt_iff₀ (by positivity)]
  split_ifs with hhalf
  · have hcast : (d : ℚ) ≤ 2 * (n % d : ℤ) := by exact_mod_cast hhalf
    rw [Int.cast_add, Int.cast_one]
    constructor <;> linarith
  · have hcast : (2 * (n % d : ℤ) : ℚ) < d := by exact_mod_cast not_le.mp hhalf
    constructor <;> linarith

/-- The double before it is brought within the bounds. -/
theorem hasUnits_rounded (hx : HasUnits n x) :
    let rounded := if le half (sub x (floor x)) then add (floor x) one else floor x
    HasUnits (⌊(n / unitsPerOne + 1 / 2 : ℚ)⌋ * unitsPerOne) rounded ∧
      (rounded = zero true ↔ x = zero true) := by
  obtain ⟨hfloor, hzero⟩ := hasUnits_floor hx
  obtain ⟨zeroSign, hsub⟩ := sub_eq_ofSum hx hfloor
  have hmod : n - n / unitsPerOne * unitsPerOne = n % unitsPerOne := by
    rw [Int.emod_def, mul_comm]
  have hhalf := le_half_ofSum_iff zeroSign (Int.emod_nonneg n units_pos.ne')
    (isMagnitude_fraction hx)
  rw [hsub, hmod, floor_div_add_half n unitsPerOne_pos]
  simp only [hhalf]
  split_ifs with hup
  · have hfraction : ¬ ∃ i : ℤ, n = i * unitsPerOne := by
      rintro ⟨i, rfl⟩
      have hpos := units_pos
      rw [Int.mul_emod_left] at hup
      omega
    have hsum : IsMagnitude ((n / unitsPerOne + 1) * unitsPerOne).natAbs := by
      have hwhole := abs_le.mp (abs_whole_le hx hfraction)
      exact isMagnitude_integer (abs_le.mpr (by omega))
    have hnext : n / unitsPerOne * unitsPerOne + unitsPerOne =
        (n / unitsPerOne + 1) * unitsPerOne := (add_one_mul _ _).symm
    rw [add_eq_ofSum hfloor hasUnits_one units_pos, hnext]
    refine ⟨hasUnits_ofSum false hsum, iff_of_false (ofSum_ne_zero hsum) ?_⟩
    rintro rfl
    exact hfraction ⟨0, by rw [hx.eq (hasUnits_zero true), zero_mul]⟩
  · exact ⟨hfloor, hzero⟩

theorem hasUnits_clamp (hx : HasUnits (i * unitsPerOne) x) :
    HasUnits (wordClamp i * unitsPerOne) (clampToWord x) ∧
      (clampToWord x = zero true ↔ x = zero true) := by
  have hlow := hasUnits_wordBound true
  have hhigh := hasUnits_wordBound false
  rw [if_pos rfl] at hlow
  rw [if_neg Bool.false_ne_true] at hhigh
  rw [clampToWord, wordClamp]
  simp only [lt_iff_of_hasUnits hx hlow, lt_iff_of_hasUnits hhigh hx,
    Int.mul_lt_mul_right units_pos]
  split_ifs with hbelow habove
  · rw [max_eq_left (by omega)]
    exact ⟨hlow, iff_of_false (hlow.ne_zero (by decide)) (hx.ne_zero (by omega))⟩
  · rw [max_eq_right (by omega), min_eq_right habove.le]
    exact ⟨hhigh, iff_of_false (hhigh.ne_zero (by decide)) (hx.ne_zero (by omega))⟩
  · rw [max_eq_right (by omega), min_eq_left (by omega)]
    exact ⟨hx, Iff.rfl⟩

theorem roundHalfUp_of_ne_nan (hx : x ≠ .nan) : roundHalfUp x =
    clampToWord (if le half (sub x (floor x)) then add (floor x) one else floor x) := by
  rw [roundHalfUp, if_neg (isNaN_iff.not.mpr hx)]

theorem hasUnits_roundHalfUp (hx : HasUnits n x) :
    HasUnits (wordClamp ⌊(n / unitsPerOne + 1 / 2 : ℚ)⌋ * unitsPerOne) (roundHalfUp x) ∧
      (roundHalfUp x = zero true ↔ x = zero true) := by
  obtain ⟨hrounded, hzero⟩ := hasUnits_rounded hx
  obtain ⟨hclamp, hzero'⟩ := hasUnits_clamp hrounded
  have hnumber : x ≠ .nan := by
    obtain ⟨negative, rank, rfl, -⟩ := hx
    simp
  rw [roundHalfUp_of_ne_nan hnumber]
  exact ⟨hclamp, hzero'.trans hzero⟩

/-- An infinity is beyond the bound of its sign. -/
theorem roundHalfUp_infinite (negative : Bool) :
    roundHalfUp (.infinite negative) = wordBound negative := by
  have hdifference : sub (.infinite negative) (floor (.infinite negative)) = .nan := by
    cases negative <;> rfl
  have hfloor : floor (.infinite negative) = .infinite negative := rfl
  have hnot : ¬ le half .nan = true := by
    obtain ⟨middle, hhalf, -⟩ := exists_half
    rw [hhalf]
    exact Bool.false_ne_true
  rw [roundHalfUp_of_ne_nan (by simp), hdifference, if_neg hnot, hfloor, clampToWord,
    infinite_lt (hasUnits_wordBound true), lt_infinite (hasUnits_wordBound false)]
  cases negative <;> simp

/-- What comes out is an integer within the bounds, also of what is not a number. -/
theorem exists_integer (x : Binary64) :
    ∃ i : ℤ, |i| ≤ 2 ^ 63 ∧ HasUnits (i * unitsPerOne) (roundHalfUp x) := by
  cases x with
  | nan => exact ⟨0, by decide, by rw [zero_mul]; exact hasUnits_zero false⟩
  | infinite negative =>
    rw [roundHalfUp_infinite]
    exact ⟨_, by cases negative <;> decide, hasUnits_wordBound negative⟩
  | finite negative rank =>
    have hx : HasUnits (signedUnits negative rank) (.finite negative rank) := ⟨_, _, rfl, rfl⟩
    refine ⟨_, ?_, (hasUnits_roundHalfUp hx).1⟩
    rw [wordClamp, abs_le]
    omega

/-- Integers within the bounds are left as they are. -/
theorem roundHalfUp_of_integer (hi : |i| ≤ 2 ^ 63) (hx : HasUnits (i * unitsPerOne) x) :
    roundHalfUp x = x := by
  obtain ⟨hunits, hzero⟩ := hasUnits_roundHalfUp hx
  have hvalue : wordClamp ⌊((i * unitsPerOne : ℤ) / unitsPerOne + 1 / 2 : ℚ)⌋ = i := by
    rw [floor_div_add_half _ unitsPerOne_pos, Int.mul_emod_left,
      Int.mul_ediv_cancel _ units_pos.ne', if_neg (by have := units_pos; omega), wordClamp]
    rw [abs_le] at hi
    omega
  rw [hvalue] at hunits
  exact hunits.unique hx hzero

theorem wordClamp_mono {j : ℤ} (h : i ≤ j) : wordClamp i ≤ wordClamp j := by
  rw [wordClamp, wordClamp]
  omega

theorem roundHalfUp_mono (hxy : le x y = true) : le (roundHalfUp x) (roundHalfUp y) = true := by
  obtain ⟨i, hi, hx⟩ := exists_integer x
  obtain ⟨j, hj, hy⟩ := exists_integer y
  rw [le_iff_of_hasUnits hx hy]
  rw [abs_le] at hi hj
  cases x with
  | nan => cases hxy
  | infinite s =>
    cases s with
    | false =>
      obtain rfl := eq_infinite_of_le hxy
      exact (hx.eq hy).le
    | true =>
      rw [roundHalfUp_infinite] at hx
      rw [hx.eq (hasUnits_wordBound true)]
      exact mul_le_mul_of_nonneg_right hj.1 units_pos.le
  | finite s a =>
    cases y with
    | nan => cases hxy
    | infinite t =>
      cases t with
      | false =>
        rw [roundHalfUp_infinite] at hy
        rw [hy.eq (hasUnits_wordBound false)]
        exact mul_le_mul_of_nonneg_right hi.2 units_pos.le
      | true => cases eq_infinite_of_ge hxy
    | finite t b =>
      have ha : HasUnits (signedUnits s a) (.finite s a) := ⟨s, a, rfl, rfl⟩
      have hb : HasUnits (signedUnits t b) (.finite t b) := ⟨t, b, rfl, rfl⟩
      rw [le_iff_of_hasUnits ha hb] at hxy
      rw [hx.eq (hasUnits_roundHalfUp ha).1, hy.eq (hasUnits_roundHalfUp hb).1]
      refine mul_le_mul_of_nonneg_right (wordClamp_mono (Int.floor_mono ?_)) units_pos.le
      have hcast : (signedUnits s a : ℚ) ≤ signedUnits t b := by exact_mod_cast hxy
      exact add_le_add_left (div_le_div_of_nonneg_right hcast cast_unitsPerOne_pos.le) _

/-- A negative zero is left as it is, and does not come of anything else. -/
theorem roundHalfUp_eq_zero_iff (x : Binary64) : roundHalfUp x = zero true ↔ x = zero true := by
  cases x with
  | nan =>
    rw [roundHalfUp_nan, zero_eq, zero_eq]
    simp
  | infinite negative =>
    rw [roundHalfUp_infinite]
    refine iff_of_false ((hasUnits_wordBound negative).ne_zero ?_) ?_
    · cases negative <;> decide
    · rw [zero_eq]
      simp
  | finite negative rank => exact (hasUnits_roundHalfUp ⟨negative, rank, rfl, rfl⟩).2

end Rounding

/-- The standard operator gives the integer that is the floor of its operand and one half, exactly,
or the nearer bound of 64-bit words; of what is not a number it gives zero. A negative zero comes
only of itself. Thereby it keeps the order, and does nothing when it is applied again. -/
theorem roundHalfUp_isHalfUp (x y : Binary64) :
    (∀ unit last, Scope.applyUnary ⟨.standard, unit, last⟩ "~" x = .ok (roundHalfUp x)) ∧
    roundHalfUp .nan = zero false ∧
    (∀ negative, (roundHalfUp (.infinite negative)).toRat? =
      some (if negative then -2 ^ 63 else 2 ^ 63)) ∧
    (∀ q : ℚ, x.toRat? = some q → (roundHalfUp x).toRat? = some (wordClamp ⌊q + 1 / 2⌋ : ℚ)) ∧
    (roundHalfUp x = zero true ↔ x = zero true) ∧
    (le x y = true → le (roundHalfUp x) (roundHalfUp y) = true) ∧
    roundHalfUp (roundHalfUp x) = roundHalfUp x := by
  refine ⟨fun unit last => ?_, roundHalfUp_nan, fun negative => ?_, fun q hq => ?_,
    roundHalfUp_eq_zero_iff x, roundHalfUp_mono, ?_⟩
  · have hfind : OperatorTables.standard.unary.find? "~" =
        some (Operator.totalUnary roundHalfUp) := by
      rw [OperatorTables.standard_unary_find?]
      rfl
    rw [Scope.applyUnary, hfind]
    simp only [Operator.totalUnary, Scope.operandIn_of_not_mem (by decide : "~" ∉ _),
      Scope.resultIn_of_not_mem (by decide : "~" ∉ _), Except.map, id, Failure.settle_ok]
  · rw [roundHalfUp_infinite, (hasUnits_wordBound negative).toRat_integer]
    cases negative <;> rw [Option.some.injEq] <;> norm_cast
  · obtain ⟨n, hn, rfl⟩ := exists_hasUnits hq
    exact (hasUnits_roundHalfUp hn).1.toRat_integer
  · obtain ⟨i, hi, hunits⟩ := exists_integer x
    exact roundHalfUp_of_integer hi hunits

/-- The largest double below one half, whose sum with one half would be rounded up to one, and the
least negative one, whose difference to its floor is rounded to one. -/
theorem roundHalfUp_below_half :
    let x : Binary64 := .finite false ⟨1022 * 2 ^ 52 - 1, by decide⟩
    let least : Binary64 := .finite true ⟨1, by decide⟩
    x.toRat? = some ((2 ^ 53 - 1) / 2 ^ 54) ∧ (roundHalfUp x).toRat? = some 0 ∧
      sub least (floor least) = one ∧ roundHalfUp least = zero false ∧
      le least x = true ∧ le (roundHalfUp least) (roundHalfUp x) = true := by
  intro x least
  have hx : x.toRat? = some ((2 ^ 53 - 1) / 2 ^ 54) := by decide +kernel
  have hle : le least x = true := by decide
  have hfloor : ⌊((2 ^ 53 - 1) / 2 ^ 54 + 1 / 2 : ℚ)⌋ = 0 := by
    rw [Int.floor_eq_iff]
    norm_num
  obtain ⟨-, -, -, hvalue, -⟩ := roundHalfUp_isHalfUp x x
  obtain ⟨-, -, -, -, -, hmono, -⟩ := roundHalfUp_isHalfUp least x
  have hround := hvalue _ hx
  rw [hfloor] at hround
  exact ⟨hx, hround, by decide +kernel, by decide +kernel, hle, hmono hle⟩

end NotationCalculator.Binary64
