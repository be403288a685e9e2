import NotationCalculator.Binary64.Integral
import NotationCalculator.Proofs.Magnitudes
import Mathlib.Data.Nat.Factorial.Basic

/-!
# The factorial in a word

The product is taken from the argument downwards in a word that wraps around, so what stands in the
word on the way is no factorial. At the end it is, up to a multiple of the word's range: a product
that is zero remains so, and to stop at it changes nothing. Among any 66 factors in a row there are
64 factors of two, which bounds the multiplications whatever the argument is.
-/
namespace NotationCalculator.Binary64

open scoped Nat

/-- The signed word that a factorial is congruent to. -/
def wrappedFactorial (n : ℕ) : ℤ := Int.bmod n ! (2 ^ 64)

section Word

variable {n k : ℕ} {acc : BitVec 64}

/-- Each multiplication is by the greatest factor that is left. -/
theorem value_fallingProduct (n : ℕ) (acc : BitVec 64) :
    (fallingProduct n acc).value =
      acc * BitVec.ofNat 64 (n.descFactorial (fallingProduct n acc).multiplications) := by
  induction n using Nat.twoStepInduction generalizing acc with
  | zero => exact (BitVec.mul_one acc).symm
  | one => exact (BitVec.mul_one acc).symm
  | more n _ ih =>
    by_cases hzero : acc * BitVec.ofNat 64 (n + 2) = 0
    · rw [fallingProduct, if_pos hzero, Nat.descFactorial_one]
      exact hzero.symm
    · rw [fallingProduct, if_neg hzero, Nat.succ_descFactorial_succ, BitVec.ofNat_mul,
        ← BitVec.mul_assoc]
      exact ih _

/-- Each step takes one factor off the factorial that is still to be multiplied, and a product that
is zero takes off all of them. -/
theorem value_eq_factorial (n : ℕ) (acc : BitVec 64) :
    (fallingProduct n acc).value = acc * BitVec.ofNat 64 n ! := by
  induction n using Nat.twoStepInduction generalizing acc with
  | zero => exact (BitVec.mul_one acc).symm
  | one => exact (BitVec.mul_one acc).symm
  | more n _ ih =>
    rw [Nat.factorial_succ, BitVec.ofNat_mul, ← BitVec.mul_assoc]
    by_cases hzero : acc * BitVec.ofNat 64 (n + 2) = 0
    · rw [fallingProduct, if_pos hzero]
      exact BitVec.zero_mul.symm.trans (congrArg (· * BitVec.ofNat 64 (n + 1)!) hzero.symm)
    · rw [fallingProduct, if_neg hzero]
      exact ih _

/-- The loop ends no later than with the first factors whose product is zero in the word. -/
theorem multiplications_le (h : acc * BitVec.ofNat 64 (n.descFactorial (k + 1)) = 0) :
    (fallingProduct n acc).multiplications ≤ k + 1 := by
  induction n using Nat.twoStepInduction generalizing acc k with
  | zero => exact Nat.zero_le _
  | one => exact Nat.zero_le _
  | more n _ ih =>
    rw [Nat.succ_descFactorial_succ, BitVec.ofNat_mul, ← BitVec.mul_assoc] at h
    by_cases hzero : acc * BitVec.ofNat 64 (n + 2) = 0
    · rw [fallingProduct, if_pos hzero]
      exact Nat.succ_le_succ k.zero_le
    · rw [fallingProduct, if_neg hzero]
      cases k with
      | zero =>
        rw [Nat.descFactorial_zero] at h
        exact absurd ((BitVec.mul_one _).symm.trans h) hzero
      | succ k => exact Nat.succ_le_succ (ih h)

theorem two_pow_dvd_factorial_iff : 2 ^ 64 ∣ n ! ↔ 66 ≤ n := by
  constructor
  · intro h
    by_contra hless
    have h65 : 2 ^ 64 ∣ 65 ! := h.trans (Nat.factorial_dvd_factorial (by omega))
    exact absurd h65 (by decide)
  · intro h
    have h66 : 2 ^ 64 ∣ 66 ! := by decide
    exact h66.trans (Nat.factorial_dvd_factorial h)

theorem wrappedFactorial_eq_zero_iff : wrappedFactorial n = 0 ↔ 66 ≤ n := by
  rw [← two_pow_dvd_factorial_iff, ← Int.natCast_dvd_natCast]
  exact Int.dvd_iff_bmod_eq_zero.symm

theorem toInt_fallingProduct (n : ℕ) : (fallingProduct n 1).value.toInt = wrappedFactorial n := by
  rw [value_eq_factorial]
  exact (congrArg BitVec.toInt (BitVec.one_mul _)).trans (BitVec.toInt_ofNat _)

/-- Any 66 factors in a row are a multiple of `66 !`. -/
theorem multiplications_le_66 (n : ℕ) : (fallingProduct n 1).multiplications ≤ 66 := by
  have hdvd : 2 ^ 64 ∣ n.descFactorial 66 :=
    (two_pow_dvd_factorial_iff.mpr le_rfl).trans (Nat.factorial_dvd_descFactorial n 66)
  refine multiplications_le ((BitVec.one_mul _).trans ?_)
  exact BitVec.eq_of_toNat_eq (Nat.mod_eq_zero_of_dvd hdvd)

end Word

section Integers

variable {x : Binary64} {n : ℕ}

theorem magnitude_eq_natCast_iff {rank : ℕ} :
    magnitude rank = n ↔ units rank = n * unitsPerOne := by
  rw [magnitude, div_eq_iff cast_unitsPerOne_pos.ne']
  exact_mod_cast Iff.rfl

theorem toNat?_finite_iff {negative : Bool} {rank : Fin rankCount} :
    toNat? (.finite negative rank) = some n ↔
      units rank = n * unitsPerOne ∧ (negative → rank.val = 0) := by
  rw [toNat?, Option.ite_none_right_eq_some, Option.some.injEq]
  constructor
  · rintro ⟨⟨hmod, hsign⟩, rfl⟩
    exact ⟨(Nat.div_mul_cancel (Nat.dvd_of_mod_eq_zero hmod)).symm, hsign⟩
  · rintro ⟨hunits, hsign⟩
    rw [hunits, Nat.mul_mod_left, Nat.mul_div_cancel _ unitsPerOne_pos]
    exact ⟨⟨rfl, hsign⟩, rfl⟩

/-- The natural number that is read off a double is its exact value; that of a negative zero is
zero. -/
theorem toNat?_eq_some_iff : x.toNat? = some n ↔ x.toRat? = some (n : ℚ) := by
  cases x with
  | nan => simp [toNat?, toRat?]
  | infinite negative => simp [toNat?, toRat?]
  | finite negative rank =>
    rw [toNat?_finite_iff, ← magnitude_eq_natCast_iff, toRat_finite, Option.some.injEq]
    cases negative with
    | false => simp
    | true =>
      rw [if_pos rfl]
      constructor
      · rintro ⟨hn, hrank⟩
        rw [← hn, hrank rfl, magnitude_zero, neg_zero]
      · intro hn
        have hsize := magnitude_nonneg rank
        have hnonneg : (0 : ℚ) ≤ n := n.cast_nonneg
        have hzero : magnitude rank = magnitude 0 := by
          rw [magnitude_zero]
          linarith
        exact ⟨by linarith, fun _ => magnitude_strictMono.injective hzero⟩

theorem ofInt_ne_nan (i : ℤ) : ofInt i ≠ .nan := ofRank_ne_nan _ _

theorem factorial_of_toRat (hn : n ≤ factorialBound) (hx : x.toRat? = some (n : ℚ)) :
    factorial x = ofInt (fallingProduct n 1).value.toInt := by
  rw [factorial, toNat?_eq_some_iff.mpr hx]
  exact if_pos hn

theorem factorial_eq_nan_iff :
    factorial x = .nan ↔ ¬∃ n : ℕ, n ≤ factorialBound ∧ x.toRat? = some (n : ℚ) := by
  constructor
  · rintro hnan ⟨n, hn, hx⟩
    exact ofInt_ne_nan _ ((factorial_of_toRat hn hx).symm.trans hnan)
  · intro hnone
    rw [factorial]
    cases hx : x.toNat? with
    | none => rfl
    | some n => exact if_neg fun hn => hnone ⟨n, hn, toNat?_eq_some_iff.mp hx⟩

end Integers

/-- There is a factorial of just the integers from zero to the bound, and it is the word that the
factorial is congruent to, rounded once. The word is zero from 66 on. It is found by multiplying
with as many of the greatest factors as there are multiplications, and these are at most 66. -/
theorem factorial_roundsTo (x : Binary64) :
    (factorial x = .nan ↔ ¬∃ n : ℕ, n ≤ 2147483647 ∧ x.toRat? = some (n : ℚ)) ∧
    ∀ n : ℕ, n ≤ 2147483647 → x.toRat? = some (n : ℚ) →
      RoundsTo (wrappedFactorial n < 0) |wrappedFactorial n| (factorial x) ∧
      (wrappedFactorial n = 0 ↔ 66 ≤ n) ∧
      factorial x = ofInt (fallingProduct n 1).value.toInt ∧
      (fallingProduct n 1).value =
        BitVec.ofNat 64 (n.descFactorial (fallingProduct n 1).multiplications) ∧
      (fallingProduct n 1).multiplications ≤ 66 := by
  have hbound : factorialBound = 2147483647 := by decide
  rw [← hbound]
  refine ⟨factorial_eq_nan_iff, fun n hn hx => ?_⟩
  have hvalue := factorial_of_toRat hn hx
  refine ⟨?_, wrappedFactorial_eq_zero_iff, hvalue, ?_, multiplications_le_66 n⟩
  · rw [hvalue, toInt_fallingProduct]
    exact roundsTo_ofInt _
  · exact (value_fallingProduct n 1).trans (BitVec.one_mul _)

/-- The factorial of 21 has a negative word. That of the largest argument is zero, and is found as
early as any other. -/
theorem factorial_of_21_and_of_bound :
    (ofInt 21).toRat? = some ((21 : ℕ) : ℚ) ∧
      factorial (ofInt 21) = ofInt (-4249290049419214848) ∧
      (ofInt 2147483647).toRat? = some ((2147483647 : ℕ) : ℚ) ∧
      factorial (ofInt 2147483647) = ofInt 0 ∧
      (fallingProduct 2147483647 1).multiplications ≤ 66 := by
  have hx : (ofInt 21).toRat? = some ((21 : ℕ) : ℚ) := by decide +kernel
  have hy : (ofInt 2147483647).toRat? = some ((2147483647 : ℕ) : ℚ) := by decide +kernel
  have hword : wrappedFactorial 21 = -4249290049419214848 := by decide +kernel
  have hword' : wrappedFactorial 2147483647 = 0 := wrappedFactorial_eq_zero_iff.mpr (by decide)
  -- for any argument, as a fixed one would be computed when types are compared
  have hvalue {x : Binary64} {n : ℕ} (hn : n ≤ 2147483647) (hx : x.toRat? = some (n : ℚ)) :
      factorial x = ofInt (wrappedFactorial n) ∧ (fallingProduct n 1).multiplications ≤ 66 := by
    obtain ⟨hround, -, -, -, hcount⟩ := (factorial_roundsTo x).2 n hn hx
    exact ⟨hround.unique (roundsTo_ofInt _), hcount⟩
  rw [← hword, ← hword']
  exact ⟨hx, (hvalue (by decide) hx).1, hy, hvalue le_rfl hy⟩

end NotationCalculator.Binary64
