import NotationCalculator.Binary64.Arithmetic
import NotationCalculator.Proofs.Magnitudes

/-!
# Doubles counted in units

Every finite double is a whole number of units, and this number is all there is to it but for the
sign of a zero. Finite doubles are compared by their units, and sums are exact whenever the sum of
the units is a magnitude again. This is so of every number of 53 binary digits, wherever its point
stands.
-/
namespace NotationCalculator.Binary64

/-- The double is finite and this many units. -/
def HasUnits (n : ℤ) (x : Binary64) : Prop :=
  ∃ negative, ∃ rank : Fin rankCount, x = .finite negative rank ∧ signedUnits negative rank = n

/-- Some finite magnitude is this many units. -/
def IsMagnitude (n : ℕ) : Prop := ∃ rank : Fin rankCount, units rank = n

section Magnitudes

theorem units_eq_zero_iff (rank : ℕ) : units rank = 0 ↔ rank = 0 := by
  constructor
  · intro h
    exact units_strictMono.injective (h.trans units_zero.symm)
  · rintro rfl
    exact units_zero

/-- A finite magnitude is not rounded. -/
theorem ofUnits_units (negative : Bool) (rank : Fin rankCount) :
    ofUnits negative (units rank) 1 = .finite negative rank := by
  have hnearest := nearestEven_nearestRank (units rank) Nat.one_pos
  rw [Nat.cast_one, div_one, ← magnitude] at hnearest
  rw [ofUnits, hnearest.eq_of_grid magnitude_strictMono, ofRank, dif_pos rank.isLt]

theorem exists_units_eq {m : ℕ} (hm : m ≤ 2 ^ 53) (e : ℕ) :
    ∃ rank ≤ e * 2 ^ 52 + 2 ^ 53, units rank = m * 2 ^ e := by
  induction e generalizing m with
  | zero =>
    have hunits := units_binade hm (e := 0) (.inl rfl)
    exact ⟨_, by omega, hunits⟩
  | succ e ih =>
    by_cases hlow : 2 ^ 52 ≤ m
    · have hunits := units_binade hm (e := e + 1) (.inr hlow)
      exact ⟨_, by omega, hunits⟩
    · obtain ⟨rank, hrank, hunits⟩ := ih (m := 2 * m) (by omega)
      refine ⟨rank, hrank.trans ?_, ?_⟩
      · exact Nat.add_le_add_right (Nat.mul_le_mul_right _ e.le_succ) _
      · rw [hunits, pow_succ]
        ring

/-- Of 53 binary digits none is lost, wherever the point stands. -/
theorem isMagnitude_mul_pow {m e : ℕ} (hm : m ≤ 2 ^ 53) (he : e ≤ 2044) :
    IsMagnitude (m * 2 ^ e) := by
  obtain ⟨rank, hrank, hunits⟩ := exists_units_eq hm e
  have hcount : rankCount = 2047 * 2 ^ 52 := rfl
  exact ⟨⟨rank, by omega⟩, hunits⟩

theorem isMagnitude_mul_unitsPerOne {m e : ℕ} (hm : m ≤ 2 ^ 53) (he : e ≤ 970) :
    IsMagnitude (m * 2 ^ e * unitsPerOne) := by
  rw [unitsPerOne_eq, mul_assoc, ← pow_add]
  exact isMagnitude_mul_pow hm (by omega)

/-- All integers up to `2 ^ 53` are doubles. -/
theorem isMagnitude_integer {i : ℤ} (hi : |i| ≤ 2 ^ 53) : IsMagnitude (i * unitsPerOne).natAbs := by
  rw [Int.abs_eq_natAbs] at hi
  rw [Int.natAbs_mul, Int.natAbs_natCast, ← mul_one i.natAbs]
  exact isMagnitude_mul_unitsPerOne (e := 0) (by omega) (by decide)

end Magnitudes

section Units

variable {negative : Bool} {m n : ℤ} {q : ℚ} {x y : Binary64}

theorem units_pos : (0 : ℤ) < unitsPerOne := by exact_mod_cast unitsPerOne_pos

theorem HasUnits.toRat_eq (hx : HasUnits n x) : x.toRat? = some (n / unitsPerOne : ℚ) := by
  obtain ⟨s, a, rfl, rfl⟩ := hx
  rw [toRat?, Rat.mkRat_eq_div]

theorem HasUnits.toRat_integer {i : ℤ} (hx : HasUnits (i * unitsPerOne) x) :
    x.toRat? = some (i : ℚ) := by
  rw [hx.toRat_eq, Int.cast_mul, Int.cast_natCast,
    mul_div_cancel_right₀ _ cast_unitsPerOne_pos.ne']

theorem exists_hasUnits (hx : x.toRat? = some q) : ∃ n, HasUnits n x ∧ q = n / unitsPerOne := by
  cases x with
  | nan | infinite _ => cases hx
  | finite s a =>
    have hunits : HasUnits (signedUnits s a) (.finite s a) := ⟨s, a, rfl, rfl⟩
    rw [hunits.toRat_eq, Option.some.injEq] at hx
    exact ⟨_, hunits, hx.symm⟩

theorem hasUnits_zero (negative : Bool) : HasUnits 0 (zero negative) :=
  ⟨negative, ⟨0, by decide⟩, zero_eq negative, by cases negative <;> simp [signedUnits]⟩

theorem HasUnits.eq (hm : HasUnits m x) (hn : HasUnits n x) : m = n := by
  obtain ⟨s, a, rfl, rfl⟩ := hm
  obtain ⟨t, b, hx, rfl⟩ := hn
  obtain ⟨rfl, rfl⟩ := finite.inj hx
  rfl

theorem HasUnits.ne_zero {i : ℤ} (hx : HasUnits (i * unitsPerOne) x) (hi : i ≠ 0) :
    x ≠ zero negative := by
  rintro rfl
  exact mul_ne_zero hi units_pos.ne' (hx.eq (hasUnits_zero negative))

/-- The order of doubles is that of their units. -/
theorem le_iff_of_hasUnits (hx : HasUnits m x) (hy : HasUnits n y) : le x y = true ↔ m ≤ n := by
  obtain ⟨s, a, rfl, rfl⟩ := hx
  obtain ⟨t, b, rfl, rfl⟩ := hy
  have hab := units_strictMono.le_iff_le (a := a) (b := b)
  have hba := units_strictMono.le_iff_le (a := b) (b := a)
  have ha := units_eq_zero_iff a
  have hb := units_eq_zero_iff b
  simp only [le, place?, decide_eq_true_eq]
  cases s <;> cases t <;> simp only [signedUnits, Bool.false_eq_true, if_false, if_true] <;> omega

theorem lt_iff_of_hasUnits (hx : HasUnits m x) (hy : HasUnits n y) : lt x y = true ↔ m < n := by
  rw [← not_le, ← le_iff_of_hasUnits hy hx]
  obtain ⟨s, a, rfl, rfl⟩ := hx
  obtain ⟨t, b, rfl, rfl⟩ := hy
  simp [lt, le, place?]

theorem infinite_lt (hx : HasUnits n x) : lt (.infinite negative) x = negative := by
  obtain ⟨s, a, rfl, -⟩ := hx
  have ha := a.isLt
  simp only [lt, place?]
  cases s <;> cases negative <;>
    simp only [Bool.false_eq_true, if_false, if_true, decide_eq_true_eq,
      decide_eq_false_iff_not] <;> omega

theorem lt_infinite (hx : HasUnits n x) : lt x (.infinite negative) = !negative := by
  obtain ⟨s, a, rfl, -⟩ := hx
  have ha := a.isLt
  simp only [lt, place?]
  cases s <;> cases negative <;>
    simp only [Bool.false_eq_true, if_false, if_true, Bool.not_false, Bool.not_true,
      decide_eq_true_eq, decide_eq_false_iff_not] <;> omega

theorem eq_infinite_of_le (h : le (.infinite false) x = true) : x = .infinite false := by
  cases x with
  | nan => cases h
  | infinite t =>
    cases t with
    | false => rfl
    | true => exact absurd h (by decide)
  | finite t b =>
    have hb := b.isLt
    simp only [le, place?, decide_eq_true_eq] at h
    cases t <;> simp only [Bool.false_eq_true, if_false, if_true] at h <;> omega

theorem eq_infinite_of_ge (h : le x (.infinite true) = true) : x = .infinite true := by
  cases x with
  | nan => cases h
  | infinite t =>
    cases t with
    | false => exact absurd h (by decide)
    | true => rfl
  | finite t b =>
    have hb := b.isLt
    simp only [le, place?, decide_eq_true_eq] at h
    cases t <;> simp only [Bool.false_eq_true, if_false, if_true] at h <;> omega

/-- But for the zeros, a finite double is known from its units. -/
theorem HasUnits.unique (hx : HasUnits n x) (hy : HasUnits n y)
    (hzero : x = zero true ↔ y = zero true) : x = y := by
  obtain ⟨s, a, rfl, rfl⟩ := hx
  obtain ⟨t, b, rfl, hunits⟩ := hy
  have hab := units_strictMono.injective.eq_iff (a := (a : ℕ)) (b := b)
  have ha := units_eq_zero_iff a
  have hb := units_eq_zero_iff b
  simp only [zero_eq, finite.injEq, Fin.ext_iff] at hzero ⊢
  cases s <;> cases t <;>
    simp only [signedUnits, Bool.false_eq_true, if_false, if_true, false_and, true_and,
      false_iff, iff_false] at hunits hzero ⊢ <;> omega

theorem hasUnits_ofUnits (negative : Bool) {k : ℕ} (h : IsMagnitude k) :
    HasUnits (if negative then -k else k) (ofUnits negative k 1) := by
  obtain ⟨rank, rfl⟩ := h
  exact ⟨negative, rank, ofUnits_units negative rank, rfl⟩

/-- Rounding does not go below a double. -/
theorem le_ofUnits {rank : Fin rankCount} {k : ℕ} (h : units rank ≤ k) :
    le (.finite false rank) (ofUnits false k 1) = true := by
  have hsize : magnitude rank ≤ (k : ℚ) / (1 : ℕ) / unitsPerOne := by
    rw [magnitude, Nat.cast_one, div_one]
    exact div_le_div_of_nonneg_right (by exact_mod_cast h) cast_unitsPerOne_pos.le
  have hplace := (nearestEven_nearestRank k Nat.one_pos).ge_of_ge magnitude_strictMono hsize
  have hrank := rank.isLt
  rw [ofUnits, ofRank]
  split_ifs <;> simp only [le, place?, Bool.false_eq_true, if_false, decide_eq_true_eq] <;> omega

/-- A sum that is a double is not rounded. -/
theorem hasUnits_ofSum (zeroSign : Bool) (h : IsMagnitude n.natAbs) :
    HasUnits n (ofSum zeroSign n) := by
  rw [ofSum]
  split_ifs with hn
  · rw [hn]
    exact hasUnits_zero zeroSign
  · have hunits := hasUnits_ofUnits (n < 0) h
    have hsign : (if decide (n < 0) = true then -(n.natAbs : ℤ) else n.natAbs) = n := by
      simp only [decide_eq_true_eq]
      split_ifs <;> omega
    rwa [hsign] at hunits

theorem ofSum_ne_zero (h : IsMagnitude n.natAbs) : ofSum false n ≠ zero true := by
  intro hzero
  have hunits := hasUnits_ofSum false h
  rw [hzero] at hunits
  obtain rfl := hunits.eq (hasUnits_zero true)
  rw [ofSum, if_pos rfl, zero_eq, zero_eq] at hzero
  cases hzero

theorem sub_eq_ofSum (hx : HasUnits m x) (hy : HasUnits n y) :
    ∃ zeroSign, sub x y = ofSum zeroSign (m - n) := by
  obtain ⟨s, a, rfl, rfl⟩ := hx
  obtain ⟨t, b, rfl, rfl⟩ := hy
  have hneg : signedUnits (!t) b = -signedUnits t b := by cases t <;> simp [signedUnits]
  exact ⟨s && !t, by rw [sub, neg, add, hneg, ← sub_eq_add_neg]⟩

theorem add_eq_ofSum (hx : HasUnits m x) (hy : HasUnits n y) (hpos : 0 < n) :
    add x y = ofSum false (m + n) := by
  obtain ⟨s, a, rfl, rfl⟩ := hx
  obtain ⟨t, b, rfl, rfl⟩ := hy
  cases t with
  | false => rw [add, Bool.and_false]
  | true =>
    rw [signedUnits, if_pos rfl] at hpos
    omega

end Units

end NotationCalculator.Binary64
