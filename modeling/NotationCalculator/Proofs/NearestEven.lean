import NotationCalculator.Binary64.Rounding
import Mathlib.Algebra.Order.Field.Rat
import Mathlib.Tactic.FieldSimp
import Mathlib.Tactic.Linarith
import Mathlib.Tactic.Positivity
import Mathlib.Tactic.Ring

/-!
# The nearest point of a grid

Doubles are rounded to one grid and printed numbers to another: a grid is a strictly increasing
sequence of rationals, and a number is rounded to the point that is nearest to it. Of two points
that are equally near, the one at an even place is taken. There is only one such point, and wherever
a grid is evenly spaced around a number, rounding a quotient to an integer finds it.
-/
namespace NotationCalculator.Rounding

/-- No point of the grid is nearer to `x` than the one at the place `k`, and where another is as
near, `k` is even. -/
structure NearestEven (grid : ℕ → ℚ) (x : ℚ) (k : ℕ) : Prop where
  le (j : ℕ) : |x - grid k| ≤ |x - grid j|
  even {j : ℕ} : j ≠ k → |x - grid j| = |x - grid k| → Even k

section Halfway

variable {p q x : ℚ}

theorem sq_sub_sq_of_points (p q x : ℚ) :
    (x - q) ^ 2 - (x - p) ^ 2 = (q - p) * (p + q - 2 * x) := by
  ring

/-- The lower of two points is the nearer one up to halfway between them. -/
theorem le_halfway_iff (hpq : p < q) : |x - p| ≤ |x - q| ↔ 2 * x ≤ p + q := by
  rw [← sq_le_sq, ← sub_nonneg, sq_sub_sq_of_points, mul_nonneg_iff_of_pos_left (sub_pos.mpr hpq),
    sub_nonneg]

/-- The upper of two points is the nearer one from halfway between them on. -/
theorem halfway_le_iff (hpq : p < q) : |x - q| ≤ |x - p| ↔ p + q ≤ 2 * x := by
  rw [← sq_le_sq, ← sub_nonneg, ← neg_sub, sq_sub_sq_of_points, ← mul_neg, neg_sub,
    mul_nonneg_iff_of_pos_left (sub_pos.mpr hpq), sub_nonneg]

end Halfway

variable {grid : ℕ → ℚ} {x y step : ℚ} {j k : ℕ}

/-- Between two points at even places there is another one, which is nearer. -/
theorem NearestEven.unique (hgrid : StrictMono grid) (hj : NearestEven grid x j)
    (hk : NearestEven grid x k) : j = k := by
  by_contra hne
  wlog hlt : j < k generalizing j k
  · exact this hk hj (Ne.symm hne) (by omega)
  have heq : |x - grid j| = |x - grid k| := le_antisymm (hj.le k) (hk.le j)
  have hmiddle : grid j + grid k ≤ 2 * x := (halfway_le_iff (hgrid hlt)).mp (hk.le j)
  obtain ⟨a, ha⟩ := hj.even (Ne.symm hne) heq.symm
  obtain ⟨b, hb⟩ := hk.even hne heq
  have hbelow : grid j < grid (j + 1) := hgrid (by omega)
  have habove : grid (j + 1) < grid k := hgrid (by omega)
  have hnot : 2 * x ≤ grid j + grid (j + 1) := (le_halfway_iff hbelow).mp (hj.le (j + 1))
  linarith

/-- A point of the grid is rounded to itself. -/
theorem NearestEven.eq_of_grid (hgrid : StrictMono grid) (h : NearestEven grid (grid j) k) :
    k = j := by
  have hle := h.le j
  rw [sub_self, abs_zero] at hle
  exact hgrid.injective (sub_eq_zero.mp (abs_nonpos_iff.mp hle)).symm

/-- Rounding does not go past a point of the grid. -/
theorem NearestEven.le_of_le (hgrid : StrictMono grid) (h : NearestEven grid x k)
    (hx : x ≤ grid j) : k ≤ j := by
  by_contra hjk
  have hless : grid j < grid k := hgrid (not_le.mp hjk)
  have hmiddle : grid j + grid k ≤ 2 * x := (halfway_le_iff hless).mp (h.le j)
  linarith

theorem NearestEven.ge_of_ge (hgrid : StrictMono grid) (h : NearestEven grid x k)
    (hx : grid j ≤ x) : j ≤ k := by
  by_contra hkj
  have hless : grid k < grid j := hgrid (not_le.mp hkj)
  have hmiddle : 2 * x ≤ grid k + grid j := (le_halfway_iff hless).mp (h.le j)
  linarith

/-- A point is nearest that is not beyond halfway to any other, and at an even place if it is just
halfway to one. -/
theorem nearestEven_of_halfway (hgrid : StrictMono grid)
    (hbelow : ∀ j < k, grid j + grid k ≤ 2 * x) (habove : ∀ j, k < j → 2 * x ≤ grid k + grid j)
    (htie : ∀ j ≠ k, 2 * x = grid j + grid k → Even k) : NearestEven grid x k := by
  constructor
  · intro j
    rcases lt_trichotomy j k with hjk | rfl | hkj
    · exact (halfway_le_iff (hgrid hjk)).mpr (hbelow j hjk)
    · exact le_rfl
    · exact (le_halfway_iff (hgrid hkj)).mpr (habove j hkj)
  · intro j hne heq
    refine htie j hne ?_
    rcases Nat.lt_or_gt_of_ne hne with hjk | hkj
    · exact le_antisymm ((le_halfway_iff (hgrid hjk)).mp heq.le) (hbelow j hjk)
    · rw [add_comm]
      exact le_antisymm (habove j hkj) ((halfway_le_iff (hgrid hkj)).mp heq.le)

/-- The lower neighbour of a number is nearest when the upper one is not nearer. -/
theorem nearestEven_lower (hgrid : StrictMono grid) (hlow : grid k ≤ x)
    (h : x - grid k < grid (k + 1) - x ∨ x - grid k = grid (k + 1) - x ∧ Even k) :
    NearestEven grid x k := by
  have hnear : x - grid k ≤ grid (k + 1) - x := h.elim le_of_lt fun htie => htie.1.le
  have hbelow (j : ℕ) (hjk : j < k) : grid j < grid k := hgrid hjk
  have habove (j : ℕ) (hkj : k < j) : grid (k + 1) ≤ grid j := hgrid.monotone hkj
  refine nearestEven_of_halfway hgrid (fun j hjk => ?_) (fun j hkj => ?_) fun j hne heq => ?_
  · linarith [hbelow j hjk]
  · linarith [habove j hkj]
  · rcases h with hless | ⟨-, heven⟩
    · rcases Nat.lt_or_gt_of_ne hne with hjk | hkj
      · linarith [hbelow j hjk]
      · linarith [habove j hkj]
    · exact heven

/-- The upper neighbour of a number is nearest when the lower one is not nearer. -/
theorem nearestEven_upper (hgrid : StrictMono grid) (hhigh : x ≤ grid (k + 1))
    (h : grid (k + 1) - x < x - grid k ∨ grid (k + 1) - x = x - grid k ∧ Even (k + 1)) :
    NearestEven grid x (k + 1) := by
  have hnear : grid (k + 1) - x ≤ x - grid k := h.elim le_of_lt fun htie => htie.1.le
  have hbelow (j : ℕ) (hjk : j < k + 1) : grid j ≤ grid k := hgrid.monotone (by omega)
  have habove (j : ℕ) (hkj : k + 1 < j) : grid (k + 1) < grid j := hgrid hkj
  refine nearestEven_of_halfway hgrid (fun j hjk => ?_) (fun j hkj => ?_) fun j hne heq => ?_
  · linarith [hbelow j hjk]
  · linarith [habove j hkj]
  · rcases h with hless | ⟨-, heven⟩
    · rcases Nat.lt_or_gt_of_ne hne with hjk | hkj
      · linarith [hbelow j hjk]
      · linarith [habove j hkj]
    · exact heven

/-- Where two neighbouring points of the grid are the multiples of a step on either side of `n / d`
steps, the rounded quotient counts off the nearest one. -/
theorem nearestEven_roundQuotient (hgrid : StrictMono grid) {base n d : ℕ} (hd : 0 < d)
    (hstep : 0 < step) (hbase : Even base) (hlow : grid (base + n / d) = (n / d : ℕ) * step)
    (hhigh : grid (base + n / d + 1) = ((n / d : ℕ) + 1) * step) :
    NearestEven grid (n / d * step) (base + roundQuotient n d) := by
  have hdiv : (n : ℚ) = d * (n / d : ℕ) + (n % d : ℕ) := by
    exact_mod_cast (Nat.div_add_mod n d).symm
  have hpos : (0 : ℚ) < d := by exact_mod_cast hd
  have hbelow : n / d * step - grid (base + n / d) = (n % d : ℕ) * (step / d) := by
    rw [hlow]
    field_simp
    linarith
  have habove : grid (base + n / d + 1) - n / d * step = (d - (n % d : ℕ)) * (step / d) := by
    rw [hhigh]
    field_simp
    linarith
  have hunit : 0 < step / d := div_pos hstep hpos
  have hmod : ((n % d : ℕ) : ℚ) < d := by exact_mod_cast Nat.mod_lt n hd
  simp only [roundQuotient]
  split_ifs with hdown
  · refine nearestEven_lower hgrid ?_ ?_
    · have hnonneg : 0 ≤ (n % d : ℕ) * (step / d) := by positivity
      linarith
    · rw [hbelow, habove]
      rcases hdown with hless | ⟨htie, heven⟩
      · have hcast : 2 * ((n % d : ℕ) : ℚ) < d := by exact_mod_cast hless
        exact .inl (mul_lt_mul_of_pos_right (by linarith) hunit)
      · have hcast : 2 * ((n % d : ℕ) : ℚ) = d := by exact_mod_cast htie
        exact .inr ⟨by rw [← hcast]; ring, hbase.add (Nat.even_iff.mpr heven)⟩
  · rw [← Nat.add_assoc]
    refine nearestEven_upper hgrid ?_ ?_
    · have hnonneg : 0 ≤ (d - ((n % d : ℕ) : ℚ)) * (step / d) :=
        mul_nonneg (by linarith) hunit.le
      linarith
    · rw [hbelow, habove]
      rcases Nat.lt_or_ge d (2 * (n % d)) with hmore | hle
      · have hcast : (d : ℚ) < 2 * (n % d : ℕ) := by exact_mod_cast hmore
        exact .inl (mul_lt_mul_of_pos_right (by linarith) hunit)
      · have htie : 2 * (n % d) = d := by omega
        have hcast : 2 * ((n % d : ℕ) : ℚ) = d := by exact_mod_cast htie
        refine .inr ⟨by rw [← hcast]; ring, ?_⟩
        rw [Nat.even_iff]
        rw [Nat.even_iff] at hbase
        omega

theorem strictMono_multiples (hstep : 0 < step) : StrictMono fun k : ℕ => k * step := by
  intro j k hjk
  exact mul_lt_mul_of_pos_right (by exact_mod_cast hjk) hstep

/-- Different multiples of a step are at least a step apart. -/
theorem half_le_abs_sub_multiple {a b : ℤ} (hstep : 0 < step) (hab : a ≠ b)
    (hb : |x - b * step| ≤ step / 2) : step / 2 ≤ |x - a * step| := by
  have hone : (1 : ℚ) ≤ |(a : ℚ) - b| := by
    exact_mod_cast Int.one_le_abs (sub_ne_zero.mpr hab)
  have hapart : step ≤ |a * step - b * step| := by
    rw [← sub_mul, abs_mul, abs_of_pos hstep]
    exact le_mul_of_one_le_left hstep.le hone
  have htriangle := abs_sub_le (a * step) x (b * step)
  rw [abs_sub_comm (a * step) x] at htriangle
  linarith

theorem le_half_of_le_abs_sub {c : ℚ} (hstep : 0 < step) (h : c ≤ |c - step|) : c ≤ step / 2 := by
  rcases le_or_gt step c with hfar | hnear
  · rw [abs_of_nonneg (by linarith)] at h
    linarith
  · rw [abs_of_neg (by linarith)] at h
    linarith

/-- Among the multiples of a step the nearest one is at most half a step away. -/
theorem nearestEven_multiples_iff (hstep : 0 < step) (hx : 0 ≤ x) :
    NearestEven (fun k => k * step) x k ↔
      |x - k * step| < step / 2 ∨ |x - k * step| = step / 2 ∧ Even k := by
  constructor
  · intro h
    -- the neighbour on the side of `x` is what bounds the distance
    obtain ⟨j, hjk, hj⟩ : ∃ j ≠ k, |x - j * step| = |(|x - k * step|) - step| := by
      rcases le_or_gt (k * step) x with hlow | hhigh
      · refine ⟨k + 1, by omega, ?_⟩
        rw [abs_of_nonneg (sub_nonneg.mpr hlow)]
        push_cast
        ring_nf
      · obtain _ | m := k
        · simp only [Nat.cast_zero, zero_mul] at hhigh
          exact absurd hx (not_le.mpr hhigh)
        · refine ⟨m, by omega, ?_⟩
          rw [abs_of_neg (sub_neg.mpr hhigh), abs_sub_comm]
          push_cast
          ring_nf
    have hle := h.le j
    simp only [hj] at hle
    rcases (le_half_of_le_abs_sub hstep hle).lt_or_eq with hless | htie
    · exact .inl hless
    · refine .inr ⟨htie, h.even hjk ?_⟩
      simp only [hj, htie]
      rw [abs_of_neg (by linarith)]
      ring
  · intro h
    have hhalf : |x - (k : ℤ) * step| ≤ step / 2 := h.elim le_of_lt fun htie => htie.1.le
    constructor
    · intro j
      rcases eq_or_ne j k with rfl | hne
      · exact le_rfl
      · exact hhalf.trans (half_le_abs_sub_multiple hstep (by exact_mod_cast hne) hhalf)
    · intro j hne heq
      have hapart := half_le_abs_sub_multiple (a := j) hstep (by exact_mod_cast hne) hhalf
      rcases h with hless | htie
      · exact absurd hapart (not_le.mpr (heq.trans_lt hless))
      · exact htie.2

/-- What a number is rounded to is also what every number is rounded to that is no farther away
from it. -/
theorem NearestEven.of_closer (hstep : 0 < step) (hx : 0 ≤ x) (hy : 0 ≤ y)
    (h : NearestEven (fun k => k * step) x k) (hcloser : |y - k * step| ≤ |x - k * step|) :
    NearestEven (fun k => k * step) y k := by
  rw [nearestEven_multiples_iff hstep hx] at h
  rw [nearestEven_multiples_iff hstep hy]
  rcases h with hless | ⟨htie, heven⟩
  · exact .inl (hcloser.trans_lt hless)
  · rcases (hcloser.trans_eq htie).lt_or_eq with hless | hsame
    · exact .inl hless
    · exact .inr ⟨hsame, heven⟩

end NotationCalculator.Rounding
