import NotationCalculator.Binary64.Rounding

/-!
# Enclosures of reals

An enclosure with `p` binary places stands for all reals from `lo / 2 ^ p` to `hi / 2 ^ p`. Every
operation rounds its lower end down and its upper end up, so that the result holds every result of
the same operation on members of its arguments. When its two ends are nearest to the same double,
so is everything inside.
-/
namespace NotationCalculator

structure Enclosure where
  lo : Int
  hi : Int
  deriving DecidableEq

namespace Enclosure

/-- The quotient rounded down. -/
def down (n : Int) (d : Nat) : Int := n / d

/-- The quotient rounded up. -/
def up (n : Int) (d : Nat) : Int := -(-n / d)

/-- The narrowest enclosure of `n / d`. -/
def ofQuotient (p : Nat) (n : Int) (d : Nat) : Enclosure :=
  ⟨down (n * Nat.pow 2 p) d, up (n * Nat.pow 2 p) d⟩

def ofInt (p : Nat) (n : Int) : Enclosure := ⟨n * Nat.pow 2 p, n * Nat.pow 2 p⟩

def add (a b : Enclosure) : Enclosure := ⟨a.lo + b.lo, a.hi + b.hi⟩

def neg (a : Enclosure) : Enclosure := ⟨-a.hi, -a.lo⟩

def sub (a b : Enclosure) : Enclosure := a.add b.neg

def mul (p : Nat) (a b : Enclosure) : Enclosure :=
  let w := a.lo * b.lo
  let x := a.lo * b.hi
  let y := a.hi * b.lo
  let z := a.hi * b.hi
  ⟨down (min (min w x) (min y z)) (Nat.pow 2 p), up (max (max w x) (max y z)) (Nat.pow 2 p)⟩

/-- The multiple by an integer, which needs no rounding. -/
def scale (k : Int) (a : Enclosure) : Enclosure :=
  if 0 ≤ k then ⟨k * a.lo, k * a.hi⟩ else ⟨k * a.hi, k * a.lo⟩

def divNat (a : Enclosure) (d : Nat) : Enclosure := ⟨down a.lo d, up a.hi d⟩

/-- The multiple by `2 ^ k`. -/
def shift (k : Int) (a : Enclosure) : Enclosure :=
  if 0 ≤ k then a.scale (Nat.pow 2 k.toNat) else a.divNat (Nat.pow 2 (-k).toNat)

/-- The quotient by positive numbers. -/
def divPositive (p : Nat) (a b : Enclosure) : Enclosure :=
  ⟨down (a.lo * Nat.pow 2 p) (if 0 ≤ a.lo then b.hi else b.lo).toNat,
    up (a.hi * Nat.pow 2 p) (if 0 ≤ a.hi then b.lo else b.hi).toNat⟩

/-- The quotient, when the divisor is bounded away from zero. -/
def div? (p : Nat) (a b : Enclosure) : Option Enclosure :=
  if 0 < b.lo then some (divPositive p a b)
  else if b.hi < 0 then some (divPositive p a.neg b.neg)
  else none

/-- The roots of the members, where none is negative. -/
def sqrt (p : Nat) (a : Enclosure) : Enclosure :=
  ⟨(a.lo.toNat * Nat.pow 2 p).sqrt, (a.hi.toNat * Nat.pow 2 p).sqrt + 1⟩

/-- The members brought within `-bound` and `bound`. -/
def clamp (p bound : Nat) (a : Enclosure) : Enclosure :=
  let limit : Int := bound * Nat.pow 2 p
  ⟨max (-limit) (min limit a.lo), max (-limit) (min limit a.hi)⟩

/-- Whether every member lies within `-1` and `1`. -/
def isSmall (p : Nat) (a : Enclosure) : Bool := -Nat.pow 2 p ≤ a.lo && a.hi ≤ Nat.pow 2 p

/-- The double nearest to every member. -/
def nearest? (p : Nat) (a : Enclosure) : Option Binary64 :=
  let round (negative : Bool) (n : Int) : Binary64 :=
    .ofUnits negative (n.natAbs * Binary64.unitsPerOne) (Nat.pow 2 p)
  let agreed (x y : Binary64) : Option Binary64 := if x = y then some x else none
  if 0 ≤ a.lo then agreed (round false a.lo) (round false a.hi)
  else if a.hi ≤ 0 then agreed (round true a.lo) (round true a.hi)
  else none

/-!
## Power series by nested tails

Each series here satisfies a law that gives a tail from the next one: multiply by a small factor,
add a constant. All tails lie between known bounds, so starting there and applying the law from
the inside out gives an enclosure of the sum of the whole series, however few steps are taken;
more steps only make it narrower.
-/

/-- Steps after which the first bound has no effect on `p` binary places, for factors up to one
ninth. -/
def seriesSteps (p : Nat) : Nat := p / 3 + 8

/-- `1 + r/k + r²/(k(k+1)) + …` for `|r| ≤ 1/2`, all of whose tails lie between zero and two. -/
def exponentialTail (p : Nat) (r : Enclosure) : Nat → Nat → Enclosure
  | 0, _ => ⟨0, 2 * Nat.pow 2 p⟩
  | steps + 1, k => (ofInt p 1).add ((mul p r (exponentialTail p r steps (k + 1))).divNat k)

/-- `1/(2k+1) + z/(2k+3) + z²/(2k+5) + …` for `|z| ≤ 1/9`, all of whose tails lie between zero and
two. -/
def oddReciprocalTail (p : Nat) (z : Enclosure) : Nat → Nat → Enclosure
  | 0, _ => ⟨0, 2 * Nat.pow 2 p⟩
  | steps + 1, k => (ofQuotient p 1 (2 * k + 1)).add (mul p z (oddReciprocalTail p z steps (k + 1)))

/-- `1 - z/((j+1)(j+2)) + z²/((j+1)(j+2)(j+3)(j+4)) - …` for `0 ≤ z ≤ 1`, all of whose tails lie
between zero and one. -/
def circularTail (p : Nat) (z : Enclosure) : Nat → Nat → Enclosure
  | 0, _ => ⟨0, Nat.pow 2 p⟩
  | steps + 1, j =>
    (ofInt p 1).sub ((mul p z (circularTail p z steps (j + 2))).divNat ((j + 1) * (j + 2)))

/-- The inverse hyperbolic tangent of numbers within a third of zero. -/
def artanh (p : Nat) (t : Enclosure) : Enclosure :=
  mul p t (oddReciprocalTail p (mul p t t) (seriesSteps p) 0)

/-- The inverse tangent of numbers within a third of zero. -/
def arctanNearZero (p : Nat) (t : Enclosure) : Enclosure :=
  mul p t (oddReciprocalTail p (mul p t t).neg (seriesSteps p) 0)

/-!
## Circular functions and their inverses

The argument of sine and cosine is reduced by the nearest multiple of a quarter turn, computed
with as many more places as the argument has before the point. The inverse tangent halves its
argument's angle three times before the series is summed, and takes the complement of arguments
beyond one.
-/

/-- A half turn, as `16 · arctan (1/5) - 4 · arctan (1/239)`. -/
def halfTurn (p : Nat) : Enclosure :=
  let fifth := arctanNearZero p (ofQuotient p 1 5)
  let small := arctanNearZero p (ofQuotient p 1 239)
  (fifth.scale 16).sub (small.scale 4)

def quarterTurn (p : Nat) : Enclosure := (halfTurn p).divNat 2

/-- Sine and cosine of the exact quotient `n / d`, with `p` places. -/
def sinCos? (p : Nat) (n : Int) (d : Nat) : Option (Enclosure × Enclosure) :=
  let q := quarterTurn p
  let x := ofQuotient p n d
  let k := (2 * x.lo + q.lo) / (2 * q.lo)
  let r := x.sub (q.scale k)
  if r.isSmall p then
    let z := mul p r r
    let sine := mul p r (circularTail p z (seriesSteps p) 1)
    let cosine := circularTail p z (seriesSteps p) 0
    some <|
      if k % 4 = 0 then (sine, cosine)
      else if k % 4 = 1 then (cosine, sine.neg)
      else if k % 4 = 2 then (sine.neg, cosine.neg)
      else (cosine.neg, sine)
  else none

/-- The tangent of half the angle whose tangent is given. -/
def halfAngle (p : Nat) (t : Enclosure) : Enclosure :=
  divPositive p t ((ofInt p 1).add (sqrt p ((ofInt p 1).add (mul p t t))))

/-- The inverse tangent of numbers near or below one in size. -/
def arctanInner (p : Nat) (t : Enclosure) : Enclosure :=
  (arctanNearZero p (halfAngle p (halfAngle p (halfAngle p t)))).scale 8

def arctan? (p : Nat) (t : Enclosure) : Option Enclosure :=
  if t.lo > Nat.pow 2 p then do
    let inverse ← div? p (ofInt p 1) t
    return (quarterTurn p).sub (arctanInner p inverse)
  else if t.hi < -Nat.pow 2 p then do
    let inverse ← div? p (ofInt p 1) t
    return (quarterTurn p).neg.sub (arctanInner p inverse)
  else if (t.divNat 2).isSmall p then some (arctanInner p t)
  else none

/-!
## Exponential and logarithm

Both are reduced by powers of two: `e ^ x` is `2 ^ k · e ^ r` with `|r| ≤ 1/2`, and the logarithm
of `m · 2 ^ k` with `m` between `3/4` and `3/2` is `k · ln 2 + 2 · artanh ((m - 1)/(m + 1))`.
-/

/-- The natural logarithm of two, as `2 · artanh (1/3)`. -/
def lnTwo (p : Nat) : Enclosure := (artanh p (ofQuotient p 1 3)).scale 2

/-- The natural logarithm of a positive quotient. -/
def ln (p n d : Nat) : Enclosure :=
  let k : Int := (n.log2 : Int) - d.log2
  let (n, d) := if 0 ≤ k then (n, d * Nat.pow 2 k.toNat) else (n * Nat.pow 2 (-k).toNat, d)
  -- Now `n / d` lies between one half and two.
  let (n, d, k) :=
    if 2 * n ≥ 3 * d then (n, 2 * d, k + 1)
    else if 4 * n < 3 * d then (2 * n, d, k - 1)
    else (n, d, k)
  let t := ofQuotient p ((n : Int) - d) (n + d)
  ((lnTwo p).scale k).add ((artanh p t).scale 2)

/-- Beyond this bound the exponential is nearer to infinity, or to zero, than to any other double.
-/
def exponentBound : Nat := 1000

/-- The exponential of each member, once brought within the bound. There is none when the places
do not tell which power of two to take out. -/
def exp? (p : Nat) (x : Enclosure) : Option Enclosure :=
  let x := x.clamp p exponentBound
  let two := lnTwo p
  let k := (2 * x.lo + two.lo) / (2 * two.lo)
  let r := x.sub (two.scale k)
  if (r.scale 2).isSmall p then some ((exponentialTail p r (seriesSteps p) 1).shift k) else none

end Enclosure
end NotationCalculator
