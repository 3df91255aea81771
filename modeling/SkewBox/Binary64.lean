import SkewBox.Bound

/-!
# The binary64 grid

The non-negative finite numbers of IEEE binary64, numbered in increasing
order: number `k` is the one whose 64-bit pattern is `k`.  Stepping to a
neighbour is adding or subtracting one, and every rounding is a search for an
index, carried out in exact integer arithmetic.

* `value k`: the rational number with index `k`; `lastFinite`: the greatest index.
* `floorIndex q`: the greatest index whose value is at most `q`.
* `roundDown`, `roundUp`: the neighbour of a rational below and above it.
* `nearest?`: the index of the nearest number, a tie going to the even index.
* `sqrtDown?`, `sqrtUp?`: numbers of the grid below and above a square root.
-/

namespace SkewBox.Binary64

def pow2 (k : Nat) : Nat := Nat.pow 2 k

/-- The rational number whose bit pattern is `k`.  The formula goes on past the
last finite number, as if the exponent had no upper end. -/
def value (k : Nat) : Rat :=
  let exponent : Nat := k / pow2 52
  let fraction : Nat := k % pow2 52
  let significand : Nat := pow2 52 + fraction
  if exponent = 0 then
    mkRat fraction (pow2 1074)
  else if exponent < 1075 then
    mkRat significand (pow2 (1075 - exponent))
  else
    (significand * pow2 (exponent - 1075) : Nat)

def lastFinite : Nat := 2047 * pow2 52 - 1

/-! ## Finding an index -/

/-- `⌊n · 2^s / d⌋`. -/
def scaledFloor (n d : Nat) (s : Int) : Nat :=
  if 0 ≤ s then n * pow2 s.toNat / d else n / (d * pow2 (-s).toNat)

/-- The `e` with `2^e ≤ n / d < 2^(e+1)`, for positive `n` and `d`. -/
def exponentOf (n d : Nat) : Int :=
  let e : Int := (n.log2 : Int) - d.log2
  if scaledFloor n d (-e) = 0 then e - 1 else e

/-- The index of a number with `significand · 2^scale`, for a significand below `2^53` that
is at least `2^52` unless `scale` is `-1074`. -/
def indexOf (scale : Int) (significand : Nat) : Nat :=
  (scale + 1074).toNat * pow2 52 + significand

/-- Greatest index whose value is at most `n / d`. -/
def floorIndexDiv (n d : Nat) : Nat :=
  if n = 0 then 0
  else
    let scale := max (exponentOf n d - 52) (-1074)
    indexOf scale (scaledFloor n d (-scale))

def floorIndex (q : Rat) : Nat := floorIndexDiv q.num.toNat q.den

/-- Greatest index whose value is at most the square root of `n / d`.  The square
root of a grid number is never subnormal. -/
def floorIndexSqrt (n d : Nat) : Nat :=
  if n = 0 then 0
  else
    let scale := (exponentOf n d).fdiv 2 - 52
    indexOf scale (scaledFloor n d (-2 * scale)).sqrt

/-! ## Directed rounding -/

def belowNonneg (q : Rat) : Rat := value (min (floorIndex q) lastFinite)

def aboveNonneg (q : Rat) : Bound :=
  let k := floorIndex q
  let k := if value k = q then k else k + 1
  if k ≤ lastFinite then .fin (value k) else .posInf

/-- The greatest of `-∞` and the finite binary64 numbers that is at most `q`. -/
def roundDown (q : Rat) : Bound :=
  if 0 ≤ q then .fin (belowNonneg q) else -aboveNonneg (-q)

/-- The least of `+∞` and the finite binary64 numbers that is at least `q`. -/
def roundUp (q : Rat) : Bound :=
  if 0 ≤ q then aboveNonneg q else -Bound.fin (belowNonneg (-q))

/-! ## Rounding to nearest -/

/-- Of the neighbouring indices `k` and `k + 1` the one nearer to a point between
their values; `order` compares the point with the middle of the two. -/
def pickNearest (k : Nat) (order : Ordering) : Nat :=
  match order with
  | .lt => k
  | .gt => k + 1
  | .eq => if k % 2 = 0 then k else k + 1

def orderOf (a b : Rat) : Ordering :=
  if a < b then .lt else if a = b then .eq else .gt

/-- Index of the number nearest to a non-negative `q`, ties going to the even
index; `none` when that is past the last finite number. -/
def nearest? (q : Rat) : Option Nat :=
  let k := floorIndex q
  let k := pickNearest k (orderOf q ((value k + value (k + 1)) / 2))
  if k ≤ lastFinite then some k else none

/-- Index of the number nearest to the square root of `value i`. -/
def nearestSqrt (i : Nat) : Nat :=
  let v := value i
  let k := floorIndexSqrt v.num.toNat v.den
  let middle := (value k + value (k + 1)) / 2
  pickNearest k (orderOf v (middle * middle))

/-! ## Square roots -/

/-- The first index at or below `k`, going down, whose square is at most `q`. -/
def stepDown (q : Rat) : Nat → Nat
  | 0 => 0
  | k + 1 => if value (k + 1) * value (k + 1) ≤ q then k + 1 else stepDown q k

/-- The first index at or above `k`, going up, whose square is at least `q`; no
further than the last finite number. -/
def stepUp (q : Rat) (k : Nat) : Nat :=
  if q ≤ value k * value k then k
  else if k < lastFinite then stepUp q (k + 1)
  else k
termination_by lastFinite - k

/-- A grid number whose square is at most `q`: the square root of the number nearest
to `q`, stepped down as far as needed.  `none` when `q` has no nearest number. -/
def sqrtDown? (q : Rat) : Option Rat :=
  (nearest? q).map fun k => value (stepDown q (nearestSqrt k))

/-- A grid number whose square is at least `q`, found in the same way. -/
def sqrtUp? (q : Rat) : Option Rat :=
  (nearest? q).map fun k => value (stepUp q (nearestSqrt k))

/-! ## Bit patterns -/

inductive Pattern where
  | number (b : Bound)
  | nan
  deriving DecidableEq, Repr

def decode (w : UInt64) : Pattern :=
  let k := w.toNat % pow2 63
  let negative := pow2 63 ≤ w.toNat
  if k ≤ lastFinite then .number (.fin (if negative then -value k else value k))
  else if k = lastFinite + 1 then .number (if negative then .negInf else .posInf)
  else .nan

end SkewBox.Binary64
