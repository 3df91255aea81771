import SkewBox.Bound.Read
import SkewBox.Precision

/-!
# Intervals

A closed interval is a pair of bounds, kept as given: a pair whose lower end lies above the
upper one is empty.  Arithmetic rounds outward in the given precision, so that it
encloses every result on members of its operands.

* `Interval`: the type, with `top`, `bottom`, `point` and the reading of data.
* `meet`, `join`, `leq`: the lattice of intervals.
* `add`, `sub`, `scale`, `mul`, `div`: arithmetic.
* `Precision.dot`: a linear combination of intervals.
-/

namespace SkewBox

/-- The rationals between two bounds. -/
structure Interval where
  lo : Bound
  hi : Bound
  deriving DecidableEq, Repr, Inhabited

namespace Interval

/-! ## Construction -/

def top : Interval := ⟨.negInf, .posInf⟩

/-- The usual form of the empty interval. -/
def bottom : Interval := ⟨.fin 1, .fin 0⟩

def point (q : Rat) : Interval := ⟨.fin q, .fin q⟩

def zero : Interval := point 0

def single (b : Bound) : Interval := ⟨b, b⟩

def between (lo hi : Datum) : Except Error Interval := do
  let lo ← Bound.ofDatum lo
  let hi ← Bound.ofDatum hi
  return ⟨lo, hi⟩

/-- The interval that a caller's datum stands for: a pair of bounds or a single one. -/
def ofDatum : Datum → Except Error Interval
  | .list [lo, hi] => between lo hi
  | .list items => .error (.intervalShape (Datum.list items).render)
  | d => return single (← Bound.ofDatum d)

/-! ## Tests -/

def isBottom (I : Interval) : Bool := I.hi < I.lo

def isTop (I : Interval) : Bool := I.lo = .negInf && I.hi = .posInf

def isPoint (I : Interval) : Bool := I.lo = I.hi && I.lo.isFinite

def isZero (I : Interval) : Bool := I.lo = .fin 0 && I.hi = .fin 0

def isBounded (I : Interval) : Bool := I.lo.isFinite && I.hi.isFinite

def contains (I : Interval) (b : Bound) : Bool := I.lo ≤ b && b ≤ I.hi

def hasZero (I : Interval) : Bool := I.contains (.fin 0)

def leq (I J : Interval) : Bool :=
  I.isBottom || (!J.isBottom && J.lo ≤ I.lo && I.hi ≤ J.hi)

/-! ## Lattice -/

def meet (I J : Interval) : Interval :=
  let lo := max I.lo J.lo
  let hi := min I.hi J.hi
  if hi < lo then bottom else ⟨lo, hi⟩

/-- The least interval around both. -/
def join (I J : Interval) : Interval :=
  if I.isBottom then J
  else if J.isBottom then I
  else ⟨min I.lo J.lo, max I.hi J.hi⟩

/-! ## Arithmetic -/

def neg (I : Interval) : Interval :=
  if I.isBottom then I else ⟨-I.hi, -I.lo⟩

def add (p : Precision) (I J : Interval) : Interval :=
  if I.isBottom || J.isBottom then bottom
  else ⟨p.add .down I.lo J.lo, p.add .up I.hi J.hi⟩

def sub (p : Precision) (I J : Interval) : Interval := I.add p J.neg

def scale (p : Precision) (c : Rat) (I : Interval) : Interval :=
  if I.isBottom then I
  else if c = 0 then zero
  else if 0 < c then ⟨p.mul .down (.fin c) I.lo, p.mul .up (.fin c) I.hi⟩
  else ⟨p.mul .down (.fin c) I.hi, p.mul .up (.fin c) I.lo⟩

/-- Products of members, by the signs of the ends.  The interval `0` comes first, so
that no end is `0 · ∞` afterwards. -/
def mul (p : Precision) (I J : Interval) : Interval :=
  if I.isBottom || J.isBottom then bottom
  else if I.isZero || J.isZero then zero
  else
    let a := I.lo
    let b := I.hi
    let c := J.lo
    let d := J.hi
    let down := p.mul .down
    let up := p.mul .up
    let zero : Bound := .fin 0
    if zero ≤ a then
      if zero ≤ c then ⟨down a c, up b d⟩
      else if d ≤ zero then ⟨down b c, up a d⟩
      else ⟨down b c, up b d⟩
    else if b ≤ zero then
      if zero ≤ c then ⟨down a d, up b c⟩
      else if d ≤ zero then ⟨down b d, up a c⟩
      else ⟨down a d, up a c⟩
    else if zero ≤ c then ⟨down a d, up b d⟩
    else if d ≤ zero then ⟨down b c, up a c⟩
    else ⟨min (down a d) (down b c), max (up a c) (up b d)⟩

/-- Quotients of members; everything when the divisor may be zero. -/
def div (p : Precision) (I J : Interval) : Interval :=
  if I.isBottom || J.isBottom then bottom
  else if J.hasZero then top
  else I.mul p ⟨p.div .down (.fin 1) J.hi, p.div .up (.fin 1) J.lo⟩

/-- A rational of the interval: the middle of two finite ends, the finite end, or `0`. -/
def midpoint (I : Interval) : Rat :=
  match I.lo, I.hi with
  | .fin a, .fin b => (a + b) / 2
  | .fin a, _ => a
  | _, .fin b => b
  | _, _ => 0

def magnitude (I : Interval) : Bound := max I.lo.abs I.hi.abs

def tighten (I : Interval) : Interval := ⟨I.lo.ceil, I.hi.floor⟩

def render (I : Interval) : String :=
  if I.isBottom then "[⊥]" else "[" ++ I.lo.render ++ ", " ++ I.hi.render ++ "]"

end Interval

/-- The sum of `cᵢ · Iᵢ`, rounded outward; terms with a zero coefficient are left out. -/
def Precision.dot (p : Precision) (cs : List Rat) (Is : List Interval) : Interval :=
  (cs.zip Is).foldl (fun acc (c, I) =>
    if c = 0 then acc
    else
      let term := I.scale p c
      ⟨p.add .down acc.lo term.lo, p.add .up acc.hi term.hi⟩) .zero

end SkewBox
