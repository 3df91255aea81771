import SkewBox.Interval

/-!
# Non-linear functions on intervals

Enclosures of the square root, the truncated remainder, powers and the conversion
to an integer.  They are exact or lie on the binary64 grid, whatever the
precision of the bounds around them.

* `Interval.sqrt`, `Interval.rem`, `Interval.pow`, `Interval.cast`.
-/

namespace SkewBox.Interval

/-- A rational at or below the square root of the positive bound `b`. -/
def sqrtBelow : Bound → Except Error Rat
  | .fin q =>
    match Binary64.sqrtDown? q with
    | some r => .ok r
    | none => .error (.fault .overflow)
  | _ => .error (.fault .overflow)

/-- A bound at or above the square root of `b`; an infinite one stays. -/
def sqrtAbove : Bound → Except Error Bound
  | .fin q =>
    match Binary64.sqrtUp? q with
    | some r => .ok (.fin r)
    | none => .error (.fault .overflow)
  | b => .ok b

/-- Square roots of the non-negative members.  Fails when a finite end is too large to
have a nearest binary64 number. -/
def sqrt (I : Interval) : Except Error Interval :=
  if I.isBottom || I.hi < .fin 0 then .ok bottom
  else do
    let lo ← if I.lo ≤ .fin 0 then pure 0 else sqrtBelow I.lo
    let hi ← sqrtAbove I.hi
    return ⟨.fin lo, hi⟩

/-- Truncated remainders: the sign of the dividend, a size below the divisor's. -/
def rem (I J : Interval) : Interval :=
  if I.isBottom || J.isBottom then bottom
  else if J.hasZero then top
  else
    let m := J.magnitude
    if .fin 0 ≤ I.lo then ⟨.fin 0, min m I.hi⟩
    else if I.hi ≤ .fin 0 then ⟨max (-m) I.lo, .fin 0⟩
    else ⟨-m, m⟩

def power (I : Interval) : Nat → Interval
  | 0 => point 1
  | k + 1 => (power I k).mul .exact I

def exponent? (J : Interval) : Option Nat :=
  match J.lo with
  | .fin q => if J.isPoint && q.den = 1 && 0 ≤ q then some q.num.toNat else none
  | _ => none

/-- Powers with a natural exponent; everything for any other exponent. -/
def pow (I J : Interval) : Interval :=
  if I.isBottom || J.isBottom then bottom
  else
    match exponent? J with
    | none => top
    | some k =>
      let result := I.power k
      if k % 2 = 0 ∧ 0 < k then result.meet ⟨.fin 0, .posInf⟩ else result

/-- The integers next to the members, whichever way they are rounded. -/
def cast (I : Interval) : Interval :=
  if I.isBottom then I else ⟨I.lo.floor, I.hi.ceil⟩

end SkewBox.Interval
