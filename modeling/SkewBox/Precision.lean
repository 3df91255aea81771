import SkewBox.Binary64
import SkewBox.Bound

/-!
# Directed rounding

Bounds are computed either exactly or on the binary64 grid.  Every operation
takes the direction in which a result that is not representable moves.  A
combination without a value (`+∞ + -∞`, `0 · ∞`, `∞ / ∞`, `x / 0`) gives the widest
bound in that direction.

* `Rounding`, `Precision`: the direction and the grid.
* `Precision.add`, `sub`, `mul`, `div`: arithmetic on bounds.
-/

namespace SkewBox

/-- Toward `-∞` for lower ends, toward `+∞` for upper ends. -/
inductive Rounding where
  | down
  | up
  deriving DecidableEq, Repr

def Rounding.widest : Rounding → Bound
  | .down => .negInf
  | .up => .posInf

/-- The numbers that finite bounds may be. -/
inductive Precision where
  | exact
  | binary64
  deriving DecidableEq, Repr

namespace Precision

/-- The representable bound next to the rational `q` in direction `r`. -/
def roundRat (p : Precision) (r : Rounding) (q : Rat) : Bound :=
  match p, r with
  | exact, _ => .fin q
  | binary64, .down => Binary64.roundDown q
  | binary64, .up => Binary64.roundUp q

/-! ## Arithmetic on bounds -/

def round (p : Precision) (r : Rounding) : Bound → Bound
  | .fin q => p.roundRat r q
  | b => b

def add (p : Precision) (r : Rounding) : Bound → Bound → Bound
  | .fin a, .fin b => p.roundRat r (a + b)
  | .posInf, .negInf => r.widest
  | .negInf, .posInf => r.widest
  | .fin _, b => b
  | a, _ => a

def sub (p : Precision) (r : Rounding) (a b : Bound) : Bound := p.add r a (-b)

/-- The infinity with the sign of the product of `a` and `b`. -/
def infinityOf (a b : Bound) : Bound := if 0 < a.sign * b.sign then .posInf else .negInf

def mul (p : Precision) (r : Rounding) (a b : Bound) : Bound :=
  match a, b with
  | .fin x, .fin y => p.roundRat r (x * y)
  | _, _ => if a = .fin 0 ∨ b = .fin 0 then r.widest else infinityOf a b

def div (p : Precision) (r : Rounding) (a b : Bound) : Bound :=
  if b = .fin 0 then r.widest
  else
    match a, b with
    | .fin x, .fin y => p.roundRat r (x / y)
    | .fin _, _ => .fin 0
    | _, .fin _ => infinityOf a b
    | _, _ => r.widest

def render : Precision → String
  | exact => "BoundArith(RATIONAL)"
  | binary64 => "BoundArith(FLOAT)"

end Precision

end SkewBox
