import SkewBox.Interval.Functions
import SkewBox.Term

/-!
# Linearisation

A term becomes an affine expression that encloses it.  Sums, negations, products
with a constant and quotients by a constant other than zero stay symbolic; any other
operation is replaced by the interval of its values, which a given function bounds.

* `Term.linearize`: linearisation relative to a bounding function.
-/

namespace SkewBox.Term

variable {m : Type → Type} [Monad m] [MonadExceptOf Error m]

/-- The result of a computation that may fail, in any monad with failures. -/
def lift {α : Type} : Except Error α → m α
  | .ok a => pure a
  | .error e => throw e

/-- The product of two affine expressions: exact when one is constant. -/
def linearMul (bound : Affine → m Interval) (left right : Affine) : m Affine :=
  if right.isConstant then pure (left.scale right.const)
  else if left.isConstant then pure (right.scale left.const)
  else return left.scale (← bound right)

/-- The quotient of two affine expressions: exact when the divisor is a constant other than zero. -/
def linearDiv (bound : Affine → m Interval) (left right : Affine) : m Affine :=
  if right.isConstant && !right.const.hasZero then
    pure (left.scale ((Interval.point 1).div .exact right.const))
  else do
    let I ← bound left
    let J ← bound right
    return .constant (I.div .exact J)

/-- An affine expression that encloses the term wherever `bound` encloses affine expressions. -/
def linearize (bound : Affine → m Interval) : Term → m Affine
  | const I => pure (.constant I)
  | var d => pure (.var d (.point 1))
  | un .neg arg => return (← linearize bound arg).negate
  | un .sqrt arg => do
    let I ← bound (← linearize bound arg)
    return .constant (← lift I.sqrt)
  | un .cast arg => return .constant (← bound (← linearize bound arg)).cast
  | bin op left right => do
    let left ← linearize bound left
    let right ← linearize bound right
    match op with
    | .add => pure (left.add right)
    | .sub => pure (left.sub right)
    | .mul => linearMul bound left right
    | .div => linearDiv bound left right
    | .rem => do
      let I ← bound left
      let J ← bound right
      return .constant (I.rem J)
    | .pow => do
      let I ← bound left
      let J ← bound right
      return .constant (I.pow J)

end SkewBox.Term
