/-!
# Limits

What the environment allows when integers are turned into digits and back, and when a text with
lists inside lists is read.

* `Limits`: the two limits; nothing stands for no limit.
-/

namespace SkewBox

/-- The digits that an integer may have, and the lists and records that may be open at once. -/
structure Limits where
  digits : Option Nat := some 4300
  depth : Option Nat := none
  deriving DecidableEq, Repr

namespace Limits

/-- Whether an integer of so many digits can be read and written. -/
def spells (limits : Limits) (count : Nat) : Bool := limits.digits.all (count ≤ ·)

/-- Whether another list or record may be opened inside so many others. -/
def opens (limits : Limits) (level : Nat) : Bool := limits.depth.all (level < ·)

end Limits

end SkewBox
