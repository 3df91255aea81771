/-!
# Bounds

A bound is a rational number or one of the two infinities.  Bounds are totally
ordered with `-∞` below and `+∞` above every rational.

* `Bound`: the type, its order, `min` and `max`.
* `Bound.ceil`, `Bound.floor`: rounding to integers, infinities unchanged.
* `Bound.render`: the text of a bound, with `±∞` for the infinities.
-/

namespace SkewBox

/-- A rational number or an infinity. -/
inductive Bound where
  | negInf
  | fin (q : Rat)
  | posInf
  deriving DecidableEq, Repr, Inhabited

namespace Bound

instance : Coe Rat Bound := ⟨Bound.fin⟩

/-! ## Order -/

def Le : Bound → Bound → Prop
  | negInf, _ => True
  | _, posInf => True
  | fin a, fin b => a ≤ b
  | _, _ => False

instance : LE Bound := ⟨Le⟩

/-- `a` lies strictly below `b`: the order is total, so this is "not at or above". -/
instance : LT Bound := ⟨fun a b => ¬ b ≤ a⟩

instance decidableLe : (a b : Bound) → Decidable (a ≤ b)
  | negInf, _ => .isTrue trivial
  | fin _, posInf => .isTrue trivial
  | posInf, posInf => .isTrue trivial
  | fin a, fin b => inferInstanceAs (Decidable (a ≤ b))
  | fin _, negInf => .isFalse id
  | posInf, negInf => .isFalse id
  | posInf, fin _ => .isFalse id

instance decidableLt (a b : Bound) : Decidable (a < b) :=
  inferInstanceAs (Decidable (¬ b ≤ a))

instance : Min Bound := ⟨fun a b => if a ≤ b then a else b⟩

instance : Max Bound := ⟨fun a b => if a ≤ b then b else a⟩

@[simp] theorem negInf_le (b : Bound) : negInf ≤ b := trivial

@[simp] theorem le_posInf : (b : Bound) → b ≤ posInf
  | negInf => trivial
  | fin _ => trivial
  | posInf => trivial

@[simp] theorem fin_le_fin {a b : Rat} : fin a ≤ fin b ↔ a ≤ b := Iff.rfl

@[simp] theorem not_fin_le_negInf {a : Rat} : ¬ fin a ≤ negInf := id

@[simp] theorem not_posInf_le_fin {a : Rat} : ¬ posInf ≤ fin a := id

@[simp] theorem not_posInf_le_negInf : ¬ posInf ≤ negInf := id

theorem lt_iff_not_le {a b : Bound} : a < b ↔ ¬ b ≤ a := Iff.rfl

/-! ## Parts of a bound -/

def isFinite : Bound → Bool
  | fin _ => true
  | _ => false

def toRat? : Bound → Option Rat
  | fin q => some q
  | _ => none

def sign : Bound → Int
  | negInf => -1
  | posInf => 1
  | fin q => if 0 < q then 1 else if q < 0 then -1 else 0

def neg : Bound → Bound
  | negInf => posInf
  | fin q => fin (-q)
  | posInf => negInf

instance : Neg Bound := ⟨neg⟩

def abs : Bound → Bound
  | fin q => fin q.abs
  | _ => posInf

def ceil : Bound → Bound
  | fin q => fin q.ceil
  | b => b

def floor : Bound → Bound
  | fin q => fin q.floor
  | b => b

def compare (a b : Bound) : Int :=
  if a < b then -1 else if b < a then 1 else 0

/-! ## Text -/

/-- `p` for an integer and `p/q` in lowest terms for any other rational. -/
def renderRat (q : Rat) : String :=
  if q.den = 1 then toString q.num else s!"{q.num}/{q.den}"

def render : Bound → String
  | negInf => "-∞"
  | fin q => renderRat q
  | posInf => "+∞"

end Bound

end SkewBox
