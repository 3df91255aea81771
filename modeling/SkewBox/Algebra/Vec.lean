import SkewBox.Error

/-!
# Rational vectors

Vectors are lists of rationals.  Operations on two vectors stop at the end of the
shorter one.

* `Vec.zeros`, `Vec.unit`: the zero vector and the unit vectors.
* `Vec.dot`, `Vec.addScaled`: the inner product and `v + c · w`.
* `Vec.support`: the places of the non-zero entries.
* `Vec.ratio?`, `Vec.normalize`: comparing directions up to a factor.
-/

namespace SkewBox

/-- A vector of rationals. -/
abbrev Vec := List Rat

/-- The place that a possibly negative index names in a list of length `n`: negative
indices count from the end. -/
def place? (n : Nat) (i : Int) : Option Nat :=
  if 0 ≤ i then (if i < n then some i.toNat else none)
  else if -(n : Int) ≤ i then some (i + n).toNat
  else none

def lookup {α : Type} (xs : List α) (i : Int) : Except Error α :=
  match (place? xs.length i).bind fun k => xs[k]? with
  | some x => .ok x
  | none => .error (.fault .index)

namespace Vec

def zeros (n : Nat) : Vec := List.replicate n 0

def unit (n i : Nat) : Vec := (zeros n).set i 1

def unitAt (n : Nat) (i : Int) : Except Error Vec :=
  match place? n i with
  | some k => .ok (unit n k)
  | none => .error (.fault .index)

def isZero (v : Vec) : Bool := v.all (· = 0)

def support (v : Vec) : List Nat :=
  (v.zipIdx.filter fun (x, _) => x ≠ 0).map (·.2)

/-! ## Linear operations -/

def dot (v w : Vec) : Rat := (List.zipWith (· * ·) v w).foldr (· + ·) 0

def addScaled (c : Rat) (v w : Vec) : Vec := List.zipWith (fun x y => x + c * y) v w

def scale (c : Rat) (v : Vec) : Vec := v.map (c * ·)

def neg (v : Vec) : Vec := v.map (- ·)

def leading? (v : Vec) : Option Rat := v.find? (· ≠ 0)

def pivot? (v : Vec) : Option Nat := v.findIdx? (· ≠ 0)

/-- The factor of one entry pair, as long as it agrees with the one found so far: `none`
when the vectors are not parallel. -/
def ratioStep (found : Option Rat) (x y : Rat) : Option (Option Rat) :=
  if x = 0 then (if y = 0 then some found else none)
  else
    match found with
    | none => some (some (y / x))
    | some k => if y / x = k then some (some k) else none

/-- The non-zero `k` with `w = k · v`, if there is one. -/
def ratio? (v w : Vec) : Option Rat :=
  match (v.zip w).foldlM (fun found (x, y) => ratioStep found x y) none with
  | some (some k) => if k = 0 then none else some k
  | _ => none

def normalize (v : Vec) : Vec :=
  match v.leading? with
  | none => v
  | some c => v.map (· / c)

end Vec

end SkewBox
