import SkewBox.Algebra.Vec

/-!
# Rational matrices

A matrix is the list of its rows.  Inverses are found by Gauss–Jordan elimination on the
matrix with the identity beside it.

* `Mat.vecMat`, `Mat.mulVec`, `Mat.mul`: products.
* `Mat.invert?`: the inverse of a square matrix, `none` for a singular one.
-/

namespace SkewBox

/-- A matrix, given by its rows. -/
abbrev Mat := List Vec

namespace Mat

def identity (n : Nat) : Mat := (List.range n).map (Vec.unit n)

def width : Mat → Nat
  | [] => 0
  | row :: _ => row.length

def vecMat (v : Vec) (m : Mat) : Vec :=
  (List.range m.width).map fun j => Vec.dot v (m.map (·.getD j 0))

/-- Whether every row that `v` gives weight to is as wide as the first one. -/
def spans (v : Vec) (m : Mat) : Bool :=
  (v.zip m).all fun (x, row) => x = 0 || m.width ≤ row.length

/-- The row vector `v · m`; fails on a row that is too short. -/
def vecMatChecked (v : Vec) (m : Mat) : Except Error Vec :=
  if spans v m then .ok (vecMat v m) else .error (.fault .index)

def mulVec (m : Mat) (v : Vec) : Vec := m.map (Vec.dot · v)

/-- The product of two matrices; fails on a row of the second that is too short. -/
def mul (a b : Mat) : Except Error Mat := a.mapM (vecMatChecked · b)

def column (m : Mat) (j : Int) : Except Error Vec := m.mapM (lookup · j)

def entry (m : Mat) (i j : Nat) : Rat := (m.getD i []).getD j 0

/-! ## Inverse -/

def augment (m : Mat) : Mat :=
  m.mapIdx fun i row => row ++ Vec.unit m.length i

/-- The first row at or below `col` with a non-zero entry in column `col`. -/
def pivotRow? (m : Mat) (col : Nat) : Option Nat :=
  (List.range' col (m.length - col)).find? fun r => m.entry r col ≠ 0

def swapRows (m : Mat) (i j : Nat) : Mat :=
  (m.set i (m.getD j [])).set j (m.getD i [])

/-- Makes column `col` a unit column, given that row `col` has a non-zero entry there. -/
def clearColumn (m : Mat) (col : Nat) : Mat :=
  let row := (m.getD col []).map (· / m.entry col col)
  m.mapIdx fun r other =>
    if r = col then row
    else
      let f := other.getD col 0
      if f = 0 then other else Vec.addScaled (-f) other row

def eliminate? (m : Mat) (col : Nat) : Option Mat :=
  (m.pivotRow? col).map fun r => (m.swapRows col r).clearColumn col

def invert? (m : Mat) : Option Mat :=
  ((List.range m.length).foldlM eliminate? m.augment).map fun work =>
    work.map (·.drop m.length)

end Mat

end SkewBox
