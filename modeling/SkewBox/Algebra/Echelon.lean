import SkewBox.Algebra.Mat

/-!
# Echelon form

An echelon form collects independent rows one at a time, each reduced by the
earlier ones and scaled so that its first non-zero entry is one.

* `Echelon.reduce`: a row minus its part in the span of the collected rows.
* `Echelon.add`: collects a row if it is independent.
* `Mat.rank`, `Mat.isInvertible`.
* `Mat.completion`: the unit vectors that extend independent rows to a basis.

A row that is too short to have an entry in some pivot column cannot be reduced.
-/

namespace SkewBox

/-- Independent rows with the places of their leading ones. -/
structure Echelon where
  size : Nat
  rows : List (Vec × Nat)
  deriving Repr

namespace Echelon

def empty (size : Nat) : Echelon := ⟨size, []⟩

/-- `v` with its entries in the pivot columns of `rows` cleared in turn. -/
def reduceBy : List (Vec × Nat) → Vec → Except Error Vec
  | [], v => .ok v
  | (row, col) :: rest, v =>
    match v[col]? with
    | none => .error (.fault .index)
    | some f => reduceBy rest (if f = 0 then v else Vec.addScaled (-f) v row)

def reduce (e : Echelon) (v : Vec) : Except Error Vec := reduceBy e.rows v

/-- Collects the row `v` if it is independent, and tells whether it is. -/
def add (e : Echelon) (v : Vec) : Except Error (Bool × Echelon) := do
  let v ← e.reduce v
  match v.pivot? with
  | none => return (false, e)
  | some col => return (true, { e with rows := e.rows ++ [(v.map (· / v.getD col 0), col)] })

def isIndependent (e : Echelon) (v : Vec) : Except Error Bool := do
  return !(← e.reduce v).isZero

def full (e : Echelon) : Bool := e.rows.length = e.size

def addAll (e : Echelon) (rows : List Vec) : Except Error Echelon :=
  rows.foldlM (fun e v => return (← e.add v).2) e

end Echelon

namespace Mat

def rank (m : Mat) : Except Error Nat := do
  return (← (Echelon.empty m.width).addAll m).rows.length

def isInvertible (m : Mat) : Except Error Bool := do
  return m.isEmpty || (← m.rank) = m.length

/-- One unit vector is tried: collected when it is independent and the form is not full. -/
def completeStep (n : Nat) (state : Echelon × List Nat) (i : Nat) :
    Except Error (Echelon × List Nat) := do
  let (e, picked) := state
  if e.full then return state
  let (independent, e) ← e.add (Vec.unit n i)
  return (e, if independent then picked ++ [i] else picked)

/-- The places of the unit vectors that extend independent rows to a basis. -/
def completion (rows : Mat) (n : Nat) : Except Error (List Nat) := do
  let e ← (Echelon.empty n).addAll rows
  return (← (List.range n).foldlM (completeStep n) (e, [])).2

end Mat

end SkewBox
