import SkewBox.Op

/-!
# Forgetting dimensions

Forgetting a dimension eliminates it from every row that mentions it.  One of these rows is
the pivot: the tightest, measured against its coefficient of the dimension, bounded
ones first.  The others lose the dimension by subtracting a multiple of the pivot,
and the pivot becomes the unit row of the dimension.  This is exact for at most two rows.

* `Frame.mentioning`, `Frame.pivotFor?`: the rows concerned and the pivot.
* `Frame.forgetOne`, `Frame.forgetAll`: one dimension, and several in turn.
* `Parallelotope.forget`: the operation on values.
-/

namespace SkewBox

namespace Frame

/-- The rows that mention dimension `d`; fails on a row that is too short to tell. -/
def mentioning (f : Frame) (d : Nat) : Except Error (List Nat) :=
  if f.axes.all fun row => d < row.length then
    .ok ((f.axes.zipIdx.filter fun (row, _) => row.getD d 0 ≠ 0).map (·.2))
  else .error (.fault .index)

/-- The width of row `i` measured against its coefficient of `d`; none if it is unbounded. -/
def weight? (f : Frame) (d i : Nat) : Option Rat :=
  match f.ranges.getD i .top with
  | ⟨.fin lo, .fin hi⟩ => some ((hi - lo) / (f.axes.entry i d).abs)
  | _ => none

/-- Whether a row of weight `v` is preferred to an earlier one of weight `w`. -/
def lighter (v w : Option Rat) : Bool :=
  match v, w with
  | some x, some y => x < y
  | some _, none => true
  | none, _ => false

/-- The pivot among `rows`: least weight, the first of several. -/
def pivotFor? (f : Frame) (d : Nat) : List Nat → Option Nat
  | [] => none
  | i :: is => some (is.foldl (fun best j =>
      if lighter (f.weight? d j) (f.weight? d best) then j else best) i)

/-- Eliminates dimension `d` from a row other than the pivot `(prow, I)`. -/
def eliminate (p : Precision) (d : Nat) (pivot : Direction) (row : Direction) : Direction :=
  let factor := row.1.getD d 0 / pivot.1.getD d 0
  if factor = 0 then row
  else (Vec.addScaled (-factor) row.1 pivot.1, row.2.sub p (pivot.2.scale p factor))

/-- The frame with `d` eliminated from all rows but the pivot `p`, which becomes the unit row of
`d`: unrestricted, or zero when projecting. -/
def eliminateAll (cfg : Settings) (s : Space) (f : Frame) (d p : Nat) (project : Bool) : Frame :=
  let pivot : Direction := (f.axes.getD p [], f.ranges.getD p .top)
  let rows := f.rows.mapIdx fun i row =>
    if i = p then (Vec.unit s.size d, if project then .zero else .top)
    else eliminate cfg.precision d pivot row
  ⟨rows.map (·.1), rows.map (·.2), none⟩

/-- Forgets dimension `d`; also gives the row that now reads it alone. -/
def forgetOne (cfg : Settings) (s : Space) (project : Bool) (f : Frame) (d : Nat) :
    Op (Frame × Nat) := do
  let rows ← f.mentioning d
  match f.pivotFor? d rows with
  | none => throw (.fault .value)
  | some p => do
    if 2 < rows.length then Op.inexact
    return (f.eliminateAll cfg s d p project, p)

/-- Forgets dimensions in turn; also gives the rows that now read them alone. -/
def forgetAll (cfg : Settings) (s : Space) (project : Bool) :
    List Nat → Frame → Op (Frame × List Nat)
  | [], f => return (f, [])
  | d :: ds, f => do
    let (f, p) ← f.forgetOne cfg s project d
    Op.write s ⟨f, false⟩
    let (f, ps) ← forgetAll cfg s project ds f
    return (f, p :: ps)

end Frame

namespace Parallelotope

/-- Forgets dimensions: they become unrestricted, or zero when projecting. -/
def forget (cfg : Settings) (a : Parallelotope) (dims : List Datum) (project : Bool) :
    Op Parallelotope := do
  let dims ← a.space.checkDistinct dims
  match a.frame? with
  | none => return a
  | some f =>
    let (f, _) ← f.forgetAll cfg a.space project dims
    Op.put a.space (f.normalize cfg a.space)

end Parallelotope

end SkewBox
