import SkewBox.Query

/-!
# Intersection

Intersecting a frame with `r · x ∈ I`, where `r` has the row coordinates `λ`:

1. `λ` has one non-zero entry: that row is narrowed, which is exact.
2. Some row with a non-zero entry is unrestricted: the one with the greatest entry is
   replaced by `r`, which is exact.
3. Otherwise every row with a non-zero entry is narrowed to what `I` and the other
   rows allow, which keeps every point of the intersection.

* `Frame.meetDirection`, `Frame.meetAll`: one direction, and several in turn.
* `Parallelotope.meet`, `Parallelotope.meetArray`: intersection of values.
-/

namespace SkewBox

namespace Frame

/-- Of the rows in `candidates` the one with the greatest entry of `λ`, the first of several. -/
def strongest (lam : Vec) : List Nat → Option Nat
  | [] => none
  | k :: ks => some (ks.foldl (fun best i =>
      if (lam.getD best 0).abs < (lam.getD i 0).abs then i else best) k)

/-- The range that row `k` may have when `λ · rows` lies in `target` and the other rows keep
their ranges. -/
def allowed (p : Precision) (lam : Vec) (target : Interval) (Is : List Interval) (k : Nat) :
    Interval :=
  (target.sub p (p.dot (lam.set k 0) Is)).scale p (1 / lam.getD k 0)

/-- Narrows the rows in turn to what `target` allows, up to the first empty one; tells
whether there is one. -/
def propagate (p : Precision) (lam : Vec) (target : Interval) :
    List Nat → List Interval → List Interval × Bool
  | [], Is => (Is, false)
  | k :: ks, Is =>
    let I := (Is.getD k .top).meet (allowed p lam target Is k)
    if I.isBottom then (Is.set k I, true) else propagate p lam target ks (Is.set k I)

/-- Intersects with a direction whose row coordinates are `lam` and have several non-zero
entries, none of them in an unrestricted row. -/
def meetSkew (cfg : Settings) (s : Space) (f : Frame) (lam : Vec) (I : Interval) : Op Cut := do
  let current := cfg.precision.dot lam f.ranges
  let target := I.meet current
  if target.isBottom then return ⟨f, true⟩
  if target = current then return ⟨f, false⟩
  Op.inexact
  let (ranges, empty) := propagate cfg.precision lam target lam.support f.ranges
  let f := { f with ranges }
  return if empty then ⟨f, true⟩ else f.normalize cfg s

/-- Intersects with a direction whose row coordinates are `lam`; fails if they go beyond the
rows. -/
def meetCoords (cfg : Settings) (s : Space) (f : Frame) (r lam : Vec) (I : Interval) : Op Cut := do
  if lam.support.any (f.ranges.length ≤ ·) then throw (.fault .index)
  match lam.support with
  | [k] =>
    let J := I.scale cfg.precision (1 / lam.getD k 0)
    return (f.setRange k ((f.ranges.getD k .top).meet J)).normalize cfg s
  | support =>
    match strongest lam (support.filter fun k => (f.ranges.getD k .bottom).isTop) with
    | some k => return (f.setRow k r I).normalize cfg s
    | none => f.meetSkew cfg s lam I

/-- Intersects with `r · x ∈ I`. -/
def meetDirection (cfg : Settings) (s : Space) (f : Frame) (r : Vec) (I : Interval) : Op Cut := do
  if I.isBottom then return ⟨f, true⟩
  if I.isTop then return ⟨f, false⟩
  if r.isZero then return ⟨f, !I.hasZero⟩
  let f ← f.remember
  Op.write s ⟨f, false⟩
  f.meetCoords cfg s r (← f.coords r) I

/-- Intersects with several directions in turn, up to the first that empties the frame. -/
def meetAll (cfg : Settings) (s : Space) : List Direction → Frame → Op Cut
  | [], f => return ⟨f, false⟩
  | (r, I) :: rest, f => do
    let c ← f.meetDirection cfg s r I
    Op.write s c
    if c.empty then return c else meetAll cfg s rest c.frame

/-- Intersects with another frame: row by row when the axes are the same. -/
def meet (cfg : Settings) (s : Space) (f g : Frame) : Op Cut := do
  if f.axes = g.axes then
    let f := { f with ranges := List.zipWith Interval.meet f.ranges g.ranges }
    let _ ← Op.refit s f
    return f.normalize cfg s
  else meetAll cfg s g.rows f

end Frame

namespace Parallelotope

def meetDirection (cfg : Settings) (a : Parallelotope) (r : Vec) (I : Interval) :
    Op Parallelotope := do
  match a.frame? with
  | none => return a
  | some f => Op.put a.space (← f.meetDirection cfg a.space r I)

def meet (cfg : Settings) (a b : Parallelotope) : Op Parallelotope := do
  a.checkSpace b
  match a.frame?, b.frame? with
  | none, _ => return a
  | some _, none => Op.move (bottom a.space)
  | some f, some g => Op.put a.space (← f.meet cfg a.space g)

def meetArray (cfg : Settings) : List Parallelotope → Op Parallelotope
  | [] => throw .emptyMeet
  | a :: rest => rest.foldlM (meet cfg) a

end Parallelotope

end SkewBox
