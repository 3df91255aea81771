import SkewBox.Constraint
import SkewBox.Query

/-!
# Union

The union of two values is enclosed in the axes of the first: the range of each axis
grows by its range over the second.  Rays and lines remove the ends of the ranges that grow
along them.

* `join`, `joinArray`: enclosure of a union.
* `addRays`: closure under rays and lines.
-/

namespace SkewBox.Parallelotope

/-- The range of every axis of `f` over `g`. -/
def rangesOver (cfg : Settings) (g f : Frame) : Op (List Interval) := do
  if f.axes.isEmpty then return []
  else
    let g ← Op.invert g
    f.axes.mapM (g.boundDirection cfg ·)

/-- An enclosure of the union in the axes of `a`; exact if `b`, the operand at place `k`, lies
in `a`. -/
def joinAt (cfg : Settings) (k : Nat) (a b : Parallelotope) : Op Parallelotope := do
  a.checkSpace b
  match a.frame?, b.frame? with
  | _, none => return a
  | none, some _ => Op.move b
  | some f, some g => do
    if !(← Op.about k (b.leq cfg a)) then Op.inexact
    let other ← Op.about k (rangesOver cfg g f)
    Op.refit a.space { f with ranges := List.zipWith Interval.join f.ranges other }

/-- An enclosure of the union of two values in the axes of the first. -/
def join (cfg : Settings) (a b : Parallelotope) : Op Parallelotope := joinAt cfg 1 a b

/-- An enclosure of the union of a value with those of a list, which stand from place `k` on. -/
def joinFrom (cfg : Settings) (k : Nat) (a : Parallelotope) :
    List Parallelotope → Op Parallelotope
  | [] => return a
  | b :: rest => do joinFrom cfg (k + 1) (← joinAt cfg k a b) rest

/-- An enclosure of the union of a non-empty list, from left to right. -/
def joinArray (cfg : Settings) : List Parallelotope → Op Parallelotope
  | [] => throw .emptyJoin
  | a :: rest => joinFrom cfg 1 a rest

/-! ## Rays and lines -/

def checkRay (s : Space) (g : Generator) : Except Error Unit :=
  if g.kind = .vertex then .error .vertexAsRay
  else if g.kind.isModular then .error (.modularGenerator g.render)
  else if g.coords.length ≠ s.size then .error (.generatorSize g.render)
  else .ok ()

/-- A range without the end towards which a step of `v` grows; both ends for a line. -/
def extend (line : Bool) (v : Rat) (I : Interval) : Interval :=
  if v = 0 then I
  else ⟨if line || v < 0 then .negInf else I.lo, if line || 0 < v then .posInf else I.hi⟩

/-- Adds one ray or line; exact if it moves along a single row. -/
def addRay (f : Frame) (g : Generator) : Op Frame := do
  let v := Mat.mulVec f.axes g.coords
  if 1 < v.support.length then Op.inexact
  return { f with ranges := List.zipWith (extend (g.kind = .line)) v f.ranges }

def addRays (a : Parallelotope) (gens : List Generator) : Op Parallelotope := do
  gens.forM fun g => checkRay a.space g
  match a.frame? with
  | none => return a
  | some f => Op.put a.space ⟨← gens.foldlM addRay f, false⟩

end SkewBox.Parallelotope
