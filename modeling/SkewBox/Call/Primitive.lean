import SkewBox.Call

/-!
# Primitives

Calls below the level of the domain's operations: they work on the parts of values, without the
checks that keep values well formed.

* `Primitive`: a primitive with its operands.
* `Primitive.run`: runs a primitive.
-/

namespace SkewBox

/-- A primitive with its operands. -/
inductive Primitive where
  | ofParts (s : Space) (axes : Option Mat) (ranges : Option (List Interval))
  | ofRows (s : Space) (axes : Mat) (ranges : List Datum)
  | seed (s : Space) (dirs : List Direction)
  | mergeDirections (dirs : List Direction)
  | render (a : Ref)
  | inverse (a : Ref)
  | coords (a : Ref) (r : Vec)
  | isIntegralRow (a : Ref) (i : Int)
  | boundDirection (a : Ref) (r : Vec)
  | constraintDirections (a : Ref) (cs : List (Constraint Affine))
  | linearizeConstraint (a : Ref) (c : Constraint Term)
  | quasiLinearize (a : Ref) (e : Affine)
  | linearize (a : Ref) (t : Term)
  | magnitude (a : Ref)
  | setRow (a : Ref) (i : Int) (r : Vec) (I : Interval)
  | tightenRow (a : Ref) (i : Int)
  | meetDirection (a : Ref) (r : Vec) (I : Interval)

namespace Primitive

/-- The frame of a value, and the place of a row in it that may be counted from the end. -/
def rowOf (a : Parallelotope) (i : Int) : Except Error (Frame × Nat) :=
  match a.frame? with
  | none => .error (.fault .sort)
  | some f =>
    match place? f.axes.length i with
    | none => .error (.fault .index)
    | some k => .ok (f, k)

def subject? : Primitive → Option Ref
  | setRow a .. | tightenRow a _ | meetDirection a .. => some a
  | _ => none

def reader? : Primitive → Option Ref
  | inverse a | coords a _ | boundDirection a _ | constraintDirections a _
  | linearizeConstraint a _ | quasiLinearize a _ | linearize a _ => some a
  | _ => none

/-- Tightens the range of one row.  An empty value may have ranges without axes, which are
looked up but cannot be tightened. -/
def tighten (cfg : Settings) (a : Parallelotope) (spare : Option (List Interval)) (i : Int) :
    Op Effect := do
  match a.frame?, spare with
  | none, none => throw (.fault .sort)
  | none, some ranges =>
    let I ← lookup ranges i
    if cfg.tightenIntegers && 0 < a.space.ints && !I.isBottom then throw (.fault .sort)
    return .changeFor a (.interval I)
  | some _, _ =>
    let (f, k) ← rowOf a i
    let I := Frame.tighten cfg a.space (f.axes.getD k []) (f.ranges.getD k .top)
    return .changeFor (← Op.put a.space ⟨f.setRange k I, false⟩) (.interval I)

def run (cfg : Settings) (ops : Operands) : Primitive → Op Effect
  | ofParts s axes ranges =>
    return .createBare (← Parallelotope.ofParts s axes ranges)
      (if axes.isNone then ranges else none)
  | ofRows s axes ranges => return .create (← Parallelotope.ofRows s axes ranges) none
  | seed s dirs => return .create (← Parallelotope.seed cfg s dirs) none
  | mergeDirections dirs =>
    return .answer (.directions (Parallelotope.mergeDirections cfg.precision dirs))
  | render a => return .answer (.text (← (ops.value a).render))
  | inverse a => do
    let f ← Op.invert (← (ops.value a).frame)
    return .answer (.matrix (← f.solve))
  | coords a r => do
    let f ← Op.invert (← (ops.value a).frame)
    return .answer (.vector (← f.coords r))
  | isIntegralRow a i => do
    let (f, k) ← rowOf (ops.value a) i
    return .answer (.flag ((ops.value a).space.integral (f.axes.getD k [])))
  | boundDirection a r => return .answer (.interval (← (ops.value a).boundDirection cfg r))
  | constraintDirections a cs =>
    return .answer (.directions (← (ops.value a).constraintDirections cfg cs))
  | linearizeConstraint a c =>
    return .answer (.affineConstraint (← (ops.value a).linearizeConstraint cfg c))
  | quasiLinearize a e => return .answer (.affine (← (ops.value a).quasiLinearize cfg e))
  | linearize a t => return .answer (.affine (← (ops.value a).linearize cfg t))
  | magnitude a => return .answer (.magnitude (ops.value a).magnitude?)
  | setRow a i r I => do
    let (f, k) ← rowOf (ops.value a) i
    return .changeFor (← Op.put (ops.value a).space ⟨f.setRow k r I, false⟩) .nothing
  | tightenRow a i => tighten cfg (ops.value a) (ops.spare a) i
  | meetDirection a r I => return .change (← (ops.value a).meetDirection cfg r I)

end Primitive

end SkewBox
