import SkewBox.Op
import SkewBox.Term.Linearize

/-!
# Queries

Ranges of expressions over a value, satisfaction tests and inclusion.  A direction is
written in row coordinates, where its range is the combination of the rows' ranges.  The
inverse that this takes is kept by the value that is asked.

* `boundDirection`, `boundDimension`, `boundAffine`, `boundTerm`: ranges.
* `linearize`: a term as an affine expression over a value.
* `toBox`: the range of every dimension.
* `satInterval`, `satAffine`, `satTerm`: whether a constraint holds on a value.
* `leq`, `equal`: inclusion and equality.
* `fingerprint`: what equal values have in common.
-/

namespace SkewBox

namespace Frame

def boundDirection (cfg : Settings) (f : Frame) (r : Vec) : Except Error Interval := do
  return cfg.precision.dot (← f.coords r) f.ranges

/-- The range of dimension `d`, whose row coordinates are row `d` of the inverse; rounded
inward for an integer dimension. -/
def boundDimension (cfg : Settings) (s : Space) (f : Frame) (d : Nat) : Except Error Interval := do
  let I := cfg.precision.dot ((← f.solve).getD d []) f.ranges
  return if s.isInt d && cfg.tightenIntegers then I.tighten else I

/-- A coefficient split into a rational and the range of the rest of its term: a point leaves no
rest, any other interval is taken at its middle. -/
def splitTerm (cfg : Settings) (s : Space) (f : Frame) (d : Nat) (c : Interval) :
    Except Error (Rat × Option Interval) := do
  let m := c.midpoint
  if c.isPoint then return (m, none)
  let residual := c.sub cfg.precision (.point m)
  return (m, some (residual.mul cfg.precision (← f.boundDimension cfg s d)))

/-- Adds a term to a direction and the range of what the direction leaves out. -/
def addTerm (cfg : Settings) (s : Space) (f : Frame) (sum : Direction) (term : Nat × Interval) :
    Except Error Direction := do
  let (m, rest) ← f.splitTerm cfg s term.1 term.2
  return (sum.1.set term.1 m, rest.elim sum.2 (sum.2.add cfg.precision))

def boundAffine (cfg : Settings) (s : Space) (f : Frame) (e : Affine) : Except Error Interval := do
  let (r, extra) ← e.terms.foldlM (f.addTerm cfg s) (Vec.zeros s.size, e.const)
  return (← f.boundDirection cfg r).add cfg.precision extra

end Frame

namespace Parallelotope

/-! ## Ranges -/

def checkAffine (a : Parallelotope) (e : Affine) : Except Error Unit :=
  if a.space.size ≤ e.maxDim then .error (.beyondSpace false e.maxDim a.space.size) else .ok ()

def boundDirection (cfg : Settings) (a : Parallelotope) (r : Vec) : Op Interval := do
  match a.frame? with
  | none => return .bottom
  | some f => (← Op.invert f).boundDirection cfg r

def boundDimension (cfg : Settings) (a : Parallelotope) (d : Datum) : Op Interval := do
  let d ← a.space.check d
  match a.frame? with
  | none => return .bottom
  | some f => (← Op.invert f).boundDimension cfg a.space d

def boundAffine (cfg : Settings) (a : Parallelotope) (e : Affine) : Op Interval := do
  a.checkAffine e
  match a.frame? with
  | none => return .bottom
  | some f => (← Op.invert f).boundAffine cfg a.space e

/-- A term as an affine expression that encloses it on the value. -/
def linearize (cfg : Settings) (a : Parallelotope) (t : Term) : Op Affine :=
  if a.space.size ≤ t.maxDim then throw (.beyondSpace true t.maxDim a.space.size)
  else t.linearize (a.boundAffine cfg)

def boundTerm (cfg : Settings) (a : Parallelotope) (t : Term) : Op Interval := do
  if a.isBottom then return .bottom else a.boundAffine cfg (← a.linearize cfg t)

def toBox (cfg : Settings) (a : Parallelotope) : Op (List Interval) := do
  let dims := List.range a.space.size
  match a.frame? with
  | none => return dims.map fun _ => .bottom
  | some f =>
    if dims.isEmpty then return []
    else
      let f ← Op.invert f
      dims.mapM (f.boundDimension cfg a.space ·)

/-! ## Tests -/

def satInterval (cfg : Settings) (a : Parallelotope) (d : Datum) (I : Interval) : Op Bool := do
  let range ← a.boundDimension cfg d
  return a.isBottom || range.leq I

def satAffine (cfg : Settings) (a : Parallelotope) (c : Constraint Affine) : Op Bool := do
  let range ← a.boundAffine cfg c.expr
  return a.isBottom || c.rel.holds range c.modulus

def satTerm (cfg : Settings) (a : Parallelotope) (c : Constraint Term) : Op Bool := do
  let range ← a.boundTerm cfg c.expr
  return a.isBottom || c.rel.holds range c.modulus

/-- Whether every row that mentions the dimension is unrestricted. -/
def isUnconstrained (a : Parallelotope) (d : Datum) : Except Error Bool := do
  let d ← a.space.check d
  match a.frame? with
  | none => return false
  | some f => f.rows.foldlM (fun free (row, I) =>
      if !free then .ok false
      else
        match row[d]? with
        | none => .error (.fault .index)
        | some c => .ok (c = 0 || I.isTop)) true

/-- Whether every row of `b` bounds the frame `f` within its range. -/
def insideRows (cfg : Settings) (f : Frame) : List Direction → Except Error Bool
  | [] => .ok true
  | (row, I) :: rest =>
    if I.isTop then insideRows cfg f rest
    else do
      if (← f.boundDirection cfg row).leq I then insideRows cfg f rest else return false

/-- Inclusion of `a` in `b`. -/
def leq (cfg : Settings) (a b : Parallelotope) : Op Bool := do
  a.checkSpace b
  match a.frame?, b.frame? with
  | none, _ => return true
  | some _, none => return false
  | some f, some g =>
    if g.isTop then return true
    insideRows cfg (← Op.invert f) g.rows

def equal (cfg : Settings) (a b : Parallelotope) : Op Bool := do
  if ← a.leq cfg b then Op.about 1 (b.leq cfg a) else return false

/-! ## Summaries -/

/-- What values with the same points have in common: the space, emptiness, and which
ends of the bounding box are finite. -/
def fingerprint (cfg : Settings) (a : Parallelotope) :
    Op (Space × Option (List (Bool × Bool))) := do
  if a.isBottom then return (a.space, none)
  else
    let box ← a.toBox cfg
    return (a.space, some (box.map fun I => (I.lo.isFinite, I.hi.isFinite)))

/-- The greatest distance of a finite range end from zero, if there is a finite one. -/
def magnitude? (a : Parallelotope) : Option Rat :=
  match a.frame? with
  | none => none
  | some f =>
    let sizes := (f.ranges.flatMap fun I => [I.lo, I.hi]).filterMap fun b => b.toRat?.map Rat.abs
    match sizes with
    | [] => none
    | q :: qs => some (qs.foldl (fun best q => if best < q then q else best) q)

end Parallelotope

end SkewBox
