import SkewBox.Constraints
import SkewBox.Join

/-!
# Conversions

Values from boxes, constraints and generators, and back.

* `ofBox`, `ofAffine`, `ofTerms`, `ofGenerators`: construction.
* `toAffine`, `toTerms`: one equation or up to two inequalities per row.
* `toGenerators`: the corners of a value with its rays and lines.
-/

namespace SkewBox.Parallelotope

/-! ## Construction -/

def ofIntervals (cfg : Settings) (s : Space) (box : List Interval) : Parallelotope :=
  if box.any (·.isBottom) then bottom s
  else ((⟨s, some ⟨.identity s.size, box, none⟩⟩ : Parallelotope)).normalize cfg

def ofBox (cfg : Settings) (s : Space) (box : List Datum) : Except Error Parallelotope := do
  if box.length ≠ s.size then throw (.boxSize box.length s.size)
  return ofIntervals cfg s (← box.mapM Interval.ofDatum)

def ofAffine (cfg : Settings) (s : Space) (cs : List (Constraint Affine)) : Op Parallelotope :=
  (top s).meetAffine cfg cs

def ofTerms (cfg : Settings) (s : Space) (cs : List (Constraint Term)) : Op Parallelotope :=
  (top s).meetTerm cfg cs

/-- The least interval around the entries at place `j` of some vectors. -/
def hullAt (vertices : List Vec) (j : Nat) : Interval :=
  match vertices.map fun v => Bound.fin (v.getD j 0) with
  | [] => .bottom
  | b :: bs => ⟨bs.foldl min b, bs.foldl max b⟩

/-- The box around the vertices, extended by the rays and lines. -/
def ofGenerators (cfg : Settings) (s : Space) (gens : List Generator) : Op Parallelotope := do
  match gens.find? fun g => g.coords.length ≠ s.size with
  | some g => throw (.generatorSize g.render)
  | none => pure ()
  let vertices := (gens.filter fun g => g.kind = .vertex).map (·.coords)
  if vertices.isEmpty then return bottom s
  if 1 < vertices.length then Op.inexact
  let a := ofIntervals cfg s ((List.range s.size).map (hullAt vertices))
  a.addRays (gens.filter fun g => g.kind ≠ .vertex)

/-! ## Constraints of a value -/

/-- The constraints of one row: an equation for a point, else one inequality per finite end. -/
def rowConstraints (d : Direction) : List (Constraint Affine) :=
  let (row, I) := d
  let above (q : Rat) : Constraint Affine := ⟨.ofDense row (.point (-q)), .ge, none⟩
  let below (q : Rat) : Constraint Affine := ⟨.ofDense (Vec.neg row) (.point q), .ge, none⟩
  match I.lo.toRat?, I.hi.toRat? with
  | some lo, some hi =>
    if lo = hi then [⟨.ofDense row (.point (-lo)), .eq, none⟩] else [above lo, below hi]
  | some lo, none => [above lo]
  | none, some hi => [below hi]
  | none, none => []

def toAffine (a : Parallelotope) : List (Constraint Affine) :=
  match a.frame? with
  | none => [⟨.constant (.point (-1)), .ge, none⟩]
  | some f => f.rows.flatMap rowConstraints

def toTerms (a : Parallelotope) : List (Constraint Term) :=
  a.toAffine.map fun c => ⟨.ofAffine c.expr, c.rel, c.modulus⟩

/-! ## Generators of a value -/

/-- The finite ends that a row offers for corners: zero if it has none. -/
def corners (I : Interval) : List Rat :=
  match I.lo, I.hi with
  | .fin lo, .fin hi => if lo = hi then [lo] else [lo, hi]
  | .fin lo, _ => [lo]
  | _, .fin hi => [hi]
  | _, _ => [0]

/-- The ray or line along which a row is unbounded, where `column` is the step that moves this row
alone. -/
def recession (I : Interval) (column : Vec) : List Generator :=
  match I.lo.isFinite, I.hi.isFinite with
  | true, true => []
  | true, false => [⟨.ray, column⟩]
  | false, true => [⟨.ray, Vec.neg column⟩]
  | false, false => [⟨.line, column⟩]

/-- All ways to take one element of each list, the last list varying fastest. -/
def choices : List (List Rat) → List Vec
  | [] => [[]]
  | xs :: rest => xs.flatMap fun x => (choices rest).map (x :: ·)

/-- The corners of a value, then its rays and lines. -/
def toGenerators (cfg : Settings) (a : Parallelotope) : Op (List Generator) := do
  match a.frame? with
  | none => return []
  | some f =>
    let inverse ← (← Op.invert f).solve
    let extra ← f.ranges.zipIdx.mapM fun (I, i) => do
      return recession I (← inverse.column i)
    let ends := f.ranges.map corners
    let count : Nat := (ends.map List.length).foldl (· * ·) 1
    if cfg.maxVertices < count then throw (.tooManyVertices count cfg.maxVertices)
    return (choices ends).map (fun y => ⟨.vertex, inverse.mulVec y⟩) ++ extra.flatten

end SkewBox.Parallelotope
