import SkewBox.Meet

/-!
# Systems of constraints

Constraints become directions with their ranges.  Parallel directions are merged; a
value without restrictions takes a maximal independent set of them as its axes, and any
other value is intersected with them one by one.

* `quasiLinearize`: interval coefficients moved into the constant.
* `directionOf?`: what a constraint says about a direction.
* `mergeDirections`: parallel directions merged, two-sided ones first.
* `seed`: the value of a list of directions.
* `meetAffine`, `meetTerm`: intersection with a system of constraints.
-/

namespace SkewBox

namespace Parallelotope

/-- Adds a term to a sum with rational coefficients: an interval coefficient is taken at its middle
and the rest of its term moves into the constant. -/
def takeMiddle (cfg : Settings) (a : Parallelotope) (sum : List (Nat × Interval) × Interval)
    (term : Nat × Interval) : Op (List (Nat × Interval) × Interval) := do
  let (d, c) := term
  if c.isPoint then return (sum.1 ++ [(d, c)], sum.2)
  let range ← a.boundDimension cfg (.int d)
  let residual := c.sub cfg.precision (.point c.midpoint)
  return (sum.1 ++ [(d, .point c.midpoint)],
    sum.2.add cfg.precision (residual.mul cfg.precision range))

/-- An affine expression with rational coefficients that encloses `e` on the value. -/
def quasiLinearize (cfg : Settings) (a : Parallelotope) (e : Affine) : Op Affine := do
  a.checkAffine e
  if e.isScalar then return e
  let (terms, const) ← e.terms.foldlM (a.takeMiddle cfg) ([], e.const)
  Op.inexact
  return .make terms const

/-! ## Directions -/

/-- The range that a strict constraint gives an integer-valued row starts at the next integer. -/
def strictEnd (cfg : Settings) (s : Space) (r : Vec) (lo : Bound) : Bound :=
  match lo with
  | .fin q =>
    if cfg.tightenIntegers && s.integral r then .fin ((q.floor : Rat) + 1) else lo
  | _ => lo

/-- What a constraint says about the direction of its expression; nothing for a congruence or
a disequality, which are ignored. -/
def directionOf? (cfg : Settings) (a : Parallelotope) (c : Constraint Affine) :
    Op (Option Direction) := do
  let e ← a.quasiLinearize cfg c.expr
  let r ← e.dense a.space.size
  match c.rel with
  | .ge => return some (r, ⟨-e.const.hi, .posInf⟩)
  | .gt => return some (r, ⟨strictEnd cfg a.space r (-e.const.hi), .posInf⟩)
  | .eq => return some (r, ⟨-e.const.hi, -e.const.lo⟩)
  | .congr | .ne => do
    Op.inexact
    return none

def sides (d : Direction) : Nat := d.2.lo.isFinite.toNat + d.2.hi.isFinite.toNat

/-- Merges one direction into those found so far; `none` when nothing satisfies it. -/
def mergeStep (p : Precision) (merged : List Direction) (d : Direction) :
    Option (List Direction) :=
  let (r, I) := d
  if I.isBottom then none
  else
    match r.leading? with
    | none => if I.hasZero then some merged else none
    | some c =>
      let key := r.map (· / c)
      let J := I.scale p (1 / c)
      match merged.lookup key with
      | none => some (merged ++ [(key, J)])
      | some K =>
        let L := K.meet J
        if L.isBottom then none else some (Entries.put merged key L)

/-- Merges parallel directions, scaled so that their first non-zero entry is one, and leaves out
those that restrict nothing; `none` when nothing satisfies them.  Two-sided directions come
first, each group in the order in which it was met. -/
def mergeDirections (p : Precision) (dirs : List Direction) : Option (List Direction) :=
  (dirs.foldlM (mergeStep p) []).map fun merged =>
    let out := merged.filter fun d => !d.2.isTop
    [2, 1, 0].flatMap fun n => out.filter fun d => sides d = n

/-- The directions that a list of constraints gives, before they are merged; `none` when one
of them cannot hold. -/
def rawDirections (cfg : Settings) (a : Parallelotope) :
    List (Constraint Affine) → Op (Option (List Direction))
  | [] => return some []
  | c :: rest => do
    if a.space.size ≤ c.expr.maxDim then throw (.constraintOutside c.render a.space.size)
    if c.expr.isConstant then
      if c.rel.mayHold c.expr.const c.modulus then rawDirections cfg a rest else return none
    else do
      let d ← directionOf? cfg a c
      let ds ← rawDirections cfg a rest
      return ds.map (d.toList ++ ·)

def constraintDirections (cfg : Settings) (a : Parallelotope) (cs : List (Constraint Affine)) :
    Op (Option (List Direction)) := do
  return (← rawDirections cfg a cs).bind (mergeDirections cfg.precision)

/-! ## Seeding -/

/-- Splits directions into those that are independent of the ones before, and the rest. -/
def selectIndependent : Echelon → List Direction → Except Error (List Direction × List Direction)
  | _, [] => .ok ([], [])
  | e, d :: ds => do
    let (independent, e) ← if e.full then pure (false, e) else e.add d.1
    let (axes, rest) ← selectIndependent e ds
    return if independent then (d :: axes, rest) else (axes, d :: rest)

/-- The value of a list of directions: independent ones are its axes, unit vectors
complete them, and the others are intersected with the result. -/
def seed (cfg : Settings) (s : Space) (dirs : List Direction) : Op Parallelotope := Op.aside do
  match mergeDirections cfg.precision dirs with
  | none => return bottom s
  | some merged =>
    let (chosen, rest) ← selectIndependent (.empty s.size) merged
    let axes := chosen.map (·.1)
    let units ← Mat.completion axes s.size
    let a ← ofParts s (some (axes ++ units.map (Vec.unit s.size)))
      (some (chosen.map (·.2) ++ units.map fun _ => .top))
    let a := a.normalize cfg
    match a.frame? with
    | none => return a
    | some f => return (← f.meetAll cfg s rest).toParallelotope s

/-! ## Intersection with constraints -/

def meetAffine (cfg : Settings) (a : Parallelotope) (cs : List (Constraint Affine)) :
    Op Parallelotope := do
  match a.frame? with
  | none => return a
  | some f =>
    match ← constraintDirections cfg a cs with
    | none => Op.move (bottom a.space)
    | some dirs =>
      if a.isTop then Op.move (← seed cfg a.space dirs)
      else
        let f ← Op.kept f
        Op.put a.space (← f.meetAll cfg a.space dirs)

/-- A constraint on a term as one on an affine expression that encloses the term on the value. -/
def linearizeConstraint (cfg : Settings) (a : Parallelotope) (c : Constraint Term) :
    Op (Constraint Affine) := do
  Constraint.make (← a.linearize cfg c.expr) c.rel c.modulus

def meetTerm (cfg : Settings) (a : Parallelotope) (cs : List (Constraint Term)) :
    Op Parallelotope := do
  if a.isBottom then return a
  a.meetAffine cfg (← cs.mapM fun c => a.linearizeConstraint cfg c)

end Parallelotope

end SkewBox
