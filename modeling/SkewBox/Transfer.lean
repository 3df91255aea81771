import SkewBox.Constraints
import SkewBox.Reshape

/-!
# Assignment and substitution

A parallel assignment `x_d := e` is the affine map `x ↦ M · x + b`, where `M` is the identity
with the rows of the assigned dimensions replaced.

* If `M` is invertible the axes become `axes · M⁻¹` and the ranges move by the image of `b`.
* Otherwise, if no expression mentions an assigned dimension, these are forgotten and each
  equation `x_d = e` is intersected with the result.
* Otherwise new dimensions hold the values of the expressions until the assigned dimensions
  are removed.

Substitution is the inverse image: the axes become `axes · M`, rebuilt from
directions when `M` is singular.  Its expressions read the values before the assignment, about
which the operand says nothing on the assigned dimensions.

* `Target`: a value to intersect the result with.
* `assignAffine`, `assignTerm`, `substituteAffine`, `substituteTerm`.
-/

namespace SkewBox

/-- What the result of a transfer is intersected with: nothing, a value, which may share rows
with the operand, or the operand itself as it is when the transfer ends. -/
inductive Target where
  | none
  | value (b : Parallelotope) (sharing : Sharing)
  | operand
  deriving Repr

namespace Parallelotope

/-! ## Arguments -/

def targetValue? (a : Parallelotope) : Target → Op (Option Parallelotope)
  | .none => return none
  | .value b sharing => return some (← Op.current sharing b)
  | .operand => return some a

/-- Checks the arguments of a transfer, and gives its dimensions. -/
def checkTransfer {ε : Type} (a : Parallelotope) (dims : List Datum) (exprs : List ε)
    (maxDim : ε → Int) (render : ε → String) (target : Target) : Op (List Nat) := do
  if dims.length ≠ exprs.length then throw (.arity dims.length exprs.length)
  let dims ← a.space.checkDistinct dims
  match exprs.find? fun e => a.space.size ≤ maxDim e with
  | some e => throw (.expressionOutside (render e) a.space.size)
  | none => pure ()
  match ← targetValue? a target with
  | some b => a.checkSpace b
  | none => pure ()
  return dims

/-- The affine map of an assignment: its matrix, its constants, and its expressions with rational
coefficients. -/
structure AffineMap where
  matrix : Mat
  consts : List Interval
  exprs : List Affine

/-- Replaces the row of one assigned dimension. -/
def assignRow (cfg : Settings) (a : Parallelotope) (m : AffineMap) (d : Nat) (e : Affine) :
    Op AffineMap := do
  let e ← a.quasiLinearize cfg e
  let row ← e.dense a.space.size
  return ⟨m.matrix.set d row, m.consts.set d e.const, m.exprs ++ [e]⟩

/-- The affine map of an assignment, its expressions read on the value `a`. -/
def affineMap (cfg : Settings) (a : Parallelotope) (dims : List Nat) (exprs : List Affine) :
    Op AffineMap :=
  let n := a.space.size
  (dims.zip exprs).foldlM (fun m (d, e) => a.assignRow cfg m d e)
    ⟨.identity n, List.replicate n .zero, []⟩

/-- Intersects with the target, if any, and normalises. -/
def finish (cfg : Settings) (a : Parallelotope) (target : Target) : Op Parallelotope := do
  match ← targetValue? a target with
  | none => a.tidy cfg
  | some b => (← a.meet cfg b).tidy cfg

/-! ## Assignment -/

/-- The image of a frame under an invertible map. -/
def assignInvertible (cfg : Settings) (f : Frame) (inverse : Mat) (consts : List Interval) :
    Op Frame := do
  let p := cfg.precision
  let axes ← f.axes.mul inverse
  let ranges := List.zipWith (fun row I => I.add p (p.dot row consts)) axes f.ranges
  if !consts.all (·.isPoint) then Op.inexact
  return ⟨axes, ranges, none⟩

/-- The direction and range of the equation `x_d = e`. -/
def equation (n : Nat) (d : Nat) (e : Affine) : Except Error Direction := do
  let r := (← e.dense n).neg
  return (r.set d (r.getD d 0 + 1), e.const)

/-- Intersects a value with the equations in turn; an empty value stays. -/
def meetEquations (cfg : Settings) : List Direction → Parallelotope → Op Parallelotope
  | [], a => return a
  | (r, I) :: rest, a => do meetEquations cfg rest (← a.meetDirection cfg r I)

/-- Assignment of expressions that mention no assigned dimension. -/
def assignForgetting (cfg : Settings) (a : Parallelotope) (dims : List Nat)
    (exprs : List Affine) : Op Parallelotope := do
  let a ← a.forget cfg (dims.map fun (d : Nat) => .int d) false
  let equations ← (dims.zip exprs).mapM fun (d, e) => equation a.space.size d e
  meetEquations cfg equations a

/-- The direction and range of the equation `t = e` for the `j`-th of `k` new dimensions. -/
def freshEquation (n k j : Nat) (e : Affine) : Except Error Direction := do
  let r := (← e.dense n).neg ++ Vec.zeros k
  return (r.set (n + j) 1, e.const)

/-- Assignment through new dimensions that hold the values of the expressions. -/
def assignThroughFresh (cfg : Settings) (a : Parallelotope) (dims : List Nat)
    (exprs : List Affine) : Op Parallelotope := do
  let s := a.space
  let n := s.size
  let k := dims.length
  let b ← a.addDimensions cfg (.repeated n k false) false
  let equations ← exprs.zipIdx.mapM fun (e, j) => freshEquation n k j e
  let b ← meetEquations cfg equations b
  let b ← b.removeDimensions cfg (.listing s dims)
  match b.frame? with
  | none => Op.move (bottom s)
  | some f =>
    let targets := (List.range n).filter (!dims.contains ·) ++ dims
    Op.move ⟨s, some (← f.moveChecked n targets)⟩

/-- The image of a value under a parallel assignment of affine expressions. -/
def assignAffine (cfg : Settings) (a : Parallelotope) (dims : List Datum) (exprs : List Affine)
    (target : Target) : Op Parallelotope := do
  let dims ← a.checkTransfer dims exprs Affine.maxDim Affine.render target
  match a.frame? with
  | none => a.finish cfg target
  | some f =>
    if dims.isEmpty then a.finish cfg target
    else do
      let m ← a.affineMap cfg dims exprs
      let b ← match m.matrix.invert? with
        | some inverse => do Op.move ⟨a.space, some (← assignInvertible cfg f inverse m.consts)⟩
        | none =>
          if m.exprs.any fun e => dims.any fun d => (e.coeff? d).isSome then
            a.assignThroughFresh cfg dims m.exprs
          else a.assignForgetting cfg dims m.exprs
      b.finish cfg target

def assignTerm (cfg : Settings) (a : Parallelotope) (dims : List Datum) (terms : List Term)
    (target : Target) : Op Parallelotope := do
  let _ ← a.checkTransfer dims terms Term.maxDim Term.render target
  if a.isBottom then a.finish cfg target
  else do
    let exprs ← terms.mapM fun t => a.linearize cfg t
    a.assignAffine cfg dims exprs target

/-! ## Substitution -/

/-- What is known of the values before an assignment: the operand without the assigned
dimensions. -/
def before (cfg : Settings) (a : Parallelotope) (dims : List Nat) : Op Parallelotope :=
  Op.scratch (a.forget cfg (dims.map fun (d : Nat) => .int d) false)

/-- The map of a parallel assignment; what interval coefficients need of the values is taken from
those before it. -/
def mapBefore (cfg : Settings) (a : Parallelotope) (dims : List Nat) (exprs : List Affine) :
    Op AffineMap := do
  let source ← if exprs.all (·.isScalar) then pure a else a.before cfg dims
  Op.aside (source.affineMap cfg dims exprs)

/-- The inverse image of a value under a parallel assignment of affine expressions. -/
def substituteAffine (cfg : Settings) (a : Parallelotope) (dims : List Datum)
    (exprs : List Affine) (target : Target) : Op Parallelotope := do
  let dims ← a.checkTransfer dims exprs Affine.maxDim Affine.render target
  match a.frame? with
  | none => a.finish cfg target
  | some f =>
    if dims.isEmpty then a.finish cfg target
    else do
      let p := cfg.precision
      let m ← a.mapBefore cfg dims exprs
      let rows ← f.axes.mul m.matrix
      let ranges := List.zipWith (fun row I => I.sub p (p.dot row m.consts)) f.axes f.ranges
      let b ← if ← rows.isInvertible then Op.move ⟨a.space, some ⟨rows, ranges, none⟩⟩
        else do
          Op.inexact
          Op.move (← seed cfg a.space (rows.zip ranges))
      b.finish cfg target

def substituteTerm (cfg : Settings) (a : Parallelotope) (dims : List Datum) (terms : List Term)
    (target : Target) : Op Parallelotope := do
  let checked ← a.checkTransfer dims terms Term.maxDim Term.render target
  if checked.isEmpty || a.isBottom then a.finish cfg target
  else do
    let source ← a.before cfg checked
    let exprs ← Op.aside (terms.mapM fun t => source.linearize cfg t)
    a.substituteAffine cfg dims exprs target

end Parallelotope

end SkewBox
