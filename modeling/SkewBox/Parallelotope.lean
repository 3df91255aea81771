import SkewBox.Affine
import SkewBox.Frame

/-!
# Parallelotopes

A value of the domain: the empty set of a space, or the points of a frame.

* `Parallelotope`: the type.
* `bottom`, `top`, `ofParts`, `ofRows`: construction.
* `Parallelotope.render`: the text of a value.
-/

namespace SkewBox

/-- The empty set, when there is no frame, or the points of a frame. -/
structure Parallelotope where
  space : Space
  frame? : Option Frame
  deriving DecidableEq, Repr

def Cut.toParallelotope (s : Space) (c : Cut) : Parallelotope :=
  ⟨s, if c.empty then none else some c.frame⟩

namespace Parallelotope

/-! ## Construction -/

def bottom (s : Space) : Parallelotope := ⟨s, none⟩

def top (s : Space) : Parallelotope := ⟨s, some (.top s.size)⟩

/-- The value with the given axes and ranges, whose sizes must fit the space; without axes
the empty set. -/
def ofParts (s : Space) (axes : Option Mat) (ranges : Option (List Interval)) :
    Except Error Parallelotope :=
  match axes with
  | none => .ok (bottom s)
  | some axes =>
    match ranges with
    | none => .error (.shapeMismatch s.size)
    | some ranges =>
      if axes.length ≠ s.size ∨ ranges.length ≠ s.size then .error (.shapeMismatch s.size)
      else if axes.any fun row => row.length ≠ s.size then .error .notSquare
      else .ok ⟨s, some ⟨axes, ranges, none⟩⟩

/-- The value with the given independent axes and their ranges. -/
def ofRows (s : Space) (axes : Mat) (ranges : List Datum) : Except Error Parallelotope := do
  if !(← axes.isInvertible) then throw .singularBasis
  ofParts s (some axes) (some (← ranges.mapM Interval.ofDatum))

/-! ## Tests and parts -/

def isBottom (a : Parallelotope) : Bool := a.frame?.isNone

/-- Whether the value is the whole space, every range being unrestricted. -/
def isTop (a : Parallelotope) : Bool :=
  match a.frame? with
  | none => false
  | some f => f.isTop

def size (a : Parallelotope) : Nat :=
  match a.frame? with
  | none => 0
  | some _ => a.space.size * a.space.size + 2 * a.space.size

def frame (a : Parallelotope) : Except Error Frame :=
  match a.frame? with
  | none => .error .noBasis
  | some f => .ok f

def checkSpace (a b : Parallelotope) : Except Error Unit :=
  if a.space = b.space then .ok () else .error (.spaceMismatch a.space.render b.space.render)

/-- Integer tightening, and the empty set in place of a frame with an empty row. -/
def normalize (cfg : Settings) (a : Parallelotope) : Parallelotope :=
  match a.frame? with
  | none => a
  | some f => (f.normalize cfg a.space).toParallelotope a.space

/-! ## Text -/

/-- A row as a sum of named variables. -/
def renderRow (names : Nat → Except Error String) (row : Vec) : Except Error String := do
  let parts ← (row.zipIdx.filter fun (c, _) => c ≠ 0).mapM fun (c, j) => do
    let size := c.abs
    return (if c < 0 then "- " else "+ ") ++
      (if size = 1 then "" else Bound.renderRat size ++ "·") ++ (← names j)
  match (" ".intercalate parts).toList with
  | '+' :: ' ' :: rest => return String.ofList rest
  | cs => return String.ofList ('-' :: cs.drop 2)

/-- A row with its range: an equation for a point. -/
def renderLine (names : Nat → Except Error String) (d : Direction) : Except Error String := do
  let text ← renderRow names d.1
  if d.2.isPoint then return text ++ " = " ++ d.2.lo.render
  else return d.2.lo.render ++ " ≤ " ++ text ++ " ≤ " ++ d.2.hi.render

def nameOf (names : List String) (j : Nat) : Except Error String :=
  match names[j]? with
  | some name => .ok name
  | none => .error (.fault .index)

/-- The restricted rows of a value, one after the other, with numbered variables unless
names are given. -/
def format (a : Parallelotope) (names : Option (List String)) : Except Error String :=
  match a.frame? with
  | none => .ok "⊥"
  | some f => do
    let names := names.getD ((List.range a.space.size).map fun j => s!"x{j}")
    let lines ← (f.rows.filter fun (_, I) => !I.isTop).mapM (renderLine (nameOf names))
    return if lines.isEmpty then "⊤" else "; ".intercalate lines

def render (a : Parallelotope) : Except Error String := do
  let s := a.space
  let ints := if s.ints = 0 then [] else [s!"int={s.ints}"]
  let reals := if s.reals = 0 ∧ s.ints ≠ 0 then [] else [s!"real={s.reals}"]
  let body ← a.format none
  return "Ptope(" ++ ",".intercalate (ints ++ reals) ++ ": " ++ body ++ ")"

end Parallelotope

end SkewBox
