import SkewBox.Affine

/-!
# Constraints and generators

A constraint compares an expression with zero; generators are the vertices, rays and
lines that span a convex set.

* `Relation`, `Constraint`: the comparison, over expressions of any kind.
* `Relation.mayHold`, `Relation.holds`: what an interval of values decides.
* `Generator`: a vertex, ray or line with rational coordinates.
-/

namespace SkewBox

/-! ## Relations -/

/-- How an expression compares with zero. -/
inductive Relation where
  | eq
  | ge
  | gt
  | congr
  | ne
  deriving DecidableEq, Repr, Inhabited

namespace Relation

def symbol : Relation → String
  | eq => "="
  | ge => ">="
  | gt => ">"
  | congr => "%="
  | ne => "!="

def all : List Relation := [eq, ge, gt, congr, ne]

def ofSymbol? (s : String) : Option Relation := all.find? (·.symbol = s)

/-- What a point decides about a congruence; nothing without a non-zero modulus. -/
def congruent? (I : Interval) (modulus : Option Rat) : Option Bool :=
  match I.lo, modulus with
  | .fin c, some m => if I.isPoint ∧ m ≠ 0 then some ((c / m).den = 1) else none
  | _, _ => none

/-- Whether the relation holds of some member of `I`. -/
def mayHold (r : Relation) (I : Interval) (modulus : Option Rat) : Bool :=
  if I.isBottom then false
  else
    match r with
    | ge => .fin 0 ≤ I.hi
    | gt => .fin 0 < I.hi
    | eq => I.hasZero
    | ne => !I.isZero
    | congr => (congruent? I modulus).getD true

/-- Whether the relation holds of every member of `I`. -/
def holds (r : Relation) (I : Interval) (modulus : Option Rat) : Bool :=
  if I.isBottom then true
  else
    match r with
    | ge => .fin 0 ≤ I.lo
    | gt => .fin 0 < I.lo
    | eq => I.isZero
    | ne => !I.hasZero
    | congr => (congruent? I modulus).getD false

end Relation

/-- The constraint `expr ⋈ 0`, with a modulus for a congruence. -/
structure Constraint (ε : Type) where
  expr : ε
  rel : Relation
  modulus : Option Rat
  deriving DecidableEq, Repr

namespace Constraint

/-- A constraint on an affine expression; a congruence needs a modulus. -/
def make (expr : Affine) (rel : Relation) (modulus : Option Rat) :
    Except Error (Constraint Affine) :=
  if rel = .congr ∧ modulus = none then .error .missingModulus else .ok ⟨expr, rel, modulus⟩

def le (e : Affine) (c : Interval) : Constraint Affine :=
  ⟨e.negate.add (.constant c), .ge, none⟩

def ge (e : Affine) (c : Interval) : Constraint Affine :=
  ⟨e.add (Affine.constant c).negate, .ge, none⟩

def eq (e : Affine) (c : Interval) : Constraint Affine :=
  ⟨e.add (Affine.constant c).negate, .eq, none⟩

def isFalse (c : Constraint Affine) : Bool :=
  c.expr.isConstant && !c.rel.mayHold c.expr.const c.modulus

def render (c : Constraint Affine) : String :=
  c.expr.render ++ " " ++ c.rel.symbol ++ " 0" ++
    (match c.modulus with
      | some m => " mod " ++ Bound.renderRat m
      | none => "")

end Constraint

/-! ## Generators -/

inductive GeneratorKind where
  | line
  | ray
  | vertex
  | linemod
  | raymod
  deriving DecidableEq, Repr

namespace GeneratorKind

def name : GeneratorKind → String
  | line => "line"
  | ray => "ray"
  | vertex => "vertex"
  | linemod => "linemod"
  | raymod => "raymod"

def ofName? (s : String) : Option GeneratorKind :=
  [line, ray, vertex, linemod, raymod].find? (·.name = s)

def isModular : GeneratorKind → Bool
  | linemod | raymod => true
  | _ => false

end GeneratorKind

/-- A vertex, ray or line given by its coordinates. -/
structure Generator where
  kind : GeneratorKind
  coords : Vec
  deriving DecidableEq, Repr

namespace Generator

def make (kind : GeneratorKind) (coords : List Datum) : Except Error Generator := do
  let bounds ← coords.mapM Bound.ofDatum
  match bounds.mapM Bound.toRat? with
  | some coords => return ⟨kind, coords⟩
  | none => throw .infiniteCoordinate

def render (g : Generator) : String :=
  g.kind.name ++ "(" ++ ", ".intercalate (g.coords.map Bound.renderRat) ++ ")"

end Generator

end SkewBox
