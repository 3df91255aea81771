import SkewBox.Algebra.Vec
import SkewBox.Entries
import SkewBox.Interval

/-!
# Affine expressions

A sum of variables with interval coefficients and an interval constant: the expression
stands for every choice of a rational from each interval.  The terms keep the order in
which their variables first appeared, since rounded sums follow it.

* `Affine`: terms with distinct variables and non-zero coefficients, and a constant.
* `Affine.ofPairs`, `Affine.var`, `Affine.constant`, `Affine.ofDense`: construction.
* `negate`, `add`, `sub`, `scale`, `rename`: algebra.
* `Affine.dense`: the coefficient vector of an expression with point coefficients.
-/

namespace SkewBox

/-- A sum `Σ cᵢ · xᵢ + c` with interval coefficients. -/
structure Affine where
  terms : List (Nat × Interval)
  const : Interval
  distinct : (terms.map (·.1)).Nodup
  deriving DecidableEq, Repr

/-- A coefficient as a caller gives it: an interval or a number. -/
inductive Coeff where
  | interval (I : Interval)
  | number (d : Datum)

def Coeff.toInterval : Coeff → Except Error Interval
  | interval I => .ok I
  | number d => return .single (← Bound.ofDatum d)

namespace Affine

/-- The expression with the given terms, those with a zero coefficient left out; of two terms
with one variable the later coefficient stands in the earlier place. -/
def make (terms : List (Nat × Interval)) (const : Interval) : Affine where
  terms := (Entries.collect terms).filter fun (_, c) => !c.isZero
  const := const
  distinct := (Entries.nodup_keys_collect terms).sublist (List.filter_sublist.map _)

/-! ## Construction -/

/-- The variable that a datum names. -/
def variableOf : Datum → Except Error Nat
  | .int i => if 0 ≤ i then .ok i.toNat else .error (.badVariableIndex false (toString i))
  | .bool b => .ok b.toNat
  | d => .error (.badVariableIndex false d.render)

/-- The expression with the given constant and terms; of two terms with one variable the later
coefficient stands in the earlier place. -/
def ofPairs (pairs : List (Datum × Coeff)) (const : Coeff) : Except Error Affine := do
  let entries := pairs.foldl (fun acc (d, c) => Entries.put acc d.render (d, c)) []
  let terms ← entries.mapM fun (_, d, c) => do
    let v ← variableOf d
    return (v, ← c.toInterval)
  return make terms (← const.toInterval)

def constant (I : Interval) : Affine := ⟨[], I, List.nodup_nil⟩

instance : Inhabited Affine := ⟨constant .zero⟩

def var (d : Nat) (c : Interval) : Affine := make [(d, c)] .zero

def ofDense (v : Vec) (const : Interval) : Affine :=
  make (v.mapIdx fun i c => (i, .point c)) const

/-! ## Queries -/

def coeff? (e : Affine) (d : Nat) : Option Interval := e.terms.lookup d

def coeff (e : Affine) (d : Nat) : Interval := (e.coeff? d).getD .zero

def isScalar (e : Affine) : Bool := e.terms.all fun (_, c) => c.isPoint

def isConstant (e : Affine) : Bool := e.terms.isEmpty

def dims (e : Affine) : List Nat := (e.terms.map (·.1)).mergeSort

/-- The greatest variable, `-1` if there is none. -/
def maxDim (e : Affine) : Int := (e.terms.map fun (d, _) => (d : Int)).foldl max (-1)

def sorted (e : Affine) : List (Nat × Interval) := e.dims.map fun d => (d, e.coeff d)

/-- Whether two expressions have the same coefficients and constant, in whatever order. -/
def same (e f : Affine) : Bool := e.sorted = f.sorted && e.const = f.const

/-- The vector of length `n` with the coefficients, which must be points. -/
def dense (e : Affine) (n : Int) : Except Error Vec :=
  if !e.isScalar then .error .intervalCoefficients
  else if n ≤ e.maxDim then .error (.beyondSpace false e.maxDim n)
  else .ok (e.terms.foldl (fun v (d, c) => v.set d c.midpoint) (Vec.zeros n.toNat))

/-! ## Algebra -/

def negate (e : Affine) : Affine :=
  make (e.terms.map fun (d, c) => (d, c.neg)) e.const.neg

/-- The sum; variables of `f` alone come last. -/
def add (e f : Affine) : Affine :=
  let terms := f.terms.foldl (fun acc (d, c) =>
    Entries.put acc d (match acc.lookup d with
      | some c' => c'.add .exact c
      | none => c)) e.terms
  make terms (e.const.add .exact f.const)

def sub (e f : Affine) : Affine := e.add f.negate

def scale (e : Affine) (k : Interval) : Affine :=
  make (e.terms.map fun (d, c) => (d, c.mul .exact k)) (e.const.mul .exact k)

/-- The expression with its variables renamed; of two variables with one new name the
later coefficient wins.  Fails on a variable without a new name. -/
def rename (e : Affine) (names : List (Nat × Int)) : Except Error Affine := do
  let moved ← e.terms.mapM fun (d, c) =>
    match names.lookup d with
    | some d' => .ok (d', c)
    | none => .error (.fault .key)
  let terms ← (moved.foldl (fun acc (d, c) => Entries.put acc d c) []).mapM fun (d, c) => do
    return (← variableOf (.int d), c)
  return make terms e.const

/-! ## Text -/

/-- The sign and size of a term whose coefficient is a point, `none` for any other. -/
def signed? (I : Interval) : Option (Bool × Rat) :=
  match I.lo with
  | .fin q => if I.isPoint then some (q < 0, q.abs) else none
  | _ => none

def renderTerm (d : Nat) (c : Interval) : String :=
  match signed? c with
  | some (negative, size) =>
    (if negative then "- " else "+ ") ++
      (if size = 1 then s!"x{d}" else Bound.renderRat size ++ s!"·x{d}")
  | none => "+ " ++ c.render ++ s!"·x{d}"

def renderConst (c : Interval) : String :=
  match signed? c with
  | some (negative, size) => (if negative then "- " else "+ ") ++ Bound.renderRat size
  | none => "+ " ++ c.render

/-- A sum whose first sign is written tightly, and a plus not at all. -/
def renderSum (parts : List String) : String :=
  match (" ".intercalate parts).toList with
  | '+' :: ' ' :: rest => String.ofList rest
  | '-' :: ' ' :: rest => String.ofList ('-' :: rest)
  | cs => String.ofList cs

def render (e : Affine) : String :=
  let parts := e.sorted.map fun (d, c) => renderTerm d c
  renderSum (if !e.const.isZero || parts.isEmpty then parts ++ [renderConst e.const] else parts)

end Affine

end SkewBox
