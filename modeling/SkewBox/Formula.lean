import SkewBox.Formula.Surface
import SkewBox.Term.Linearize

/-!
# Texts of expressions and constraints

Variables are written `x0`, `x1`, … or by given names.  `a ⋈ b` stands for `a - b ⋈ 0`,
and for `b - a ⋈ 0` when the sign is `<=` or `<`.

* `Names`: how variables are named.
* `Formula.parseTerm`, `Formula.parseAffine`: texts of expressions.
* `Formula.parseTermConstraint`, `Formula.parseAffineConstraint`: texts of constraints.
-/

namespace SkewBox.Formula

/-- Numbered variables, or the names of the dimensions in order. -/
inductive Names where
  | numbered
  | listed (names : List String)

/-- The given names, which must be distinct. -/
def Names.make : Option (List String) → Except Error Names
  | none => .ok .numbered
  | some names => if names.Nodup then .ok (.listed names) else .error (.duplicateNames names)

def Names.resolve (names : Names) (name : List Char) : Except Error Nat :=
  match names with
  | .listed names =>
    match names.idxOf? (String.ofList name) with
    | some d => .ok d
    | none => .error (.unknownVariable (String.ofList name))
  | .numbered =>
    match name with
    | 'x' :: digits =>
      if digits ≠ [] ∧ digits.all Reader.isAsciiDigit then
        .ok (Numeral.valueOf (digits.filterMap Text.digitValue?))
      else .error (.unnumberedVariable (String.ofList name))
    | _ => .error (.unnumberedVariable (String.ofList name))

/-- An error met while an expression is built, as its text reports it. -/
def unbuildable (e : Error) : Error := .unbuildable ("InvalidArgumentError: " ++ e.message)

def numberOf (digits : List Char) : Except Error Rat :=
  match Numeral.read? digits with
  | some q => .ok q
  | none =>
    let numerator := Numeral.valueOf (Numeral.digitGroup digits).1
    .error (.unbuildable s!"ZeroDivisionError: Fraction({numerator}, 0)")

def boundOf (cs : List Char) : Except Error Bound :=
  (Bound.ofText (String.ofList cs)).mapError unbuildable

/-- The term of a surface form, built from left to right. -/
def Surface.toTerm (names : Names) : Surface → Except Error Term
  | number digits => return .const (.point (← numberOf digits))
  | interval lo hi => do
    let lo ← boundOf lo
    let hi ← boundOf hi
    return .const ⟨lo, hi⟩
  | name text => return .var (← (names.resolve text).mapError unbuildable)
  | un op arg => return .un op (← arg.toTerm names)
  | bin op left right => do
    let left ← left.toTerm names
    let right ← right.toTerm names
    return .bin op left right

/-- Whether a comparison is turned round, and the relation that it then states. -/
def Comparison.relation : Comparison → Bool × Relation
  | le => (true, .ge)
  | lt => (true, .gt)
  | ge => (false, .ge)
  | gt => (false, .gt)
  | eq => (false, .eq)
  | ne => (false, .ne)

/-- The affine expression of a term without non-linear parts. -/
def linear (t : Term) : Except Error Affine := t.linearize fun _ => .error .notLinear

def parseTerm (names : Option (List String)) (text : String) : Except Error Term := do
  let names ← Names.make names
  (← readAll Surface.reader text).toTerm names

def parseAffine (names : Option (List String)) (text : String) : Except Error Affine := do
  linear (← parseTerm names text)

def parseTermConstraint (names : Option (List String)) (text : String) :
    Except Error (Constraint Term) := do
  let names ← Names.make names
  let sentence ← readAll Sentence.reader text
  let left ← sentence.left.toTerm names
  let right ← sentence.right.toTerm names
  let modulus ← sentence.modulus.mapM numberOf
  let (turned, rel) := sentence.comparison.relation
  let expr : Term := if turned then .bin .sub right left else .bin .sub left right
  match modulus with
  | none => return ⟨expr, rel, none⟩
  | some m => if rel = .eq then return ⟨expr, .congr, some m⟩ else throw .modulusWithoutEquality

def parseAffineConstraint (names : Option (List String)) (text : String) :
    Except Error (Constraint Affine) := do
  let c ← parseTermConstraint names text
  return ⟨← linear c.expr, c.rel, c.modulus⟩

end SkewBox.Formula
