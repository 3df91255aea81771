import SkewBox.Constraint

/-!
# Terms

Arithmetic terms over the dimensions: interval constants, variables, negation, square
root, conversion to an integer, and the binary operations including remainder and power.

* `UnOp`, `BinOp`, `Term`: the terms.
* `Term.apply1`, `Term.apply2`: application of an operator given by its symbol.
* `Term.ofAffine`: the term of an affine expression.
* `Term.render`: the text of a term.
-/

namespace SkewBox

/-! ## Operators -/

inductive UnOp where
  | neg
  | cast
  | sqrt
  deriving DecidableEq, Repr

inductive BinOp where
  | add
  | sub
  | mul
  | div
  | rem
  | pow
  deriving DecidableEq, Repr

def UnOp.symbol : UnOp → String
  | neg => "neg"
  | cast => "cast"
  | sqrt => "sqrt"

def BinOp.symbol : BinOp → String
  | add => "+"
  | sub => "-"
  | mul => "*"
  | div => "/"
  | rem => "%"
  | pow => "^"

inductive Operator where
  | unary (op : UnOp)
  | binary (op : BinOp)
  deriving DecidableEq, Repr

namespace Operator

def all : List Operator :=
  [.binary .add, .binary .sub, .binary .mul, .binary .div, .binary .rem, .binary .pow,
    .unary .neg, .unary .cast, .unary .sqrt]

def symbol : Operator → String
  | unary op => op.symbol
  | binary op => op.symbol

def ofSymbol? (s : String) : Option Operator := all.find? (·.symbol = s)

def name : Operator → String
  | binary .add => "TexprOp.ADD"
  | binary .sub => "TexprOp.SUB"
  | binary .mul => "TexprOp.MUL"
  | binary .div => "TexprOp.DIV"
  | binary .rem => "TexprOp.MOD"
  | binary .pow => "TexprOp.POW"
  | unary .neg => "TexprOp.NEG"
  | unary .cast => "TexprOp.CAST"
  | unary .sqrt => "TexprOp.SQRT"

end Operator

inductive Term where
  | const (I : Interval)
  | var (d : Nat)
  | un (op : UnOp) (arg : Term)
  | bin (op : BinOp) (left right : Term)
  deriving DecidableEq, Repr, Inhabited

namespace Term

/-! ## Construction -/

def ofDatum : Datum → Except Error Term
  | .int i => if 0 ≤ i then .ok (.var i.toNat) else .error (.badVariableIndex true (toString i))
  | .bool b => .ok (.var b.toNat)
  | d => .error (.badVariableIndex true d.render)

def apply1 (op : Operator) (arg : Term) : Except Error Term :=
  match op with
  | .unary op => .ok (.un op arg)
  | _ => .error (.notUnary op.name)

def apply2 (op : Operator) (left right : Term) : Except Error Term :=
  match op with
  | .binary op => .ok (.bin op left right)
  | _ => .error (.notBinary op.name)

/-- The term `c · x_d`, a coefficient of one left out. -/
def ofCoeff (d : Nat) (c : Interval) : Term :=
  if c = .point 1 then .var d else .bin .mul (.const c) (.var d)

/-- The term of an affine expression: its terms in increasing order of the variables, then
the constant unless it is zero. -/
def ofAffine (e : Affine) : Term :=
  match e.sorted with
  | [] => .const e.const
  | (d, c) :: rest =>
    let sum := rest.foldl (fun t (d, c) => .bin .add t (ofCoeff d c)) (ofCoeff d c)
    if e.const.isZero then sum else .bin .add sum (.const e.const)

/-! ## Variables -/

def union (xs ys : List Nat) : List Nat := xs ++ ys.filter (!xs.contains ·)

/-- The variables: in increasing order for a binary term. -/
def dims : Term → List Nat
  | const _ => []
  | var d => [d]
  | un _ arg => arg.dims
  | bin _ left right => (union left.dims right.dims).mergeSort

def maxDim (t : Term) : Int := (t.dims.map Int.ofNat).foldl max (-1)

/-! ## Text -/

/-- The text of a constant: a point as a fraction, any other interval by its ends. -/
def renderConst (I : Interval) : String :=
  match I.lo with
  | .fin q => if I.isPoint then Datum.renderRatio q else I.render
  | _ => I.render

def render : Term → String
  | const I => renderConst I
  | var d => s!"x{d}"
  | un .neg arg => "-(" ++ arg.render ++ ")"
  | un op arg => op.symbol ++ "(" ++ arg.render ++ ")"
  | bin op left right => "(" ++ left.render ++ " " ++ op.symbol ++ " " ++ right.render ++ ")"

end Term

def Constraint.renderTerm (c : Constraint Term) : String :=
  c.expr.render ++ " " ++ c.rel.symbol ++ " 0"

end SkewBox
