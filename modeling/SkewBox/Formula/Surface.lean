import SkewBox.Formula.Reader
import SkewBox.Term

/-!
# Surface forms

What the text of an expression or a constraint says, before numbers are read and names are
resolved, and the readers that find it.  A number is a run of digits, perhaps with a
fraction after a point or a denominator after a slash; an interval has two signed
bounds; a name starts with a letter or an underscore.  Power binds tighter than
negation, negation tighter than products, products tighter than sums.

* `Surface`: expressions.
* `Sentence`: constraints.
* `Surface.reader`, `Sentence.reader`: the readers of whole texts.
-/

namespace SkewBox.Formula

/-- An expression as written. -/
inductive Surface where
  | number (text : List Char)
  | interval (lo hi : List Char)
  | name (text : List Char)
  | un (op : UnOp) (arg : Surface)
  | bin (op : BinOp) (left right : Surface)
  deriving Repr, DecidableEq

inductive Comparison where
  | le
  | ge
  | eq
  | ne
  | lt
  | gt
  deriving DecidableEq, Repr

/-- A constraint as written, with the number after `mod`, if any. -/
structure Sentence where
  left : Surface
  comparison : Comparison
  right : Surface
  modulus : Option (List Char)
  deriving Repr

namespace Reader

def isAsciiDigit (c : Char) : Bool := '0' ≤ c && c ≤ '9'

def isNameStart (c : Char) : Bool := ('A' ≤ c && c ≤ 'Z') || ('a' ≤ c && c ≤ 'z') || c == '_'

def isNamePart (c : Char) : Bool := isNameStart c || isAsciiDigit c

def fraction (mark : Char) : Reader (List Char) := do
  literal [mark]
  return mark :: (← run1 isAsciiDigit)

/-- Digits, perhaps with a decimal part or a denominator. -/
def digits : Reader (List Char) := do
  let whole ← run1 isAsciiDigit
  let tail ← optional (orElse (fraction '.') (fraction '/'))
  return whole ++ tail.getD []

def number : Reader (List Char) := rule digits

def keep (text : List Char) : Reader (List Char) := do
  literal text
  return text

/-- An end of an interval: a sign, blanks, and an infinity or a number. -/
def bound : Reader (List Char) := rule do
  let sign ← optional (orElse (keep ['+']) (keep ['-']))
  blanks
  let size ← firstOf [keep "inf".toList, keep "oo".toList, digits]
  return sign.getD [] ++ size

def name : Reader (List Char) := rule fun cs least =>
  match cs with
  | [] => (none, least)
  | c :: rest => if isNameStart c then run isNamePart (c :: rest) least else (none, least)

/-- A sign that stands for `a`. -/
def sign {α : Type} (text : String) (a : α) : Reader α := do
  literal text.toList
  return a

def addSign : Reader BinOp := rule (firstOf [sign "+" .add, sign "-" .sub])

def mulSign : Reader BinOp := rule (firstOf [sign "*" .mul, sign "/" .div, sign "%" .rem])

def function : Reader UnOp := rule (firstOf [sign "sqrt" .sqrt, sign "cast" .cast])

def comparison : Reader Comparison :=
  rule (firstOf [sign "<=" .le, sign ">=" .ge, sign "==" .eq, sign "!=" .ne, sign "=" .eq,
    sign "<" .lt, sign ">" .gt])

def interval : Reader Surface := rule do
  literal ['[']
  blanks
  let lo ← bound
  blanks
  literal [',']
  blanks
  let hi ← bound
  blanks
  literal [']']
  return .interval lo hi

/-- An operand after an operator, with blanks before each. -/
def operand (op : Reader BinOp) (arg : Reader Surface) : Reader (BinOp × Surface) := do
  blanks
  let op ← op
  blanks
  return (op, ← arg)

def chain (first : Surface) (rest : List (BinOp × Surface)) : Surface :=
  rest.foldl (fun left (op, right) => .bin op left right) first

/-- A reader between round brackets, blanks allowed inside. -/
def bracketed (r : Reader Surface) : Reader Surface := do
  literal ['(']
  blanks
  let found ← r
  blanks
  literal [')']
  return found

mutual

/-- A sum of products.  Each rule hands on one unit less of its fuel. -/
def sum : Nat → Reader Surface
  | 0 => fail
  | fuel + 1 => rule do
    let first ← product fuel
    return chain first (← many (operand addSign (product fuel)) fuel)

def product : Nat → Reader Surface
  | 0 => fail
  | fuel + 1 => rule do
    let first ← signed fuel
    return chain first (← many (operand mulSign (signed fuel)) fuel)

def signed : Nat → Reader Surface
  | 0 => fail
  | fuel + 1 => rule (orElse (negation fuel) (power fuel))

def negation : Nat → Reader Surface
  | 0 => fail
  | fuel + 1 => rule do
    literal ['-']
    blanks
    return .un .neg (← signed fuel)

def power : Nat → Reader Surface
  | 0 => fail
  | fuel + 1 => rule do
    let base ← atom fuel
    let exponent ← optional (operand (sign "^" .pow) (signed fuel))
    return chain base exponent.toList

/-- A call, an interval, a number, a name or a bracketed sum. -/
def atom : Nat → Reader Surface
  | 0 => fail
  | fuel + 1 =>
    rule (firstOf [call fuel, interval, .number <$> number, .name <$> name, group fuel])

def call : Nat → Reader Surface
  | 0 => fail
  | fuel + 1 => rule do
    let op ← function
    blanks
    return .un op (← bracketed (sum fuel))

def group : Nat → Reader Surface
  | 0 => fail
  | fuel + 1 => rule (bracketed (sum fuel))

end

def modulus : Reader (List Char) := rule do
  literal "mod".toList
  blanks
  number

end Reader

def Surface.reader (fuel : Nat) : Reader Surface := .rule do
  Reader.blanks
  let found ← Reader.sum fuel
  Reader.blanks
  return found

def Sentence.reader (fuel : Nat) : Reader Sentence := .rule do
  Reader.blanks
  let left ← Reader.sum fuel
  Reader.blanks
  let comparison ← Reader.comparison
  Reader.blanks
  let right ← Reader.sum fuel
  Reader.blanks
  let modulus ← Reader.optional Reader.modulus
  Reader.blanks
  return ⟨left, comparison, right, modulus⟩

/-- What a reader finds when it takes the whole text, and else the place where it got stuck: the
end of what it took, or the furthest failure of a rule. -/
def readAll {α : Type} (reader : Nat → Reader α) (text : String) : Except Error α :=
  let cs := text.toList
  let fuel := 8 * (cs.length + 1)
  match reader fuel cs cs.length with
  | (some (found, []), _) => .ok found
  | (some (_, rest), _) => .error (.badNotation (cs.length - rest.length))
  | (none, least) => .error (.badNotation (cs.length - least))

end SkewBox.Formula
