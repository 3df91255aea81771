import SkewBox.Bound
import SkewBox.Error
import SkewBox.Text.Blank
import SkewBox.Text.Digit

/-!
# Reading bounds

A numeral is an optional sign followed by an integer, a fraction `p/q`, or a
decimal with an optional exponent.  Digits may be those of any script and single
underscores may stand between them.  The text of a bound is a numeral or a
spelling of infinity, in any case and with blanks around it.  Numerals of any length are read here: the
`Limits` of an interpreter on the digits of one integer bind payloads only, so a text that it would refuse
for its length alone is still a number.

* `Numeral.read?`: the rational number of a numeral.
* `Bound.ofText`, `Bound.ofDatum`: the bound that a caller's text or datum stands for.
-/

namespace SkewBox

namespace Numeral

def valueOf (digits : List Nat) : Nat := digits.foldl (fun n d => 10 * n + d) 0

/-- Splits off what continues a group of digits: digits, each perhaps after an underscore. -/
def moreDigits : List Char → List Nat × List Char
  | [] => ([], [])
  | '_' :: c :: rest =>
    match Text.digitValue? c with
    | some d =>
      let (ds, tail) := moreDigits rest
      (d :: ds, tail)
    | none => ([], '_' :: c :: rest)
  | c :: rest =>
    match Text.digitValue? c with
    | some d =>
      let (ds, tail) := moreDigits rest
      (d :: ds, tail)
    | none => ([], c :: rest)

/-- Splits off a group of digits: digits with single underscores between them. -/
def digitGroup : List Char → List Nat × List Char
  | [] => ([], [])
  | c :: rest =>
    match Text.digitValue? c with
    | some d =>
      let (ds, tail) := moreDigits rest
      (d :: ds, tail)
    | none => ([], c :: rest)

def sign : List Char → Bool × List Char
  | '+' :: rest => (false, rest)
  | '-' :: rest => (true, rest)
  | cs => (false, cs)

/-- Whether a numeral's digits can start here: a digit, or a point and a digit. -/
def startsNumber : List Char → Bool
  | '.' :: c :: _ => Text.isDigit c
  | c :: _ => Text.isDigit c
  | [] => false

/-- The power of ten that an exponent part stands for; the text must end after it. -/
def exponent? : List Char → Option Int
  | [] => some 0
  | c :: rest =>
    if c = 'e' ∨ c = 'E' then
      let (negative, rest) := sign rest
      match digitGroup rest with
      | ([], _) => none
      | (ds, []) => some (if negative then -(valueOf ds : Int) else valueOf ds)
      | _ => none
    else none

/-- The part after the integer digits `whole`, up to the end of the text. -/
def finish? (whole : List Nat) : List Char → Option Rat
  | '/' :: rest =>
    match digitGroup rest with
    | ([], _) => none
    | (ds, []) => if valueOf ds = 0 then none else some (mkRat (valueOf whole) (valueOf ds))
    | _ => none
  | '.' :: rest =>
    let (ds, rest) := digitGroup rest
    (exponent? rest).map fun (e : Int) =>
      (valueOf (whole ++ ds) : Rat) * (10 : Rat) ^ (e - ds.length)
  | rest => (exponent? rest).map fun (e : Int) => (valueOf whole : Rat) * (10 : Rat) ^ e

/-- The rational number that the whole of `cs` spells. -/
def read? (cs : List Char) : Option Rat :=
  let (negative, rest) := sign cs
  if startsNumber rest then
    let (whole, rest) := digitGroup rest
    (finish? whole rest).map fun q => if negative then -q else q
  else none

end Numeral

namespace Bound

def infinity? (text : String) : Option Bound :=
  if text ∈ ["inf", "+inf", "oo", "+oo", "infinity", "+infinity"] then some posInf
  else if text ∈ ["-inf", "-oo", "-infinity"] then some negInf
  else none

def ofText? (text : String) : Option Bound :=
  let cs := (Text.trim text.toList).map Char.toLower
  match infinity? (String.ofList cs) with
  | some b => some b
  | none => (Numeral.read? cs).map Bound.fin

def ofText (text : String) : Except Error Bound :=
  match ofText? text with
  | some b => .ok b
  | none => .error (.unreadableNumber text)

/-- The bound that a caller's datum stands for. -/
def ofDatum : Datum → Except Error Bound
  | .ratio q => .ok (fin q)
  | .bool b => .error (.notANumber b)
  | .int i => .ok (fin i)
  | .float bits =>
    match Binary64.decode bits with
    | .number b => .ok b
    | .nan => .error .nanBound
  | .text s => ofText s
  | d => .error (.unsupportedNumber d.kind)

end Bound

end SkewBox
