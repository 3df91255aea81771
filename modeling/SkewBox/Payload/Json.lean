import SkewBox.Datum
import SkewBox.Entries
import SkewBox.Limits
import SkewBox.Text.Utf8

/-!
# JSON texts

Reading of JSON into data.  Numbers with a fraction or an exponent are the nearest binary64
numbers, and the names `NaN`, `Infinity` and `-Infinity` are numbers too.  A repeated key
keeps its first place and its last value.  Control characters in texts are refused.  Reading goes
from left to right and ends at the first flaw: where the text is not JSON, at an integer with too
many digits, or where too many lists and records are open.

* `Json.Flaw`: why a text is not read.
* `Json.read`: the datum of a whole text.
-/

namespace SkewBox.Json

/-! ## Blanks, words and digits -/

def isSpace (c : Char) : Bool := c == ' ' || c == '\t' || c == '\n' || c == '\r'

def skip (cs : List Char) : List Char := cs.dropWhile isSpace

def word? (w : String) (cs : List Char) : Option (List Char) := w.toList.isPrefixOf? cs

def isDigit (c : Char) : Bool := '0' ≤ c && c ≤ '9'

def natOf (digits : List Char) : Nat :=
  digits.foldl (fun n c => 10 * n + (c.toNat - '0'.toNat)) 0

/-! ## Texts -/

def hexValue? (c : Char) : Option Nat :=
  if isDigit c then some (c.toNat - '0'.toNat)
  else if 'a' ≤ c ∧ c ≤ 'f' then some (c.toNat - 'a'.toNat + 10)
  else if 'A' ≤ c ∧ c ≤ 'F' then some (c.toNat - 'A'.toNat + 10)
  else none

def hex4? : List Char → Option (Nat × List Char)
  | a :: b :: c :: d :: rest => do
    let digits ← [a, b, c, d].mapM hexValue?
    return (digits.foldl (fun n x => 16 * n + x) 0, rest)
  | _ => none

/-- A character given by a number after `\u`, taking a second one for the other half of a pair.
A half without its partner has no character of its own. -/
def unicode? (cs : List Char) : Option (Char × List Char) := do
  let (n, rest) ← hex4? cs
  if 0xd800 ≤ n ∧ n < 0xdc00 then
    match rest with
    | '\\' :: 'u' :: rest' =>
      match hex4? rest' with
      | some (m, rest'') =>
        if 0xdc00 ≤ m ∧ m < 0xe000 then
          return (Char.ofNat (0x10000 + (n - 0xd800) * 0x400 + (m - 0xdc00)), rest'')
        else return ('�', rest)
      | none => return ('�', rest)
    | _ => return ('�', rest)
  else if 0xdc00 ≤ n ∧ n < 0xe000 then return ('�', rest)
  else return (Char.ofNat n, rest)

def escape? : List Char → Option (Char × List Char)
  | '"' :: rest => some ('"', rest)
  | '\\' :: rest => some ('\\', rest)
  | '/' :: rest => some ('/', rest)
  | 'b' :: rest => some ('\x08', rest)
  | 'f' :: rest => some ('\x0c', rest)
  | 'n' :: rest => some ('\n', rest)
  | 'r' :: rest => some ('\r', rest)
  | 't' :: rest => some ('\t', rest)
  | 'u' :: rest => unicode? rest
  | _ => none

/-- The characters up to the closing quote. -/
def text? : Nat → List Char → Option (List Char × List Char)
  | 0, _ => none
  | _ + 1, [] => none
  | fuel + 1, c :: rest =>
    if c = '"' then some ([], rest)
    else if c.toNat < 0x20 then none
    else do
      let (c, rest) ← if c = '\\' then escape? rest else some (c, rest)
      let (cs, rest) ← text? fuel rest
      return (c :: cs, rest)

/-! ## Numbers -/

/-- The binary64 number nearest to `±digits · 10^exponent`, infinite when it is too large. -/
def nearestFloat (negative : Bool) (digits : List Char) (exponent : Int) : UInt64 :=
  let n := natOf digits
  let size := exponent + digits.length
  let index :=
    if n = 0 ∨ size < -400 then 0
    else if 400 + digits.length < size then Binary64.lastFinite + 1
    else ((Binary64.nearest? ((n : Rat) * (10 : Rat) ^ exponent)).getD (Binary64.lastFinite + 1))
  UInt64.ofNat (if negative then Binary64.pow2 63 + index else index)

def fraction? : List Char → Option (List Char × List Char)
  | '.' :: rest =>
    match rest.takeWhile isDigit with
    | [] => none
    | ds => some (ds, rest.dropWhile isDigit)
  | _ => none

def exponent? : List Char → Option (Int × List Char)
  | c :: rest =>
    if c = 'e' ∨ c = 'E' then
      let (negative, rest) : Bool × List Char := match rest with
        | '+' :: rest => (false, rest)
        | '-' :: rest => (true, rest)
        | rest => (false, rest)
      match rest.takeWhile isDigit with
      | [] => none
      | ds =>
        some (if negative then -(natOf ds : Int) else natOf ds, rest.dropWhile isDigit)
    else none
  | [] => none

/-- The integer digits of a number: a zero stands alone. -/
def whole? : List Char → Option (List Char × List Char)
  | '0' :: rest => some (['0'], rest)
  | cs =>
    match cs.takeWhile isDigit with
    | [] => none
    | ds => some (ds, cs.dropWhile isDigit)

/-- Why a text is not read. -/
inductive Flaw where
  | form
  | digits
  | depth
  deriving DecidableEq, Repr

/-- A number after its sign.  Only the digits of an integer are counted. -/
def number (limits : Limits) (negative : Bool) (cs : List Char) :
    Except Flaw (Datum × List Char) := do
  let (whole, rest) ← (whole? cs).getDM (throw .form)
  match fraction? rest, exponent? rest with
  | none, none =>
    if !limits.spells whole.length then throw .digits
    return (.int (if negative then -(natOf whole : Int) else natOf whole), rest)
  | none, some (e, rest) => return (.float (nearestFloat negative whole e), rest)
  | some (ds, rest), _ =>
    let (e, rest) := (exponent? rest).getD (0, rest)
    return (.float (nearestFloat negative (whole ++ ds) (e - ds.length)), rest)

def nan : Datum := .float 0x7ff8000000000000

/-- A number, or the name of one. -/
def numeric (limits : Limits) (cs : List Char) : Except Flaw (Datum × List Char) :=
  match cs with
  | '-' :: rest =>
    match word? "Infinity" rest with
    | some rest => .ok (.float 0xfff0000000000000, rest)
    | none => number limits true rest
  | _ => number limits false cs

/-- A word that stands for a datum. -/
def constant? (cs : List Char) : Option (Datum × List Char) :=
  [("null", Datum.null), ("true", .bool true), ("false", .bool false), ("NaN", nan),
    ("Infinity", .float 0x7ff0000000000000)].findSome? fun (w, d) =>
      (word? w cs).map (d, ·)

/-! ## Values -/

mutual

/-- A value inside `level` lists and records, with no blanks before it.  Each step hands on one unit
less of its fuel. -/
def value (limits : Limits) : Nat → Nat → List Char → Except Flaw (Datum × List Char)
  | 0, _, _ => throw .form
  | fuel + 1, level, cs =>
    match cs with
    | '"' :: rest => do
      let (s, rest) ← (text? fuel rest).getDM (throw .form)
      return (.text (String.ofList s), rest)
    | '[' :: rest => do
      if !limits.opens level then throw .depth
      match skip rest with
      | ']' :: rest => return (.list [], rest)
      | rest => do
        let (items, rest) ← items limits fuel (level + 1) rest
        return (.list items, rest)
    | '\x7b' :: rest => do
      if !limits.opens level then throw .depth
      match skip rest with
      | '\x7d' :: rest => return (.record [], rest)
      | rest => do
        let (fields, rest) ← fields limits fuel (level + 1) [] rest
        return (.record fields, rest)
    | _ => (constant? cs).elim (numeric limits cs) .ok

def items (limits : Limits) : Nat → Nat → List Char → Except Flaw (List Datum × List Char)
  | 0, _, _ => throw .form
  | fuel + 1, level, cs => do
    let (d, rest) ← value limits fuel level cs
    match skip rest with
    | ']' :: rest => return ([d], rest)
    | ',' :: rest => do
      let (ds, rest) ← items limits fuel level (skip rest)
      return (d :: ds, rest)
    | _ => throw .form

/-- The fields of a record up to its closing brace, after those found so far. -/
def fields (limits : Limits) : Nat → Nat → List (String × Datum) → List Char →
    Except Flaw (List (String × Datum) × List Char)
  | 0, _, _, _ => throw .form
  | fuel + 1, level, found, cs => do
    match cs with
    | '"' :: rest => do
      let (key, rest) ← (text? fuel rest).getDM (throw .form)
      match skip rest with
      | ':' :: rest => do
        let (d, rest) ← value limits fuel level (skip rest)
        let found := Entries.put found (String.ofList key) d
        match skip rest with
        | '\x7d' :: rest => return (found, rest)
        | ',' :: rest => fields limits fuel level found (skip rest)
        | _ => throw .form
      | _ => throw .form
    | _ => throw .form

end

/-- The datum that a whole text spells. -/
def read (limits : Limits) (cs : List Char) : Except Flaw Datum := do
  let (d, rest) ← value limits (2 * cs.length + 2) 0 (skip cs)
  if !(skip rest).isEmpty then throw .form
  return d

end SkewBox.Json
