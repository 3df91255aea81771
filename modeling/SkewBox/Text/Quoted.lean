import SkewBox.Text.Printable

/-!
# Quoted text

How a text or a byte string appears inside a message.  The text stands between
single quotes, or between double quotes when it holds a single quote and no double
one.  The backslash, the chosen quote and the tab, line feed and carriage return
are escaped by a backslash, every other character that is not printable by its
number in hexadecimal.

* `quote`: a text.
* `quoteBytes`: a byte string, marked by a leading `b`.
-/

namespace SkewBox.Text

/-- The last `width` hexadecimal digits of `n`, in lower case. -/
def hexDigits (width n : Nat) : List Char :=
  match width with
  | 0 => []
  | width + 1 => hexDigits width (n / 16) ++ [Nat.digitChar (n % 16)]

/-- The quote that surrounds the characters `cs`. -/
def quoteMark (cs : List Char) : Char :=
  if '\'' ∈ cs ∧ '"' ∉ cs then '"' else '\''

/-- The escapes that text and bytes share. -/
def escapeCommon? (mark c : Char) : Option (List Char) :=
  if c = '\\' ∨ c = mark then some ['\\', c]
  else if c = '\t' then some ['\\', 't']
  else if c = '\n' then some ['\\', 'n']
  else if c = '\r' then some ['\\', 'r']
  else none

/-- A character as it stands between quotes. -/
def escapeChar (mark c : Char) : List Char :=
  match escapeCommon? mark c with
  | some cs => cs
  | none =>
    if isPrintable c then [c]
    else if c.toNat < 0x100 then '\\' :: 'x' :: hexDigits 2 c.toNat
    else if c.toNat < 0x10000 then '\\' :: 'u' :: hexDigits 4 c.toNat
    else '\\' :: 'U' :: hexDigits 8 c.toNat

def quote (s : String) : String :=
  let cs := s.toList
  let mark := quoteMark cs
  String.ofList (mark :: cs.flatMap (escapeChar mark) ++ [mark])

/-- A byte as it stands between quotes: visible ASCII as it is. -/
def escapeByte (mark c : Char) : List Char :=
  match escapeCommon? mark c with
  | some cs => cs
  | none =>
    if 0x20 ≤ c.toNat ∧ c.toNat < 0x7f then [c]
    else '\\' :: 'x' :: hexDigits 2 c.toNat

def quoteBytes (bytes : List UInt8) : String :=
  let cs := bytes.map fun b => Char.ofNat b.toNat
  let mark := quoteMark cs
  String.ofList ('b' :: mark :: cs.flatMap (escapeByte mark) ++ [mark])

end SkewBox.Text
