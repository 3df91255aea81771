import SkewBox.Binary64.Shortest
import SkewBox.Bound
import SkewBox.Text.Quoted

/-!
# Data as callers hand it over

Numbers, dimensions and payload fields reach the library untyped: a caller may
pass an integer, a binary64 number, a fraction, a text, a truth value, nothing at
all, a list or a record.  A `Datum` is one of these, and messages show it by
`Datum.render`.

* `Datum`: the type.
* `Datum.kind`: the name of its sort.
* `Datum.render`: its text.
-/

namespace SkewBox

/-- An untyped value. -/
inductive Datum where
  | null
  | bool (b : Bool)
  | int (i : Int)
  | float (bits : UInt64)
  | ratio (q : Rat)
  | text (s : String)
  | list (items : List Datum)
  | record (fields : List (String × Datum))
  deriving Repr, Inhabited

namespace Datum

def kind : Datum → String
  | null => "NoneType"
  | bool _ => "bool"
  | int _ => "int"
  | float _ => "float"
  | ratio _ => "Fraction"
  | text _ => "str"
  | list _ => "list"
  | record _ => "dict"

def renderBool (b : Bool) : String := if b then "True" else "False"

def renderRatio (q : Rat) : String := s!"Fraction({q.num}, {q.den})"

mutual

def render : Datum → String
  | null => "None"
  | bool b => renderBool b
  | int i => toString i
  | float bits => Binary64.render bits
  | ratio q => renderRatio q
  | text s => Text.quote s
  | list items => "[" ++ ", ".intercalate (renderItems items) ++ "]"
  | record fields => "\x7b" ++ ", ".intercalate (renderFields fields) ++ "\x7d"

def renderItems : List Datum → List String
  | [] => []
  | d :: ds => render d :: renderItems ds

def renderFields : List (String × Datum) → List String
  | [] => []
  | (key, d) :: rest => (Text.quote key ++ ": " ++ render d) :: renderFields rest

end

def renderInts (xs : List Int) : String := "[" ++ ", ".intercalate (xs.map toString) ++ "]"

/-- The text of a fixed sequence of integers in round brackets; a single one keeps its comma. -/
def renderTuple : List Int → String
  | [x] => s!"({x},)"
  | xs => "(" ++ ", ".intercalate (xs.map toString) ++ ")"

end Datum

end SkewBox
