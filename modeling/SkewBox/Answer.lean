import SkewBox.Convert
import SkewBox.Payload

/-!
# Answers

What operations answer when the answer is no value of the domain.

* `Answer`: the type.
* `Answer.kind`: the name of the sort of an answer.
* `Answer.render`: the text of an answer.
-/

namespace SkewBox

/-- Answers that are no values of the domain. -/
inductive Answer where
  | nothing
  | flag (b : Bool)
  | count (n : Nat)
  | space (s : Space)
  | text (s : String)
  | bytes (bs : List UInt8)
  | interval (I : Interval)
  | box (Is : List Interval)
  | affine (e : Affine)
  | affineConstraint (c : Constraint Affine)
  | affineConstraints (cs : List (Constraint Affine))
  | termConstraints (cs : List (Constraint Term))
  | generators (gs : List Generator)
  | vector (v : Vec)
  | matrix (m : Mat)
  | directions (ds : Option (List Direction))
  | magnitude (q : Option Rat)
  | fingerprint (s : Space) (pattern : Option (List (Bool × Bool)))
  deriving DecidableEq

namespace Answer

def kind : Answer → String
  | nothing | directions none | magnitude none => "NoneType"
  | flag _ => "bool"
  | count _ | fingerprint .. => "int"
  | space _ => "Dimension"
  | text _ => "str"
  | bytes _ => "bytes"
  | interval _ => "Interval"
  | affine _ => "Linexpr"
  | affineConstraint _ => "Lincons"
  | magnitude (some _) => "Fraction"
  | box _ | affineConstraints _ | termConstraints _ | generators _ | vector _ | matrix _
  | directions (some _) => "list"

def isList (x : Answer) : Bool := x.kind = "list"

def isNothing (x : Answer) : Bool := x.kind = "NoneType"

def bracket (parts : List String) : String := "[" ++ ", ".intercalate parts ++ "]"

def renderVec (v : Vec) : String := bracket (v.map Datum.renderRatio)

def render : Answer → String
  | nothing | directions none | magnitude none => "None"
  | flag b => Datum.renderBool b
  | count n => toString n
  | space s => s.render
  | text s => Text.quote s
  | bytes bs => Text.quoteBytes bs
  | interval I => I.render
  | box Is => bracket (Is.map Interval.render)
  | affine e => e.render
  | affineConstraint c => c.render
  | affineConstraints cs => bracket (cs.map Constraint.render)
  | termConstraints cs => bracket (cs.map Constraint.renderTerm)
  | generators gs => bracket (gs.map Generator.render)
  | vector v => renderVec v
  | matrix m => bracket (m.map renderVec)
  | directions (some ds) =>
    bracket (ds.map fun (r, I) => "(" ++ renderVec r ++ ", " ++ I.render ++ ")")
  | magnitude (some q) => Datum.renderRatio q
  | fingerprint .. => ""

end Answer

end SkewBox
