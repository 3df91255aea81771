import SkewBox.Call

/-!
# Misplaced answers

Calls whose operand is an answer where a value should stand.  They fail, apart from the few that
an answer can stand for itself.

* `Query.ofAnswer`, `Call.ofAnswer`: queries and calls on an answer.
-/

namespace SkewBox

/-- A query about an answer: an interval knows whether it is empty or unrestricted, and a text is
its own text.  Whether an answer is minimal or canonical is asked only where values have no
owner, since an owner refuses it first. -/
def Query.ofAnswer (owned : Bool) (x : Answer) : Query → Except Error Answer
  | isBottom =>
    match x with
    | .interval I => .ok (.flag I.isBottom)
    | _ => .error (.fault .attribute)
  | isTop =>
    match x with
    | .interval I => .ok (.flag I.isTop)
    | _ => .error (.fault .attribute)
  | isMinimal | isCanonical =>
    match owned, x with
    | false, .interval I => .ok (.flag (I.isBottom || I.isTop))
    | _, _ => .error (.fault .attribute)
  | format _ =>
    match x with
    | .text t => .ok (.text t)
    | _ => .error (.fault .attribute)
  | size =>
    match x with
    | .space _ => .error (.fault .sort)
    | _ => .error (.fault .attribute)
  | _ => .error (.fault .attribute)

/-- A call with an answer as its first operand: a list has copies, and the closure of anything is
the thing itself. -/
def Call.ofAnswer (owned consume : Bool) (x : Answer) : Call → Except Error Answer
  | query q _ => q.ofAnswer owned x
  | copy _ => if x.isList then .ok x else .error (.fault .attribute)
  | transform .closure _ =>
    if !owned && (consume || x.isList) then .ok x else .error (.fault .attribute)
  | _ => .error (.fault .attribute)

end SkewBox
