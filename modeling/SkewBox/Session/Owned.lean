import SkewBox.Call.Misplaced
import SkewBox.Session

/-!
# Owned values

Calls on values that know the domain that made them.  Values of different domains do not mix, and
what is no value is refused or compared as what it is.

* `Handle`: an argument that should be a value.
* `Handle.le`, `Handle.equal`: comparison of arguments that are no values.
* `Session.accept`, `Session.acceptAll`: the check that values share a domain.
* `Plan`, `Session.request`: a call whose operands are still to be checked, and how it is run.
* `Session.describe`: the text of an owned value.
* `Session.sameFingerprint`: the comparison of two fingerprints.
-/

namespace SkewBox

/-- An argument that should be a value: an object, an answer from a register with the number of
the step that gave it, or a datum of the caller. -/
inductive Handle where
  | object (r : Ref)
  | answer (x : Answer) (step : Nat)
  | datum (d : Datum)

namespace Handle

def ofSlot : Slot → Handle
  | .object r => .object r
  | .answer x step => .answer x step

def kind : Handle → String
  | object _ => "Abstract0"
  | answer x _ => x.kind
  | datum d => d.kind

def number? : Handle → Option Rat
  | answer (.flag b) _ | datum (.bool b) => some b.toNat
  | answer (.count n) _ => some n
  | answer (.magnitude q) _ => q
  | datum (.int i) => some i
  | datum (.ratio q) => some q
  | _ => none

def isNothing (h : Handle) : Bool := h.kind = "NoneType"

def equal (g h : Handle) : Bool :=
  match g.number?, h.number? with
  | some p, some q => p = q
  | none, none =>
    match g, h with
    | answer (.affine e) _, answer (.affine f) _ => e.same f
    | answer x _, answer y _ => x = y || (x.isNothing && y.isNothing)
    | _, _ => g.isNothing && h.isNothing
  | _, _ => false

/-- Whether an argument that is no object is at most another: numbers and texts compare with
their like, nothing else does. -/
def le (g h : Handle) : Except Error Bool :=
  match g.number?, h.number? with
  | some p, some q => .ok (p ≤ q)
  | _, _ =>
    match g, h with
    | answer (.text t) _, answer (.text u) _ => .ok (!(u < t))
    | _, _ => .error (.fault .sort)

/-- Whether two arguments are one and the same.  Truth values, nothing and small numbers exist
only once. -/
def same : Handle → Handle → Bool
  | object a, object b => a = b
  | object _, _ | _, object _ => false
  | g, h =>
    let unique := g.kind = h.kind && (g.kind = "bool" || g.isNothing ||
      (g.kind = "int" && g.number?.any fun n => -5 ≤ n && n ≤ 256))
    match g, h with
    | answer _ i, answer _ j => i = j || (unique && g.equal h)
    | _, _ => unique && g.equal h

def render : Handle → String
  | object _ => ""
  | answer x _ => x.render
  | datum d => d.render

def ref : Handle → Except Error Ref
  | object r => .ok r
  | _ => .error (.fault .attribute)

end Handle

/-- A call whose operands are still to be checked. -/
inductive Plan where
  | free (c : Call)
  | array (make : List Ref → Call) (values : List Handle)
  | unary (make : Ref → Call) (a : Handle)
  | binary (make : Ref → Ref → Call) (a b : Handle)
  | transfer (t : Transfer) (a : Handle) (target : Option Handle)

namespace Session

/-- The object of an argument, which must have the domain of the user. -/
def accept (s : Session) (user : Ref) : Handle → Except Error Ref
  | .object r =>
    if s.owner r = s.owner user then .ok r
    else do
      let owner ← (s.domain (s.owner r)).config.render
      .error (.foreignOwner owner (← (s.domain (s.owner user)).config.render))
  | h => .error (.notAValue h.kind)

/-- The objects of a list of arguments, which must not be empty and have one domain. -/
def acceptAll (s : Session) : List Handle → Except Error (List Ref)
  | [] => .error .emptyArray
  | .object a :: rest => return a :: (← rest.mapM (s.accept a))
  | _ => .error (.fault .attribute)

/-- The call of a plan and its first operand, all operands being objects, and owned by one domain
if `owned`. -/
def resolve (s : Session) (owned : Bool) (p : Plan) : Except Error (Call × Option Ref) := do
  let second (a : Ref) (h : Handle) : Except Error Ref := if owned then s.accept a h else h.ref
  match p with
  | .free c => return (c, none)
  | .array make hs =>
    let rs ← if owned then s.acceptAll hs else hs.mapM Handle.ref
    return (make rs, rs.head?)
  | .unary make a => do
    let a ← a.ref
    return (make a, some a)
  | .binary make a b => do
    let a ← a.ref
    return (make a (← second a b), some a)
  | .transfer t a target => do
    let a ← a.ref
    return (.transfer t a (← target.mapM (second a)), some a)

/-- Checks the operands of a plan and runs it in the domain of its first operand if `owned`, or else
in domain `k`. -/
def request (s : Session) (owned : Bool) (k : Nat) (consume : Bool) (p : Plan) :
    Except Failure Reply × Session :=
  match s.resolve owned p with
  | .error e => (.error (.outside e), s)
  | .ok (c, a) => s.perform (if owned then (a.map s.owner).getD k else k) consume c

def describe (s : Session) (a : Ref) : Except Failure String × Session :=
  match (s.domain (s.owner a)).config.render with
  | .error e => (.error (.outside e), s)
  | .ok domain =>
    match s.perform (s.owner a) false (.query (.format none) a) with
    | (.ok (.answer (.text t)), s) => (.ok ("Abstract0(" ++ domain ++ ", " ++ t ++ ")"), s)
    | (.ok _, s) => (.ok "", s)
    | (.error e, s) => (.error e, s)

abbrev Fingerprint := Space × Option (List (Bool × Bool))

def fingerprint (s : Session) (k : Nat) (a : Ref) : Except Failure Fingerprint × Session :=
  match s.perform k false (.query .fingerprint a) with
  | (.ok (.answer (.fingerprint space pattern)), s) => (.ok (space, pattern), s)
  | (.ok _, s) => (.ok (⟨0, 0⟩, none), s)
  | (.error e, s) => (.error e, s)

/-- Whether two objects have one fingerprint, each by the domain at the given place. -/
def sameFingerprint (s : Session) (k : Nat) (a : Ref) (l : Nat) (b : Ref) :
    Except Failure Bool × Session :=
  match s.fingerprint k a with
  | (.error e, s) => (.error e, s)
  | (.ok first, s) =>
    match s.fingerprint l b with
    | (.error e, s) => (.error e, s)
    | (.ok second, s) => (.ok (first = second), s)

end Session

end SkewBox
