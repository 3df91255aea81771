import SkewBox.Call.Primitive

/-!
# Sessions

A session holds objects, registers, and the domains that run operations.  A register refers to an
object or holds an answer.  Several registers may refer to one object, and an operation that
consumes its operand changes the object for all of them.  Objects that share their rows see
what is written there.

* `Object`, `Slot`, `Session`: the state.
* `Session.write`: changes an object, and what others share with it.
* `Session.share`: lets an object take over the content of another.
* `Session.perform`: runs an operation of a domain.
* `Session.performDirect`: runs a call beside the domains, which are not told of it.
-/

namespace SkewBox

/-- A value, the place of the domain that made it, the places where its axes and its ranges are
stored, and the ranges that an empty value was given without axes. -/
structure Object where
  value : Parallelotope
  owner : Nat
  axesAt : Nat
  rangesAt : Nat
  spare : Option (List Interval) := none

/-- What a register holds: an object, or an answer with the number of the step that gave it. -/
inductive Slot where
  | object (r : Ref)
  | answer (x : Answer) (step : Nat)

/-- Domains, objects, registers, the first place where nothing was stored yet, and the number of
answers stored so far. -/
structure Session where
  domains : List Domain
  objects : List Object := []
  registers : List (String × Slot) := []
  free : Nat := 0
  steps : Nat := 0

/-- What a call gives back: an object, an object and the bytes it was read from, or an answer. -/
inductive Reply where
  | object (r : Ref)
  | decoded (r : Ref) (used : Nat)
  | answer (x : Answer)
  deriving DecidableEq

/-- The value with the inverse of its axes kept, if they have one. -/
def Parallelotope.remember (a : Parallelotope) : Parallelotope :=
  match a.frame? with
  | none => a
  | some f =>
    match f.remember with
    | .ok f => ⟨a.space, some f⟩
    | .error _ => a

def Object.shared (o p : Object) : Sharing :=
  if o.value.isBottom || p.value.isBottom then {}
  else { axes := o.axesAt = p.axesAt, ranges := o.rangesAt = p.rangesAt }

namespace Session

/-! ## Reading -/

def value (s : Session) (r : Ref) : Parallelotope :=
  match s.objects[r]? with
  | some o => o.value
  | none => .bottom ⟨0, 0⟩

def owner (s : Session) (r : Ref) : Nat :=
  match s.objects[r]? with
  | some o => o.owner
  | none => 0

def domain (s : Session) (k : Nat) : Domain := s.domains.getD k {}

def lookup? (s : Session) (name : String) : Option Slot := s.registers.lookup name

def shared (s : Session) (r o : Ref) : Sharing :=
  match s.objects[r]?, s.objects[o]? with
  | some x, some y => x.shared y
  | _, _ => {}

def operands (s : Session) : Operands where
  value := s.value
  shared := s.shared
  spare r := s.objects[r]?.bind (·.spare)

/-! ## Writing -/

def store (s : Session) (name : String) (reply : Reply) : Session :=
  let slot := match reply with
    | .object r | .decoded r _ => .object r
    | .answer x => .answer x s.steps
  { s with registers := Entries.put s.registers name slot, steps := s.steps + 1 }

/-- Adds an object with rows of its own. -/
def add (s : Session) (owner : Nat) (a : Parallelotope) (spare : Option (List Interval)) :
    Ref × Session :=
  (s.objects.length,
    { s with objects := s.objects ++ [⟨a, owner, s.free, s.free, spare⟩], free := s.free + 1 })

def update (s : Session) (r : Ref) (f : Object → Object) : Session :=
  { s with objects := s.objects.modify r f }

def remember (s : Session) (rs : List Ref) : Session :=
  rs.foldl (fun s r => s.update r fun o => { o with value := o.value.remember }) s

/-- The object with a new content, which has rows of its own in place of those that it has left. -/
def relocate (free : Nat) (w : Stored) (a : Parallelotope) (o : Object) : Object :=
  { o with
    value := a
    axesAt := if w.holdsAxes && !a.isBottom then o.axesAt else free
    rangesAt := if w.holdsRanges && !a.isBottom then o.rangesAt else free
    spare := if o.value.isBottom && a.isBottom then o.spare else none }

/-- Gives an object a new content; what was written into its rows is seen by the others that
share them. -/
def write (s : Session) (r : Ref) (a : Parallelotope) (w : Stored) : Session :=
  { s with
    objects := s.objects.mapIdx fun i o =>
      if i = r then relocate s.free w a o
      else { o with value := w.seenBy (s.shared r i) o.value }
    free := s.free + 1 }

/-- Lets object `a` take over the content of object `b`, whose rows they share from then on. -/
def share (s : Session) (a b : Ref) : Session :=
  match s.objects[b]? with
  | none => s
  | some o => s.update a fun old => { o with owner := old.owner }

/-! ## Running -/

/-- The run of a call: its result and report, its operands, the one that changes, and the one
that the report puts first. -/
structure Run where
  result : Except Error Effect
  report : Report
  operands : List Ref
  subject : Option Ref
  first : Option Ref

namespace Run

def touched (x : Run) : List Ref :=
  (if x.report.asked then x.first.toList else []) ++
    x.report.consulted.filterMap fun k => x.operands[k]?

/-- The new content of the subject: the result, or what a failure left of it. -/
def content (x : Run) (old : Parallelotope) : Parallelotope :=
  match x.result with
  | .ok (.change a) | .ok (.changeFor a _) => a
  | _ => x.report.left.getD old

end Run

def follow (s : Session) (x : Run) : Session :=
  let s := s.remember x.touched
  match x.subject with
  | none => s
  | some r =>
    let a := x.content (s.value r)
    s.write r (if x.touched.contains r then a.remember else a) x.report.stored

/-- Carries out what a run came to.  Without a subject a new content becomes a new object. -/
def settle (s : Session) (owner : Nat) (x : Run) : Except Error Reply × Session :=
  let s := s.follow x
  match x.result with
  | .error e => (.error e, s)
  | .ok (.answer y) | .ok (.changeFor _ y) => (.ok (.answer y), s)
  | .ok (.create a used) =>
    let (r, s) := s.add owner a none
    match used with
    | none => (.ok (.object r), s)
    | some n => (.ok (.decoded r n), s)
  | .ok (.createBare a spare) =>
    let (r, s) := s.add owner a spare
    (.ok (.object r), s)
  | .ok (.change a) =>
    match x.subject with
    | some r => (.ok (.object r), s)
    | none =>
      let (r, s) := s.add owner a none
      (.ok (.object r), s)

/-- The run of a call, consuming its subject or not. -/
def runCall (s : Session) (cfg : Settings) (thresholds : List Datum) (consume : Bool) (c : Call) :
    Run :=
  let (result, report) := Op.start (c.run cfg thresholds s.operands consume)
  let subject := if consume then c.subject? else none
  ⟨result, report, c.operands, subject, subject <|> c.reader?⟩

/-- Runs an operation of the domain at place `k`, consuming its operand if that is asked for
and possible. -/
def perform (s : Session) (k : Nat) (consume : Bool) (c : Call) :
    Except Failure Reply × Session :=
  let d := s.domain k
  let x := s.runCall d.config.settings d.config.thresholds (consume && c.mayConsume) c
  let s := { s with domains := s.domains.set k (d.record x.result x.report) }
  let (reply, s) := s.settle k x
  (reply.mapError (⟨some c.operation, ·⟩), s)

/-- A call beside the domains. -/
inductive Direct where
  | call (c : Call)
  | primitive (p : Primitive)
  | share (a b : Ref)

/-- Runs a call beside the domains, which always consumes its operand: the reply, and whether
it is exact. -/
def performDirect (s : Session) (k : Nat) (cfg : Settings) :
    Direct → Except Error Reply × Bool × Session
  | .call c =>
    let x := s.runCall cfg [] true c
    let (reply, s) := s.settle k x
    (reply, x.report.exact, s)
  | .primitive p =>
    let (result, report) := Op.start (p.run cfg s.operands)
    let (reply, s) := s.settle k ⟨result, report, [], p.subject?, p.subject? <|> p.reader?⟩
    (reply, report.exact, s)
  | .share a b => (.ok (.object a), true, s.share a b)

end Session

end SkewBox
