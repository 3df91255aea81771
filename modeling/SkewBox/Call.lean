import SkewBox.Answer
import SkewBox.Domain
import SkewBox.Transfer
import SkewBox.Widening

/-!
# Calls

The operations of a domain, with their arguments.  Operands are references to values that
live elsewhere; running a call reads them and says what becomes of them.

* `Operands`: what references stand for.
* `Query`, `Build`, `Transform`, `Combination`, `Transfer`: the operations by their shape.
* `Call`: an operation with its operands.
* `Effect`: what a call comes to.
* `Call.run`: runs a call.
-/

namespace SkewBox

abbrev Ref := Nat

/-- What references stand for: values, the parts of their rows that two of them share, and the
ranges that an empty value was given without axes. -/
structure Operands where
  value : Ref → Parallelotope
  shared : Ref → Ref → Sharing
  spare : Ref → Option (List Interval)

/-! ## Operations by shape -/

/-- Questions about one value. -/
inductive Query where
  | size
  | space
  | isBottom
  | isTop
  | isMinimal
  | isCanonical
  | fingerprint
  | format (names : Option (List String))
  | encode
  | toBox
  | toAffine
  | toTerms
  | toGenerators
  | isUnconstrained (d : Datum)
  | boundDimension (d : Datum)
  | boundAffine (e : Affine)
  | boundTerm (t : Term)
  | satInterval (d range : Datum)
  | satAffine (c : Constraint Affine)
  | satTerm (c : Constraint Term)

/-- New values over given numbers of dimensions. -/
inductive Build where
  | bottom
  | top
  | ofBox (box : List Datum)
  | ofAffine (cs : List (Constraint Affine))
  | ofTerms (cs : List (Constraint Term))
  | ofGenerators (gens : List Generator)

/-- Changes of one value. -/
inductive Transform where
  | minimize
  | canonicalize
  | approximate
  | closure
  | meetAffine (cs : List (Constraint Affine))
  | meetTerm (cs : List (Constraint Term))
  | addRays (gens : List Generator)
  | addEpsilon (eps : Datum)
  | forget (dims : List Datum) (project : Bool)
  | addDimensions (c : Change) (project : Bool)
  | removeDimensions (c : Change)
  | permute (p : Perm)
  | expand (d : Datum) (count : Int)
  | fold (dims : List Datum)

/-- Changes of one value by another. -/
inductive Combination where
  | meet
  | join
  | widening
  | wideningThresholds (thresholds : Option (List Datum))
  | narrowing
  | addEpsilonBin (eps : Datum)

/-- Assignments and substitutions of several dimensions. -/
inductive Transfer where
  | assignAffine (dims : List Datum) (exprs : List Affine)
  | substituteAffine (dims : List Datum) (exprs : List Affine)
  | assignTerm (dims : List Datum) (terms : List Term)
  | substituteTerm (dims : List Datum) (terms : List Term)

/-- An operation with its operands. -/
inductive Call where
  | build (ints reals : Int) (b : Build)
  | decode (bytes : List UInt8)
  | copy (a : Ref)
  | meetArray (values : List Ref)
  | joinArray (values : List Ref)
  | query (q : Query) (a : Ref)
  | leq (a b : Ref)
  | equal (a b : Ref)
  | transform (t : Transform) (a : Ref)
  | combine (c : Combination) (a b : Ref)
  | transfer (t : Transfer) (a : Ref) (target : Option Ref)

/-! ## Names -/

def Query.operation : Query → Operation
  | size => .size
  | space => .space
  | isBottom => .isBottom
  | isTop => .isTop
  | isMinimal => .isMinimal
  | isCanonical => .isCanonical
  | fingerprint => .fingerprint
  | format _ => .format
  | encode => .encode
  | toBox => .toBox
  | toAffine => .toAffine
  | toTerms => .toTerms
  | toGenerators => .toGenerators
  | isUnconstrained _ => .isUnconstrained
  | boundDimension _ => .boundDimension
  | boundAffine _ => .boundAffine
  | boundTerm _ => .boundTerm
  | satInterval .. => .satInterval
  | satAffine _ => .satAffine
  | satTerm _ => .satTerm

def Build.operation : Build → Operation
  | bottom => .bottom
  | top => .top
  | ofBox _ => .ofBox
  | ofAffine _ => .ofAffine
  | ofTerms _ => .ofTerms
  | ofGenerators _ => .ofGenerators

def Transform.operation : Transform → Operation
  | minimize => .minimize
  | canonicalize => .canonicalize
  | approximate => .approximate
  | closure => .closure
  | meetAffine _ => .meetAffine
  | meetTerm _ => .meetTerm
  | addRays _ => .addRays
  | addEpsilon _ => .addEpsilon
  | forget .. => .forget
  | addDimensions .. => .addDimensions
  | removeDimensions _ => .removeDimensions
  | permute _ => .permute
  | expand .. => .expand
  | fold _ => .fold

def Combination.operation : Combination → Operation
  | meet => .meet
  | join => .join
  | widening => .widening
  | wideningThresholds _ => .wideningThresholds
  | narrowing => .narrowing
  | addEpsilonBin _ => .addEpsilonBin

def Transfer.operation : Transfer → Operation
  | assignAffine .. => .assignAffine
  | substituteAffine .. => .substituteAffine
  | assignTerm .. => .assignTerm
  | substituteTerm .. => .substituteTerm

namespace Call

def operation : Call → Operation
  | build _ _ b => b.operation
  | decode _ => .decode
  | copy _ => .copy
  | meetArray _ => .meetArray
  | joinArray _ => .joinArray
  | query q _ => q.operation
  | leq .. => .leq
  | equal .. => .equal
  | transform t _ => t.operation
  | combine c .. => c.operation
  | transfer t .. => t.operation

def operands : Call → List Ref
  | build .. | decode _ => []
  | copy a | query _ a | transform _ a => [a]
  | meetArray values | joinArray values => values
  | leq a b | equal a b | combine _ a b => [a, b]
  | transfer _ a target => a :: target.toList

/-- The operand that a call changes, or of which it changes a copy. -/
def subject? : Call → Option Ref
  | transform _ a | combine _ a _ | transfer _ a _ => some a
  | _ => none

/-- The operand that a call asks about without changing it. -/
def reader? : Call → Option Ref
  | query _ a | leq a _ | equal a _ => some a
  | _ => none

/-- Whether a domain lets a call change its operand in place.  Extrapolations and the plain
enlargement always work on a copy. -/
def mayConsume : Call → Bool
  | transform (.addEpsilon _) _ => false
  | combine .widening .. | combine (.wideningThresholds _) .. | combine .narrowing .. => false
  | c => c.subject?.isSome

end Call

/-! ## Running -/

def Query.run (cfg : Settings) (a : Parallelotope) : Query → Op Answer
  | size => return .count a.size
  | space => return .space a.space
  | isBottom => return .flag a.isBottom
  | isTop => return .flag a.isTop
  | isMinimal | isCanonical => return .flag (a.isBottom || a.isTop)
  | fingerprint => do
    let (s, pattern) ← a.fingerprint cfg
    return .fingerprint s pattern
  | format names => return .text (← a.format names)
  | encode => return .bytes (← Payload.encode cfg.limits a)
  | toBox => return .box (← a.toBox cfg)
  | toAffine => return .affineConstraints a.toAffine
  | toTerms => return .termConstraints a.toTerms
  | toGenerators => return .generators (← a.toGenerators cfg)
  | isUnconstrained d => return .flag (← a.isUnconstrained d)
  | boundDimension d => return .interval (← a.boundDimension cfg d)
  | boundAffine e => return .interval (← a.boundAffine cfg e)
  | boundTerm t => return .interval (← a.boundTerm cfg t)
  | satInterval d range => do
    let I ← Interval.ofDatum range
    return .flag (← a.satInterval cfg d I)
  | satAffine c => return .flag (← a.satAffine cfg c)
  | satTerm c => return .flag (← a.satTerm cfg c)

def Build.run (cfg : Settings) (s : Space) : Build → Op Parallelotope
  | bottom => return .bottom s
  | top => return .top s
  | ofBox box => Parallelotope.ofBox cfg s box
  | ofAffine cs => Parallelotope.ofAffine cfg s cs
  | ofTerms cs => Parallelotope.ofTerms cfg s cs
  | ofGenerators gens => Parallelotope.ofGenerators cfg s gens

def Transform.run (cfg : Settings) (a : Parallelotope) : Transform → Op Parallelotope
  | minimize | canonicalize | approximate => a.tidy cfg
  | closure => return a
  | meetAffine cs => a.meetAffine cfg cs
  | meetTerm cs => a.meetTerm cfg cs
  | addRays gens => a.addRays gens
  | addEpsilon eps => a.addEpsilon cfg eps
  | forget dims project => a.forget cfg dims project
  | addDimensions c project => a.addDimensions cfg c project
  | removeDimensions c => a.removeDimensions cfg c
  | permute p => a.permute p
  | expand d count => a.expand cfg d count
  | fold dims => a.fold cfg dims

/-- Changes a value by another; `thresholds` are those of a widening that has none of its own. -/
def Combination.run (cfg : Settings) (thresholds : List Datum) (a b : Parallelotope) :
    Combination → Op Parallelotope
  | meet => a.meet cfg b
  | join => a.join cfg b
  | widening => a.widening cfg b
  | wideningThresholds ts => a.wideningThresholds cfg b (ts.getD thresholds)
  | narrowing => a.narrowing cfg b
  | addEpsilonBin eps => a.addEpsilonBin cfg b eps

def Transfer.run (cfg : Settings) (a : Parallelotope) (target : Target) :
    Transfer → Op Parallelotope
  | assignAffine dims exprs => a.assignAffine cfg dims exprs target
  | substituteAffine dims exprs => a.substituteAffine cfg dims exprs target
  | assignTerm dims terms => a.assignTerm cfg dims terms target
  | substituteTerm dims terms => a.substituteTerm cfg dims terms target

inductive Effect where
  /-- A new value, and the bytes it was read from. -/
  | create (a : Parallelotope) (used : Option Nat)
  /-- A new value, which may be an empty one with ranges but no axes. -/
  | createBare (a : Parallelotope) (spare : Option (List Interval))
  /-- A new content of the subject. -/
  | change (a : Parallelotope)
  /-- A new content of the subject, and an answer that is not the subject. -/
  | changeFor (a : Parallelotope) (answer : Answer)
  | answer (x : Answer)

/-- The target of a transfer: the subject itself when it is the one that changes.  A copy of the
subject shares no rows with the target. -/
def targetOf (ops : Operands) (consume : Bool) (a : Ref) : Option Ref → Target
  | none => .none
  | some b =>
    if consume && a = b then .operand
    else .value (ops.value b) (if consume then ops.shared a b else {})

/-- Runs a call on the values that references stand for.  With `consume` the subject itself
changes, otherwise a copy of it. -/
def Call.run (cfg : Settings) (thresholds : List Datum) (ops : Operands) (consume : Bool) :
    Call → Op Effect
  | build ints reals b => do
    let s ← Space.ofCounts ints reals
    return .create (← b.run cfg s) none
  | decode bytes => do
    let (a, used) ← Payload.decode cfg.limits bytes
    return .create a (some used)
  | copy a => return .create (ops.value a) none
  | meetArray values => return .create (← Parallelotope.meetArray cfg (values.map ops.value)) none
  | joinArray values => return .create (← Parallelotope.joinArray cfg (values.map ops.value)) none
  | query q a => return .answer (← q.run cfg (ops.value a))
  | leq a b => return .answer (.flag (← (ops.value a).leq cfg (ops.value b)))
  | equal a b => return .answer (.flag (← (ops.value a).equal cfg (ops.value b)))
  | transform t a => return .change (← t.run cfg (ops.value a))
  | combine c a b => return .change (← c.run cfg thresholds (ops.value a) (ops.value b))
  | transfer t a target => do
    return .change (← t.run cfg (ops.value a) (targetOf ops consume a target))

end SkewBox
