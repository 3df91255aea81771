import SkewBox.Parallelotope

/-!
# Operations

An operation may fail, and reports whether its result is exact.  It also reports what it does to
its operands, so that whoever stores them can follow: an operation consumes its first operand,
whose rows are rewritten in place or left for new ones, and a value keeps the inverse of its axes
once it has been computed.  The report is kept when the operation fails.

* `Stored`, `Sharing`: the rows in which an operand was stored, and what others see of them.
* `Report`: exactness, and what became of the operands.
* `Op`: computations that may fail and keep a report.
* `Op.invert`, `Op.about`, `Op.kept`: inverses that are computed on the way.
* `Op.put`, `Op.refit`, `Op.move`: the three ways in which the operand gets a new content.
* `Op.aside`, `Op.scratch`: computations on values of their own.
-/

namespace SkewBox

/-! ## Stored rows -/

/-- The parts of their rows that two values share. -/
structure Sharing where
  axes : Bool := false
  ranges : Bool := false
  deriving DecidableEq, Repr

/-- What became of the rows in which an operand was stored: the axes and the ranges that were
written there, and whether the operand still has its own there. -/
structure Stored where
  axes : Option Mat := none
  ranges : Option (List Interval) := none
  holdsAxes : Bool := true
  holdsRanges : Bool := true
  deriving DecidableEq, Repr

namespace Stored

/-- The rows after a frame was written in place, which reaches the parts still held. -/
def write (w : Stored) (f : Frame) : Stored :=
  { w with
    axes := if w.holdsAxes then some f.axes else w.axes
    ranges := if w.holdsRanges then some f.ranges else w.ranges }

/-- The rows after the operand has left them. -/
def abandon (w : Stored) : Stored := { w with holdsAxes := false, holdsRanges := false }

/-- A value that shares some parts of the rows, after what was written there. -/
def seenBy (w : Stored) (sharing : Sharing) (b : Parallelotope) : Parallelotope :=
  match b.frame? with
  | none => b
  | some g => ⟨b.space, some { g with
      axes := if sharing.axes then w.axes.getD g.axes else g.axes
      ranges := if sharing.ranges then w.ranges.getD g.ranges else g.ranges }⟩

end Stored

/-! ## Reports -/

/-- What an operation reports besides its result. -/
structure Report where
  /-- No precision was lost so far. -/
  exact : Bool := true
  /-- The inverse of the first operand was computed since its content was last recorded. -/
  asked : Bool := false
  /-- The places of the further operands whose inverse was computed. -/
  consulted : List Nat := []
  /-- The first operand, if it has got a new content. -/
  left : Option Parallelotope := none
  /-- The rows in which the first operand was stored. -/
  stored : Stored := {}
  deriving DecidableEq, Repr

/-- A computation that may fail and keeps a report, also when it fails. -/
abbrev Op (α : Type) : Type := ExceptT Error (StateM Report) α

namespace Op

variable {α : Type}

def inexact : Op Unit := modify fun r => { r with exact := false }

/-! ## Inverses -/

/-- The frame of the first operand with its inverse, which is kept from here on. -/
def invert (f : Frame) : Op Frame := do
  let f ← f.remember
  modify fun r => { r with asked := true }
  return f

/-- The frame of the first operand with its inverse, if that has been computed on the way. -/
def kept (f : Frame) : Op Frame := do
  if (← get).asked then f.remember else return f

/-- Runs a computation in which the operand at place `k` stands first. -/
def about (k : Nat) (x : Op α) : Op α := fun r =>
  let (result, r') := x { r with asked := false }
  (result, { r' with
    asked := r.asked
    consulted := if r'.asked then r'.consulted ++ [k] else r'.consulted })

/-! ## New contents -/

/-- Writes a frame into the rows of the first operand; a cut that empties it leaves none. -/
def write (s : Space) (c : Cut) : Op Unit := modify fun r =>
  let stored := r.stored.write c.frame
  { r with
    asked := false
    left := some (c.toParallelotope s)
    stored := if c.empty then stored.abandon else stored }

/-- Gives the first operand a content that is written into its rows. -/
def put (s : Space) (c : Cut) : Op Parallelotope := do
  write s c
  return c.toParallelotope s

/-- Gives the first operand new ranges for the axes it has. -/
def refit (s : Space) (f : Frame) : Op Parallelotope := do
  modify fun r => { r with
    asked := false
    left := some ⟨s, some f⟩
    stored := { r.stored with holdsRanges := false } }
  return ⟨s, some f⟩

/-- Gives the first operand a content with rows of its own. -/
def move (a : Parallelotope) : Op Parallelotope := do
  modify fun r => { r with asked := false, left := some a, stored := r.stored.abandon }
  return a

/-- A further operand as it is by now, when it shares rows with the first. -/
def current (sharing : Sharing) (b : Parallelotope) : Op Parallelotope := do
  return (← get).stored.seenBy sharing b

/-! ## Values of their own -/

/-- Runs a computation on values of its own, of which only the loss of precision counts. -/
def aside (x : Op α) : Op α := fun r =>
  let (result, r') := x { exact := r.exact }
  (result, { r with exact := r'.exact })

/-- Runs a computation whose precision does not count, on values of its own. -/
def scratch (x : Op α) : Op α := fun r => ((x {}).1, r)

def start (x : Op α) : Except Error α × Report := x {}

end Op

/-- Integer tightening in place, and the empty set in place of a frame with an empty row. -/
def Parallelotope.tidy (cfg : Settings) (a : Parallelotope) : Op Parallelotope :=
  match a.frame? with
  | none => return a
  | some f => Op.put a.space (f.normalize cfg a.space)

end SkewBox
