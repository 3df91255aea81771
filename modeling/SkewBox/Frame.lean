import SkewBox.Algebra.Echelon
import SkewBox.Interval
import SkewBox.Limits
import SkewBox.Space

/-!
# Frames

A frame is a system of rows: the axes of a skewed coordinate system and, for each
axis, the interval in which its coordinate ranges.  It stands for the points `x` with
`axis · x` in its range for every axis.  The inverse of the axes is kept once it is known.

* `Settings`: the knobs that every operation obeys.
* `Frame`: axes, ranges and the known inverse.
* `Frame.solve`, `Frame.coords`: the inverse, and a direction in row coordinates.
* `Frame.normalize`: integer tightening, and detection of an empty row.
* `Cut`: a frame with the verdict whether it was found to have no point.
-/

namespace SkewBox

/-- What an operation depends on besides its operands. -/
structure Settings where
  precision : Precision := .exact
  tightenIntegers : Bool := true
  maxVertices : Int := 4096
  limits : Limits := {}
  deriving Repr

/-- Whether a row takes integer values on the points of `s`: it mentions integer
dimensions only, with integer coefficients. -/
def Space.integral (s : Space) (row : Vec) : Bool :=
  row.zipIdx.all fun (c, j) => c = 0 || (s.isInt j && c.den = 1)

/-- Axes, the range of each, and the inverse of the axes if it is known. -/
structure Frame where
  axes : Mat
  ranges : List Interval
  inverse? : Option Mat := none
  deriving DecidableEq, Repr

abbrev Direction := Vec × Interval

/-- A frame after a step that may empty it. -/
structure Cut where
  frame : Frame
  empty : Bool
  deriving DecidableEq, Repr

namespace Frame

def rows (f : Frame) : List Direction := f.axes.zip f.ranges

def top (n : Nat) : Frame := ⟨.identity n, List.replicate n .top, none⟩

def isTop (f : Frame) : Bool := f.ranges.all (·.isTop)

/-! ## Inverse -/

def solve (f : Frame) : Except Error Mat :=
  match f.inverse? with
  | some m => .ok m
  | none =>
    match Mat.invert? f.axes with
    | some m => .ok m
    | none => .error .becameSingular

def remember (f : Frame) : Except Error Frame := do
  return { f with inverse? := some (← f.solve) }

/-- The coefficients of `r` in the axes: the `v` with `v · axes = r`. -/
def coords (f : Frame) (r : Vec) : Except Error Vec := do
  Mat.vecMatChecked r (← f.solve)

/-! ## Changing rows -/

def setRow (f : Frame) (i : Nat) (row : Vec) (I : Interval) : Frame :=
  ⟨f.axes.set i row, f.ranges.set i I, none⟩

def setRange (f : Frame) (i : Nat) (I : Interval) : Frame :=
  { f with ranges := f.ranges.set i I }

/-! ## Normal form -/

/-- The range of a row, rounded inward to integers if the row takes integer values. -/
def tighten (cfg : Settings) (s : Space) (row : Vec) (I : Interval) : Interval :=
  if cfg.tightenIntegers && 0 < s.ints && !I.isBottom && s.integral row then I.tighten else I

/-- Tightens the ranges one after the other up to the first empty one; tells whether
there is one. -/
def tightenAll (cfg : Settings) (s : Space) : List Vec → List Interval → List Interval × Bool
  | row :: rows, I :: Is =>
    let I := tighten cfg s row I
    if I.isBottom then (I :: Is, true)
    else
      let (Is, empty) := tightenAll cfg s rows Is
      (I :: Is, empty)
  | _, Is => (Is, false)

/-- Integer tightening of every row, and detection of an empty one. -/
def normalize (cfg : Settings) (s : Space) (f : Frame) : Cut :=
  let (ranges, empty) := tightenAll cfg s f.axes f.ranges
  ⟨{ f with ranges }, empty⟩

end Frame

end SkewBox
