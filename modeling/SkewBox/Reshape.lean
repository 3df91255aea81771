import SkewBox.Forget
import SkewBox.Join

/-!
# Changing dimensions

Dimensions are inserted, removed, permuted, copied and folded into one.

* `place`: the entries of a list at given places of a longer one.
* `addDimensions`, `removeDimensions`, `permute`.
* `expand`: copies of a dimension.
* `fold`: several dimensions into one.
-/

namespace SkewBox

/-- The list of length `n` with `xs[i]` at place `targets[i]` and `fill` elsewhere. -/
def place {α : Type} (n : Nat) (fill : α) (targets : List Nat) (xs : List α) : List α :=
  (targets.zip xs).foldl (fun acc (t, x) => acc.set t x) (List.replicate n fill)

/-- A frame with its dimensions and rows moved to `targets` in a space of `n` dimensions.
Places that nothing moves to are left to be filled. -/
def Frame.move (n : Nat) (targets : List Nat) (f : Frame) : Frame :=
  ⟨place n [] targets (f.axes.map (place n 0 targets)), place n .top targets f.ranges, none⟩

/-- Whether every row has a target for each of its entries. -/
def Frame.fits (targets : List Nat) (f : Frame) : Bool :=
  f.axes.all fun row => row.length ≤ targets.length

def Frame.moveChecked (n : Nat) (targets : List Nat) (f : Frame) : Except Error Frame :=
  if f.fits targets then .ok (f.move n targets) else .error (.fault .index)

namespace Parallelotope

/-! ## Insertion -/

/-- Fails unless the `i`-th position of a change lies in the space and on the side of its kind. -/
def checkInsertion (s : Space) (c : Change) (i : Nat) (pos : Int) : Except Error Unit :=
  let integer : Bool := i < c.ints
  if pos < 0 ∨ (s.size : Int) < pos then .error (.insertionRange pos s.size)
  else if (integer ∧ (s.ints : Int) < pos) ∨ (¬ integer ∧ pos < (s.ints : Int)) then
    .error (.crossesBoundary integer pos s.ints)
  else .ok ()

def freshPlaces (positions : List Nat) : List Nat := positions.mapIdx fun i pos => pos + i

def oldPlaces (n : Nat) (positions : List Nat) : List Nat :=
  (List.range n).map fun j => j + positions.countP (· ≤ j)

/-- The frame with new dimensions, unrestricted or zero. -/
def insertInto (n m : Nat) (positions : List Nat) (project : Bool) (f : Frame) :
    Except Error Frame := do
  let f ← f.moveChecked m (oldPlaces n positions)
  return (freshPlaces positions).foldl (fun f t =>
    f.setRow t (Vec.unit m t) (if project then .zero else .top)) f

/-- Inserts dimensions, each before an old one. -/
def addDimensions (cfg : Settings) (a : Parallelotope) (c : Change) (project : Bool) :
    Op Parallelotope := do
  c.positions.zipIdx.forM fun (pos, i) => checkInsertion a.space c i pos
  let s : Space := ⟨a.space.ints + c.ints, a.space.reals + c.reals⟩
  match a.frame? with
  | none => Op.move ⟨s, none⟩
  | some f =>
    if c.size = 0 then return a
    let f ← insertInto a.space.size s.size (c.positions.map Int.toNat) project f
    (← Op.move ⟨s, some f⟩).tidy cfg

/-! ## Removal -/

/-- The entries of a list whose places are not in `drop`. -/
def without {α : Type} (drop : List Nat) (xs : List α) : List α :=
  (xs.zipIdx.filter fun (_, i) => !drop.contains i).map (·.1)

/-- The space that is left after a removal. -/
def spaceAfter (s : Space) (c : Change) (dims : List Nat) : Except Error Space := do
  let listed := dims.countP (s.isInt ·)
  if listed ≠ c.ints then throw (.announcedIntegers c.ints listed)
  Space.ofCounts ((s.ints : Int) - c.ints) ((s.reals : Int) - c.reals)

def removeRows (ds ps : List Nat) (f : Frame) : Frame :=
  ⟨(without ps f.axes).map (without ds), without ps f.ranges, none⟩

/-- Forgets dimensions, then drops them and the rows that read them. -/
def removeDimensions (cfg : Settings) (a : Parallelotope) (c : Change) : Op Parallelotope := do
  let dims ← a.space.checkDistinct (c.positions.map Datum.int)
  let s ← spaceAfter a.space c dims
  if dims.isEmpty then return a
  match a.frame? with
  | none => Op.move ⟨s, none⟩
  | some f =>
    let (f, rows) ← f.forgetAll cfg a.space false dims
    (← Op.move ⟨s, some (removeRows dims rows f)⟩).tidy cfg

/-! ## Permutation -/

def permute (a : Parallelotope) (p : Perm) : Op Parallelotope := do
  if p.size ≠ a.space.size then throw (.permutationSize p.size a.space.size)
  match a.frame? with
  | none => return a
  | some f => Op.move ⟨a.space, some (← f.moveChecked a.space.size p.images)⟩

/-! ## Expansion -/

/-- The pivot row of dimension `d` with dimension `t` in its place. -/
def copyRow (d t : Nat) (row : Vec) : Vec := (row.set t (row.getD d 0)).set d 0

/-- Lets each of `k` new dimensions from `pos` on take over the pivot row of dimension `d`. -/
def copyDimension (cfg : Settings) (a : Parallelotope) (d pos k : Nat) : Op Parallelotope := do
  match a.frame? with
  | none => throw (.fault .sort)
  | some f =>
    match f.pivotFor? d (← f.mentioning d) with
    | none => throw (.fault .value)
    | some p =>
      let row := f.axes.getD p []
      let I := f.ranges.getD p .top
      let f := (List.range' pos k).foldl (fun f t => f.setRow t (copyRow d t row) I) f
      Op.put a.space (f.normalize cfg a.space)

/-- Adds `count` copies of a dimension after the last one of its kind.  Each copy takes over
the pivot row of the dimension; the copies are not related to each other. -/
def expand (cfg : Settings) (a : Parallelotope) (d : Datum) (count : Int) : Op Parallelotope := do
  let d ← a.space.check d
  if count < 0 then throw (.expandCount count)
  let k := count.toNat
  if k = 0 then return a
  let integer := a.space.isInt d
  let pos := if integer then a.space.ints else a.space.size
  let c := Change.repeated pos k integer
  match a.frame? with
  | none => a.addDimensions cfg c false
  | some f =>
    if 1 < (← f.mentioning d).length then Op.inexact
    (← a.addDimensions cfg c false).copyDimension cfg d pos k

/-! ## Folding -/

/-- The places of the dimensions after two of them are exchanged. -/
def exchange (n i j : Nat) : List Nat := ((List.range n).set i j).set j i

/-- The value with dimension `d` in place of `target`, and the dimensions of `c` removed. -/
def foldPart (cfg : Settings) (a : Parallelotope) (c : Change) (target d : Nat) :
    Op Parallelotope := do
  let v ← a.forget cfg [.int target] false
  match v.frame? with
  | none => throw (.fault .sort)
  | some f =>
    let f ← f.moveChecked a.space.size (exchange a.space.size target d)
    removeDimensions cfg ⟨v.space, some f⟩ c

/-- Folds dimensions into the first of them: the union of the values in which each of them
stands in its place. -/
def fold (cfg : Settings) (a : Parallelotope) (dims : List Datum) : Op Parallelotope := do
  if dims.isEmpty then throw .foldEmpty
  let dims ← a.space.checkDistinct dims
  if dims.any (a.space.isInt ·) && dims.any (!a.space.isInt ·) then throw .foldMixed
  match dims with
  | [] | [_] => return a
  | d :: rest =>
    let c := Change.listing a.space rest
    if a.isBottom then removeDimensions cfg a c
    else
      let folded ← Op.aside do
        let first ← removeDimensions cfg a c
        let others ← rest.mapM (foldPart cfg a c d)
        joinArray cfg (first :: others)
      Op.move folded

end Parallelotope

end SkewBox
