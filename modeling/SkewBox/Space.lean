import SkewBox.Error

/-!
# Spaces

A space has integer dimensions, numbered first, and real dimensions after them.

* `Space`: the two counts; `Space.ofCounts` reads them.
* `Space.check`, `Space.checkDistinct`: validation of dimensions that a caller names.
* `Change`: positions at which dimensions are inserted or which are removed.
* `Perm`: a permutation of the dimensions.
-/

namespace SkewBox

/-- Counts of integer and real dimensions. -/
structure Space where
  ints : Nat
  reals : Nat
  deriving DecidableEq, Repr, Inhabited

namespace Space

def ofCounts (ints reals : Int) : Except Error Space :=
  if ints < 0 ∨ reals < 0 then .error (.negativeCounts ints reals)
  else .ok ⟨ints.toNat, reals.toNat⟩

def size (s : Space) : Nat := s.ints + s.reals

def isInt (s : Space) (d : Nat) : Bool := d < s.ints

def check (s : Space) (d : Datum) : Except Error Nat :=
  match d with
  | .int i =>
    if 0 ≤ i ∧ i < s.size then .ok i.toNat else .error (.dimensionRange d.render s.size)
  | _ => .error (.dimensionRange d.render s.size)

/-- The dimensions that the data name, none of them twice. -/
def checkDistinct (s : Space) (ds : List Datum) : Except Error (List Nat) := do
  let dims ← ds.mapM s.check
  if dims.Nodup then return dims
  else throw (.duplicateDimension (dims.map Int.ofNat))

def render (s : Space) : String := s!"Dimension(int={s.ints}, real={s.reals})"

end Space

/-! ## Changes of dimension -/

/-- Positions, in increasing order, the first `ints` of them for integer dimensions. -/
structure Change where
  positions : List Int
  ints : Nat
  reals : Nat
  count : positions.length = ints + reals
  ascending : positions.Pairwise (· ≤ ·)
  deriving DecidableEq, Repr

namespace Change

def make (positions : List Int) (ints reals : Int) : Except Error Change :=
  if ints < 0 ∨ reals < 0 then .error .changeNegative
  else if count : positions.length = ints.toNat + reals.toNat then
    if ascending : positions.Pairwise (· ≤ ·) then
      .ok ⟨positions, ints.toNat, reals.toNat, count, ascending⟩
    else .error (.changeUnsorted positions)
  else .error (.changeCount positions.length ints reals)

def size (c : Change) : Nat := c.positions.length

/-- The change with `k` dimensions of one kind at one position. -/
def repeated (pos k : Nat) (integer : Bool) : Change where
  positions := List.replicate k (pos : Int)
  ints := if integer then k else 0
  reals := if integer then 0 else k
  count := by cases integer <;> simp
  ascending := by simp

/-- The change that lists dimensions of a space, whatever order they come in. -/
def listing (s : Space) (dims : List Nat) : Change where
  positions := dims.mergeSort.map Int.ofNat
  ints := dims.countP (s.isInt ·)
  reals := dims.length - dims.countP (s.isInt ·)
  count := by
    have bound := List.countP_le_length (p := (s.isInt ·)) (l := dims)
    simp only [List.length_map, List.length_mergeSort]
    omega
  ascending := by
    refine List.pairwise_map.mpr (List.Pairwise.imp ?_ (List.pairwise_mergeSort ?_ ?_ dims))
    · intro a b le
      simpa using le
    · intro a b c ab bc
      simp only [decide_eq_true_eq] at ab bc ⊢
      omega
    · intro a b
      simp only [Bool.or_eq_true, decide_eq_true_eq]
      omega

end Change

/-! ## Permutations -/

/-- A permutation: dimension `i` moves to place `images[i]`. -/
structure Perm where
  images : List Nat
  perm : images.Perm (List.range images.length)
  deriving DecidableEq, Repr

namespace Perm

def make (images : List Int) : Except Error Perm :=
  if h : (∀ i ∈ images, 0 ≤ i) ∧
      (images.map Int.toNat).Perm (List.range (images.map Int.toNat).length) then
    .ok ⟨images.map Int.toNat, h.2⟩
  else .error (.notPermutation images)

def size (p : Perm) : Nat := p.images.length

def identity (n : Nat) : Perm := ⟨List.range n, by simp⟩

theorem nodup (p : Perm) : p.images.Nodup := p.perm.nodup_iff.mpr List.nodup_range

theorem mem_images (p : Perm) (i : Nat) : i ∈ p.images ↔ i < p.size :=
  p.perm.mem_iff.trans List.mem_range

/-- The permutation that moves every dimension back. -/
def inverse (p : Perm) : Perm where
  images := (List.range p.size).map fun i => p.images.idxOf i
  perm := by
    rw [List.length_map, List.length_range]
    have images : (List.range p.size).map (fun i => p.images.idxOf i) |>.Perm
        (p.images.map fun i => p.images.idxOf i) := (p.perm.map _).symm
    have places : (p.images.map fun i => p.images.idxOf i) = List.range p.size := by
      apply List.ext_getElem (by simp [size])
      intro k hk _
      simp only [List.length_map] at hk
      simp [p.nodup.idxOf_getElem k hk]
    rwa [places] at images

end Perm

end SkewBox
