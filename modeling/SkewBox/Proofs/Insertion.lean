import SkewBox.Proofs.Narrowing
import SkewBox.Proofs.Projection

/-!
# Insertion and removal

Insertion spreads the rows of a value over the old places and puts unit rows at the new ones.  Removing
the new dimensions finds just these unit rows, and what is left are the rows from before, in their order
and rounded.

* `Parallelotope.Inserts`, `addDimensions_inserts`, `Inserts.removeDimensions`: the two operations.
* `Parallelotope.insertion_undone`: an insertion, and its removal.
-/

namespace SkewBox

open Parallelotope (oldPlaces freshPlaces removeRows freshRange freshRange_tighten)

namespace Frame

variable {f g : Frame} {m n : ℕ} {cfg : Settings} {s s' : Space} {old fresh : List ℕ} {I : Interval}
  {project : Bool}

/-! ## Rounding -/

theorem Spread.normalize (spread : f.Spread s'.size old fresh I g) (regular : f.Regular s.size)
    (length : old.length = s.size) (fixed : I.tighten = I)
    (integer : ∀ j < s.size, old.getD j 0 < s'.ints ↔ j < s.ints)
    (before : (f.normalize cfg s).empty = false) (after : (g.normalize cfg s').empty = false) :
    (f.normalize cfg s).frame.Spread s'.size old fresh I (g.normalize cfg s').frame := by
  have regular' : g.Regular s'.size := spread.regular regular length
  refine ⟨spread.places, spread.axes, (regular'.normalize True after).1.ranges, spread.inverse, ?_, ?_⟩
  · intro i hi
    have small : i < s.size := length ▸ hi
    have inside := spread.lt_of_mem (List.mem_append_left _ (getD_mem hi))
    refine ⟨(spread.moved i hi).1, ?_⟩
    rw [regular'.getD_normalize after inside, regular.getD_normalize before small]
    exact spread.tighten_old regular length integer small
  · intro t ht
    have inside := spread.lt_of_mem (List.mem_append_right _ ht)
    refine ⟨(spread.unit t ht).1, ?_⟩
    rw [regular'.getD_normalize after inside, (spread.unit t ht).2, tighten_of_fixed fixed]

/-- Rounding after an insertion finds the frame empty if rounding before it does. -/
theorem Spread.normalize_rel (spread : f.Spread s'.size old fresh I g) (regular : f.Regular s.size)
    (length : old.length = s.size) (fixed : I.tighten = I) (nonempty : I.isBottom = false)
    (integer : ∀ j < s.size, old.getD j 0 < s'.ints ↔ j < s.ints) :
    Option.Rel (fun f g => f.Spread s'.size old fresh I g)
      ((f.normalize cfg s).toParallelotope s).frame? ((g.normalize cfg s').toParallelotope s').frame? := by
  have same : (g.normalize cfg s').empty = (f.normalize cfg s).empty :=
    spread.normalize_empty regular length fixed nonempty integer
  cases before : (f.normalize cfg s).empty with
  | true =>
    have after := same.trans before
    simp only [Cut.toParallelotope, before, after, if_true]
    exact .none
  | false =>
    have after := same.trans before
    simp only [Cut.toParallelotope, before, after, Bool.false_eq_true, if_false]
    exact .some (spread.normalize regular length fixed integer before after)

/-! ## Forgetting what is free already -/

theorem Spread.frees (spread : f.Spread m old fresh (freshRange project) g) (regular : f.Regular n)
    (length : old.length = n) {t : ℕ} (ht : t ∈ fresh) : g.Frees m project t t where
  inside := spread.lt_of_mem (List.mem_append_right _ ht)
  row := (spread.unit t ht).1
  range := (spread.unit t ht).2
  others i hi other := by
    cases spread.cases hi with
    | inl moved =>
      obtain ⟨j, hj, rfl⟩ := moved
      exact spread.entry_fresh regular length (length ▸ hj) ht
    | inr new =>
      have inside := spread.lt_of_mem (List.mem_append_right _ ht)
      rw [Mat.entry, (spread.unit i new).1, Vec.getD_unit inside, if_neg other]

theorem Frees.eliminateAll_self {d p : ℕ} (frees : f.Frees s.size project d p)
    (regular : f.Regular s.size) :
    f.eliminateAll cfg s d p project = ⟨f.axes, f.ranges, none⟩ := by
  have rows : ∀ i < s.size,
      (f.eliminateAll cfg s d p project).axes.getD i [] = f.axes.getD i [] ∧
        (f.eliminateAll cfg s d p project).ranges.getD i .top = f.ranges.getD i .top := by
    intro i hi
    by_cases pivot : i = p
    · subst pivot
      have row := regular.row_eliminateAll (d := d) (p := i) cfg project hi
      simp only [if_true, Prod.mk.injEq] at row
      rw [frees.row, frees.range]
      exact row
    · exact regular.row_eliminateAll_of_zero cfg project hi pivot (frees.others i hi pivot)
  have axes : (f.eliminateAll cfg s d p project).axes = f.axes :=
    eq_of_getD (regular.hasShape_eliminateAll frees.inside).length regular.axes.shape.length
      fun i hi => (rows i hi).1
  have ranges : (f.eliminateAll cfg s d p project).ranges = f.ranges :=
    eq_of_getD regular.length_ranges_eliminateAll regular.ranges fun i hi => (rows i hi).2
  exact congrArg₂ (Frame.mk · · none) axes ranges

/-- Forgetting dimensions that are free already finds the rows that read them, and changes no row. -/
theorem Regular.forgetAll_self {ds : List ℕ} {row : ℕ → ℕ} {mayFail : Prop}
    (regular : f.Regular s.size) (inside : ∀ d ∈ ds, d < s.size)
    (frees : ∀ d ∈ ds, f.Frees s.size project d (row d)) :
    Op.Meets (fun _ => True) (fun _ => True) mayFail (f.forgetAll cfg s project ds) fun r =>
      r.1.axes = f.axes ∧ r.1.ranges = f.ranges ∧ r.2 = ds.map row := by
  induction ds generalizing f with
  | nil => exact Op.meets_pure ⟨rfl, rfl, rfl⟩
  | cons d ds ih =>
    obtain ⟨hd, inside⟩ := List.forall_mem_cons.mp inside
    obtain ⟨free, frees⟩ := List.forall_mem_cons.mp frees
    unfold forgetAll
    apply (regular.forgetOne_eq hd).bind
    rintro _ ⟨p, hp, pivot, rfl⟩
    -- No other row mentions the dimension, so the pivot is the row that reads it.
    obtain rfl : p = row d := by
      by_contra other
      exact pivot (free.others p hp other)
    rw [free.eliminateAll_self regular]
    apply (Op.write_meets trivial).bind
    intro _ _
    have regular' : Frame.Regular ⟨f.axes, f.ranges, none⟩ s.size :=
      ⟨regular.axes, regular.ranges, by simp⟩
    have frees' : ∀ e ∈ ds, Frame.Frees ⟨f.axes, f.ranges, none⟩ s.size project e (row e) := fun e he =>
      ⟨⟨(frees e he).inside, (frees e he).row, (frees e he).others⟩, (frees e he).range⟩
    apply (ih regular' inside frees').bind
    rintro ⟨g, ps⟩ ⟨axes, ranges, rfl⟩
    exact Op.meets_pure ⟨axes, ranges, rfl⟩

/-! ## The rows that are left -/

theorem Spread.removeRows_eq (spread : f.Spread m old fresh (freshRange project) g)
    (regular : f.Regular n) (length : old.length = n) (ascending : old.Pairwise (· < ·)) :
    removeRows fresh fresh g = ⟨f.axes, f.ranges, none⟩ := by
  have regular' : g.Regular m := spread.regular regular length
  have left : kept m fresh = old := kept_eq_of_perm spread.places ascending
  have inside : ∀ t ∈ fresh, t < m := fun t ht => spread.lt_of_mem (List.mem_append_right _ ht)
  have distinct : fresh.Nodup :=
    (List.nodup_append.mp (spread.places.nodup_iff.mpr List.nodup_range)).2.1
  have reads : List.Forall₂ (g.Reads m) fresh fresh :=
    List.forall₂_same.mpr fun t ht => (spread.frees regular length ht).toReads
  have removed : (removeRows fresh fresh g).Regular n := by
    have removed := regular_removeRows reads distinct inside regular'
    rwa [left, length] at removed
  have small : ∀ {i}, i < n → i < (kept m fresh).length := by
    intro i hi
    rwa [left, length]
  -- The columns of the new dimensions go with their rows; what is left are the old entries.
  have axes : (removeRows fresh fresh g).axes = f.axes := by
    apply removed.axes.shape.eq_of_entry regular.axes.shape
    intro i hi j hj
    rw [entry_removeRows regular' (small hi) (small hj), left, spread.entry_old regular length hi hj]
  have ranges : (removeRows fresh fresh g).ranges = f.ranges := by
    apply eq_of_getD removed.ranges regular.ranges
    intro i hi
    rw [range_removeRows regular' (small hi), left, (spread.moved i (length.symm ▸ hi)).2]
  exact congrArg₂ (Frame.mk · · none) axes ranges

end Frame

/-! ## Spaces -/

theorem Space.countP_isInt_range (s : Space) : (List.range s.size).countP (s.isInt ·) = s.ints := by
  have integers : (List.range s.ints).countP (s.isInt ·) = s.ints := by
    rw [List.countP_eq_length.mpr, List.length_range]
    intro j hj
    simpa [Space.isInt] using hj
  have reals : (List.range' s.ints s.reals).countP (s.isInt ·) = 0 := by
    rw [List.countP_eq_zero]
    intro j hj
    simpa [Space.isInt] using (List.mem_range'_1.mp hj).1
  rw [Space.size, range_add, List.countP_append, integers, reals, add_zero]

namespace Parallelotope

variable {a b : Parallelotope} {cfg : Settings} {c : Change} {project : Bool}

section Accepted

variable {s : Space}
  (checked : ∀ entry ∈ c.positions.zipIdx, checkInsertion s c entry.2 entry.1 = .ok ())

include checked

theorem countP_isInt_freshPlaces : (freshPlaces (c.positions.map Int.toNat)).countP
    (Space.isInt ⟨s.ints + c.ints, s.reals + c.reals⟩ ·) = c.ints := by
  -- Of the integer places, as many are old ones as there were integer dimensions before.
  have all := (places_of_checked checked).countP_eq (Space.isInt ⟨s.ints + c.ints, s.reals + c.reals⟩ ·)
  have old : (oldPlaces s.size (c.positions.map Int.toNat)).countP
      (Space.isInt ⟨s.ints + c.ints, s.reals + c.reals⟩ ·) = (List.range s.size).countP (s.isInt ·) := by
    rw [oldPlaces, List.countP_map]
    apply List.countP_congr
    intro j hj
    have small := List.mem_range.mp hj
    simpa [oldPlaces, small, Space.isInt] using oldPlaces_integer checked small
  rw [List.countP_append, old, Space.countP_isInt_range, Space.countP_isInt_range] at all
  exact Nat.add_left_cancel all

theorem freshPlaces_inside : ∀ t ∈ freshPlaces (c.positions.map Int.toNat),
    t < Space.size ⟨s.ints + c.ints, s.reals + c.reals⟩ := fun _ ht =>
  List.mem_range.mp ((places_of_checked checked).mem_iff.mp (List.mem_append_right _ ht))

theorem checkDistinct_freshPlaces :
    Space.checkDistinct ⟨s.ints + c.ints, s.reals + c.reals⟩
      ((Change.listing ⟨s.ints + c.ints, s.reals + c.reals⟩
        (freshPlaces (c.positions.map Int.toNat))).positions.map Datum.int) =
      .ok (freshPlaces (c.positions.map Int.toNat)) := by
  have inOrder := freshPlaces_ascending c.ascending_toNat
  have sorted : (freshPlaces (c.positions.map Int.toNat)).mergeSort =
      freshPlaces (c.positions.map Int.toNat) :=
    List.mergeSort_of_pairwise (inOrder.imp fun lt => by simpa using lt.le)
  obtain ⟨listed, -⟩ :=
    checked_listing (inOrder.imp fun lt => lt.ne) (freshPlaces_inside checked) rfl
  rwa [sorted] at listed

theorem spaceAfter_freshPlaces :
    spaceAfter ⟨s.ints + c.ints, s.reals + c.reals⟩
      (.listing ⟨s.ints + c.ints, s.reals + c.reals⟩ (freshPlaces (c.positions.map Int.toNat)))
      (freshPlaces (c.positions.map Int.toNat)) = .ok s := by
  have integers := countP_isInt_freshPlaces checked
  have length : (freshPlaces (c.positions.map Int.toNat)).length = c.ints + c.reals := by
    simp [freshPlaces, c.count]
  simp [spaceAfter, Change.listing, integers, length, Space.ofCounts]

end Accepted

/-! ## Insertion -/

/-- The value `b` has the rows of the normal form of `a` at the old places and unit rows at the new
ones. -/
structure Inserts (cfg : Settings) (a : Parallelotope) (c : Change) (project : Bool)
    (b : Parallelotope) : Prop where
  space : b.space = ⟨a.space.ints + c.ints, a.space.reals + c.reals⟩
  rows : Option.Rel (fun f g => f.Spread b.space.size
    (oldPlaces a.space.size (c.positions.map Int.toNat)) (freshPlaces (c.positions.map Int.toNat))
    (freshRange project) g) (a.normalize cfg).frame? b.frame?

section Operations

variable (ha : a.WellFormed) (more : 0 < c.size)
  (checked : ∀ entry ∈ c.positions.zipIdx, checkInsertion a.space c entry.2 entry.1 = .ok ())

include ha more checked

theorem addDimensions_inserts (cfg : Settings) (project : Bool) :
    Op.Meets (fun _ => True) (fun _ => True) False (a.addDimensions cfg c project)
      (a.Inserts cfg c project) := by
  cases hf : a.frame? with
  | none =>
    unfold addDimensions
    apply (Op.meets_forM (R := fun _ => True) fun entry mem =>
      Op.meets_lift_ok (checked entry mem) trivial).bind
    intro _ _
    simp only [hf]
    refine Op.move_meets trivial ⟨rfl, ?_⟩
    simp only [normalize, hf]
    exact .none
  | some f =>
    have regular := (ha f hf).1
    refine (addDimensions_spread hf regular more checked cfg project).imp ?_
    rintro _ ⟨g, spread, rfl⟩
    refine ⟨rfl, ?_⟩
    simp only [normalize, hf]
    apply spread.normalize_rel regular (length_oldPlaces ..) (freshRange_tighten project)
    · cases project <;> rfl
    · exact fun j => oldPlaces_integer checked

omit more checked in
theorem Inserts.cases (inserts : a.Inserts cfg c project b) :
    ((a.normalize cfg).frame? = none ∧ b.frame? = none) ∨
    ∃ f g, (a.normalize cfg).frame? = some f ∧ b.frame? = some g ∧ f.Regular a.space.size ∧
      f.Spread b.space.size (oldPlaces a.space.size (c.positions.map Int.toNat))
        (freshPlaces (c.positions.map Int.toNat)) (freshRange project) g := by
  have rows := inserts.rows
  generalize before : (a.normalize cfg).frame? = f? at rows
  generalize after : b.frame? = g? at rows
  cases rows with
  | none => exact .inl ⟨rfl, rfl⟩
  | @some f g spread =>
    have regular := (ha.weaken.normalize cfg f before).1
    rw [space_normalize] at regular
    exact .inr ⟨f, g, rfl, rfl, regular, spread⟩

omit more checked in
theorem Inserts.has_iff {K : Type*} [Field K] [LinearOrder K] [IsStrictOrderedRing K]
    (inserts : a.Inserts cfg c project b) (y : ℕ → K) : b.Has y ↔
      ((a.normalize cfg).Has fun j =>
        y ((oldPlaces a.space.size (c.positions.map Int.toNat)).getD j 0)) ∧
      (project → ∀ t ∈ freshPlaces (c.positions.map Int.toNat), y t = 0) := by
  cases inserts.cases ha with
  | inl empty =>
    obtain ⟨before, after⟩ := empty
    exact ⟨fun has => absurd has (not_has_of_none after y),
      fun both => absurd both.1 (not_has_of_none before _)⟩
  | inr rows =>
    obtain ⟨f, g, before, after, regular, spread⟩ := rows
    rw [has_iff_of_frame before, has_iff_of_frame after, spread.has_iff regular (length_oldPlaces ..)]
    simp only [freshRange_has_iff]
    exact and_congr_right fun _ => ⟨fun zero h t ht => zero t ht h, fun zero t ht h => zero h t ht⟩

/-! ## Removal -/

theorem Inserts.removeDimensions (inserts : a.Inserts cfg c false b) :
    Op.Meets (fun _ => True) (fun _ => True) False
      (b.removeDimensions cfg (.listing b.space (freshPlaces (c.positions.map Int.toNat)))) fun r =>
        r.space = a.space ∧ r.content = (a.normalize cfg).content := by
  have inside := freshPlaces_inside checked
  have listed := checkDistinct_freshPlaces checked
  have remaining := spaceAfter_freshPlaces checked
  rw [← inserts.space] at inside listed remaining
  have nonempty : (freshPlaces (c.positions.map Int.toNat)).isEmpty = false := by
    simpa [freshPlaces, Change.size, List.length_pos_iff] using more
  unfold Parallelotope.removeDimensions
  apply (Op.meets_lift_ok listed rfl).bind
  rintro _ rfl
  apply (Op.meets_lift_ok remaining rfl).bind
  rintro _ rfl
  simp only [nonempty, Bool.false_eq_true, if_false]
  cases inserts.cases ha with
  | inl empty =>
    obtain ⟨before, after⟩ := empty
    simp only [after]
    exact Op.move_meets trivial ⟨rfl, by simp [content, before]⟩
  | inr rows =>
    obtain ⟨f, g, before, after, regular, spread⟩ := rows
    have regular' := spread.regular regular (length_oldPlaces ..)
    have frees : ∀ t ∈ freshPlaces (c.positions.map Int.toNat), g.Frees b.space.size false t t :=
      fun t ht => spread.frees regular (length_oldPlaces ..) ht
    simp only [after]
    apply (regular'.forgetAll_self inside frees).bind
    rintro ⟨h, ps⟩ ⟨axes, ranges, rows⟩
    dsimp only at axes ranges rows ⊢
    have left : removeRows (freshPlaces (c.positions.map Int.toNat)) ps h = ⟨f.axes, f.ranges, none⟩ := by
      rw [← spread.removeRows_eq regular (length_oldPlaces ..) (oldPlaces_ascending ..), removeRows,
        removeRows, axes, ranges, rows, List.map_id']
    rw [left]
    apply (Op.move_meets trivial rfl).bind
    rintro _ rfl
    refine (tidy_eq (fun none => by cases none) trivial).imp ?_
    rintro _ rfl
    -- The rows that are left are in normal form already.
    have form : ((⟨a.space, some ⟨f.axes, f.ranges, none⟩⟩ : Parallelotope).normalize cfg).content =
        ((a.normalize cfg).normalize cfg).content :=
      content_normalize_congr (space_normalize cfg a).symm (by simp [content, before])
    refine ⟨space_normalize .., ?_⟩
    rw [form, normalize_normalize ha.weaken]

end Operations

/-- A change of some dimensions that is accepted puts each of them at its position plus the number of
those before it, and the old dimensions at all other places.  The rows of the normal form stand at the
old places, unit rows with the range of a new dimension at the others; the points of the result are those
that have a point of the normal form at the old places, and zeros at the new ones when projecting.  What
removing the new dimensions leaves of a result without projection is the normal form: its space, its axes
and its ranges. -/
theorem insertion_undone {K : Type*} [Field K] [LinearOrder K] [IsStrictOrderedRing K] (cfg : Settings)
    {a : Parallelotope} (ha : a.WellFormed) {c : Change} (more : 0 < c.size)
    (accepted : ∀ entry ∈ c.positions.zipIdx, checkInsertion a.space c entry.2 entry.1 = .ok ()) :
    let s : Space := ⟨a.space.ints + c.ints, a.space.reals + c.reals⟩
    let old := oldPlaces a.space.size (c.positions.map Int.toNat)
    let fresh := freshPlaces (c.positions.map Int.toNat)
    (old ++ fresh).Perm (List.range s.size) ∧
    (∀ project, (a.addDimensions cfg c project).Yields fun b => b.space = s ∧
      Option.Rel (fun f g => f.Spread s.size old fresh (if project then .zero else .top) g)
        (a.normalize cfg).frame? b.frame? ∧
      ∀ y : ℕ → K, b.Has y ↔
        ((a.normalize cfg).Has fun j => y (old.getD j 0)) ∧ (project → ∀ t ∈ fresh, y t = 0)) ∧
    (a.addDimensions cfg c false).Yields fun b => (b.removeDimensions cfg (.listing s fresh)).Yields fun r =>
      r.space = a.space ∧ r.content = (a.normalize cfg).content := by
  have inserted := addDimensions_inserts ha more accepted cfg
  refine ⟨places_of_checked accepted, fun project => ?_, ?_⟩
  · obtain ⟨b, report, run, inserts⟩ := (inserted project).yields
    have rows := inserts.rows
    rw [inserts.space] at rows
    exact ⟨b, report, run, inserts.space, rows, inserts.has_iff ha⟩
  · obtain ⟨b, report, run, inserts⟩ := (inserted false).yields
    have removed := inserts.removeDimensions ha more accepted
    rw [inserts.space] at removed
    exact ⟨b, report, run, removed.yields⟩

/-- An integer and a real dimension at either side of the two dimensions of the slanted sample. -/
def sidesSample : Change := ⟨[0, 1, 1, 2], 2, 2, rfl, by decide⟩

theorem insertion_undone_sample :
    slantedSample.WellFormed ∧ 0 < sidesSample.size ∧
    ([1, 4] ++ [0, 2, 3, 5]).Perm (List.range 6) ∧
    (slantedSample.addDimensions { precision := .binary64 } sidesSample true).Yields (fun b =>
      b.space = ⟨3, 3⟩ ∧ ∀ y : ℕ → ℚ, b.Has y →
        (slantedSample.normalize { precision := .binary64 }).Has (fun j => y ([1, 4].getD j 0)) ∧
        ∀ t ∈ [0, 2, 3, 5], y t = 0) ∧
    (slantedSample.addDimensions { precision := .binary64 } sidesSample false).Yields fun b =>
      (b.removeDimensions { precision := .binary64 } (.listing ⟨3, 3⟩ [0, 2, 3, 5])).Yields fun r =>
        r.space = ⟨1, 1⟩ ∧ r.content = (slantedSample.normalize { precision := .binary64 }).content := by
  have accepted : ∀ entry ∈ sidesSample.positions.zipIdx,
      checkInsertion slantedSample.space sidesSample entry.2 entry.1 = .ok () := by
    intro entry mem
    have known : entry ∈ [((0 : ℤ), 0), (1, 1), (1, 2), (2, 3)] := mem
    simp only [List.mem_cons, List.not_mem_nil, or_false] at known
    rcases known with rfl | rfl | rfl | rfl <;> rfl
  obtain ⟨places, inserted, removed⟩ := insertion_undone (K := ℚ) { precision := .binary64 }
    slantedSample_wellFormed (c := sidesSample) (by decide) accepted
  obtain ⟨b, report, run, space, -, has⟩ := inserted true
  refine ⟨slantedSample_wellFormed, by decide, places, ⟨b, report, run, space, ?_⟩, removed⟩
  intro y hy
  obtain ⟨old, zero⟩ := (has y).mp hy
  exact ⟨old, zero rfl⟩

end Parallelotope

end SkewBox
