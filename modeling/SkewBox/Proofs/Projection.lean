import SkewBox.Proofs.FreeDimensions
import SkewBox.Proofs.NormalForm

/-!
# Projections

Forgetting dimensions leaves, for each of them, one row that reads it alone and leaves it free, or holds
it at zero.  Later eliminations do not touch such a row, and neither does rounding, so that the ranges of
the dimensions can be read off the result.

* `Frame.Frees`: a row that reads a dimension which is free, or zero.
* `Parallelotope.projections_sound`: forgetting and removing dimensions.
-/

namespace SkewBox

namespace Frame

open Parallelotope (freshRange freshRange_tighten)

variable {f : Frame} {n d p : ℕ} {cfg : Settings} {s : Space} {project : Bool}

/-! ## Rows of forgotten dimensions -/

/-- Row `p` reads dimension `d` alone and leaves it free, or holds it at zero when projecting. -/
structure Frees (f : Frame) (n : ℕ) (project : Bool) (d p : ℕ) : Prop extends f.Reads n d p where
  range : f.ranges.getD p .top = freshRange project

theorem Regular.frees_eliminateAll (regular : f.Regular s.size) (hd : d < s.size) (hp : p < s.size)
    (pivot : f.axes.entry p d ≠ 0) :
    (f.eliminateAll cfg s d p project).Frees s.size project d p where
  toReads := regular.reads_eliminateAll hd hp pivot
  range := by
    have row := congrArg Prod.snd (regular.row_eliminateAll (d := d) (p := p) cfg project hp)
    simpa [freshRange] using row

theorem Frees.eliminateAll {e q : ℕ} (frees : f.Frees s.size project e q) (regular : f.Regular s.size)
    (hd : d < s.size) (hp : p < s.size) (pivot : f.axes.entry p d ≠ 0) (he : e < s.size)
    (other : e ≠ d) : (f.eliminateAll cfg s d p project).Frees s.size project e q where
  toReads := frees.toReads.eliminateAll regular hd hp pivot he other
  range := by
    have zero : f.axes.entry q d = 0 := by rw [frees.entry d hd, if_neg other]
    have notPivot : q ≠ p := by
      rintro rfl
      exact pivot zero
    rw [(regular.row_eliminateAll_of_zero cfg project frees.inside notPivot zero).2, frees.range]

/-- After forgetting dimensions in turn every one of them has such a row, and so has any other that had
one before. -/
theorem Regular.forgetAll_frees {ds : List ℕ} {mayFail : Prop} (regular : f.Regular s.size)
    (distinct : ds.Nodup) (inside : ∀ d ∈ ds, d < s.size) :
    Op.Meets (fun _ => True) (fun _ => True) mayFail (f.forgetAll cfg s project ds) fun r =>
      r.1.Regular s.size ∧ (∀ d ∈ ds, ∃ p, r.1.Frees s.size project d p) ∧
      ∀ e < s.size, e ∉ ds → ∀ q, f.Frees s.size project e q → r.1.Frees s.size project e q := by
  induction ds generalizing f with
  | nil => exact Op.meets_pure ⟨regular, by simp, fun _ _ _ _ => id⟩
  | cons d ds ih =>
    obtain ⟨fresh, distinct⟩ := List.nodup_cons.mp distinct
    have hd := inside d (List.mem_cons_self ..)
    unfold forgetAll
    refine (regular.forgetOne_eq hd).bind ?_
    rintro _ ⟨p, hp, pivot, rfl⟩
    refine (Op.write_meets trivial).bind fun _ _ => ?_
    refine (ih (regular.eliminateAll hd hp pivot) distinct
      fun e he => inside e (List.mem_cons_of_mem _ he)).bind ?_
    rintro ⟨g, ps⟩ ⟨regular', forgotten, keeps⟩
    refine Op.meets_pure ⟨regular', fun e he => ?_, fun e he other q frees => ?_⟩
    · -- The dimension forgotten first stays free while the later ones are forgotten.
      cases List.mem_cons.mp he with
      | inl same =>
        subst same
        exact ⟨p, keeps e hd fresh p (regular.frees_eliminateAll hd hp pivot)⟩
      | inr later => exact forgotten e later
    · obtain ⟨notFirst, notLater⟩ : e ≠ d ∧ e ∉ ds := by simpa using other
      exact keeps e he notLater q (frees.eliminateAll regular hd hp pivot he notFirst)

theorem Frees.normalize (frees : f.Frees s.size project d p) (regular : f.Regular s.size)
    (nonempty : (f.normalize cfg s).empty = false) :
    (f.normalize cfg s).frame.Frees s.size project d p where
  toReads := ⟨frees.inside, frees.row, frees.others⟩
  range := by
    rw [regular.getD_normalize nonempty frees.inside, frees.range,
      tighten_of_fixed (freshRange_tighten project)]

/-! ## What they say about the dimension -/

theorem Reads.inverse_row {w : Mat} (reads : f.Reads n d p) (regular : f.Regular n) (hd : d < n)
    (inverse : w.IsInverse f.axes n) : w.getD d [] = Vec.unit n p := by
  apply regular.eq_unit (inverse.shape.getD_length hd) reads.inside
  intro x
  calc (w.getD d []).eval (f.axes.image x) = x d := inverse.image_image regular.axes.shape x hd
    _ = f.axes.image x p := by rw [Mat.image, reads.row, Vec.eval_unit hd]

theorem outward_freshRange (P : Precision) (project : Bool) :
    (freshRange project).outward P = freshRange project := by
  have zero : P.Holds (.fin 0) := fun _ => ⟨0, Nat.zero_le _, .inl Binary64.value_zero.symm⟩
  cases project with
  | false => rfl
  | true => exact congrArg₂ Interval.mk (P.round_eq_self_iff.mpr zero) (P.round_eq_self_iff.mpr zero)

/-- The answer for dimension `d` if a row with the range `I` reads it: the range is rounded outward, and
then inward at an integer dimension. -/
def readRange (cfg : Settings) (s : Space) (d : ℕ) (I : Interval) : Interval :=
  if s.isInt d && cfg.tightenIntegers then (I.outward cfg.precision).tighten else I.outward cfg.precision

theorem readRange_freshRange (cfg : Settings) (s : Space) (d : ℕ) (project : Bool) :
    readRange cfg s d (freshRange project) = freshRange project := by
  rw [readRange, outward_freshRange, freshRange_tighten, ite_self]

theorem Reads.boundDimension_eq (reads : f.Reads s.size d p) (regular : f.Regular s.size)
    (ordered : f.Ordered) (hd : d < s.size) :
    f.boundDimension cfg s d = .ok (readRange cfg s d (f.ranges.getD p .top)) := by
  obtain ⟨w, solved, inverse⟩ := regular.exists_solve
  have range : cfg.precision.dot (w.getD d []) f.ranges = (f.ranges.getD p .top).outward cfg.precision := by
    rw [reads.inverse_row regular hd inverse, Precision.dot_unit _ reads.inside regular.ranges ordered]
  rw [boundDimension, solved, ok_bind]
  simp only [range]
  rfl

theorem Frees.rows (frees : f.Frees n project d p) (regular : f.Regular n) :
    ∀ row ∈ f.rows, row.1.getD d 0 = 0 ∨ row.2 = freshRange project := by
  intro row hrow
  obtain ⟨i, hi, rfl⟩ := List.mem_iff_getElem.mp hrow
  have inside : i < n := by simpa [Frame.rows, regular.axes.shape.length, regular.ranges] using hi
  have haxes : i < f.axes.length := regular.axes.shape.length.symm ▸ inside
  have hranges : i < f.ranges.length := regular.ranges.symm ▸ inside
  by_cases same : i = p
  · subst same
    have range := frees.range
    rw [List.getD_eq_getElem _ _ hranges] at range
    exact .inr (by simpa [Frame.rows] using range)
  · have zero := frees.others i inside same
    rw [Mat.entry, List.getD_eq_getElem _ _ haxes] at zero
    exact .inl (by simpa [Frame.rows] using zero)

end Frame

/-! ## Values -/

namespace Parallelotope

variable {K : Type*} [Field K] [LinearOrder K] [IsStrictOrderedRing K]
  {a b : Parallelotope} {f : Frame} {cfg : Settings} {project : Bool} {d p : ℕ} {ds : List ℕ}

theorem boundDimension_of_reads (hb : b.WellFormed) (hf : b.frame? = some f) (hd : d < b.space.size)
    (reads : f.Reads b.space.size d p) : (b.boundDimension cfg (.int d)).Yields
      (· = Frame.readRange cfg b.space d (f.ranges.getD p .top)) := by
  have checked : b.space.check (.int d) = .ok d := Space.check_eq_ok.mpr ⟨rfl, hd⟩
  obtain ⟨regular, ordered⟩ := hb f hf
  have meets : Op.Meets (fun _ => True) (fun _ => True) False (b.boundDimension cfg (.int d))
      (· = Frame.readRange cfg b.space d (f.ranges.getD p .top)) := by
    unfold boundDimension
    refine (Op.meets_lift_ok checked rfl).bind ?_
    rintro _ rfl
    simp only [hf]
    refine (Op.invert_meets regular).bind ?_
    rintro _ ⟨w, regular', rfl⟩
    have reads' : Frame.Reads { f with inverse? := some w } b.space.size d p :=
      ⟨reads.inside, reads.row, reads.others⟩
    exact Op.meets_lift_ok (reads'.boundDimension_eq regular' (ordered trivial) hd) rfl
  exact meets.yields

theorem boundDimension_of_frees (hb : b.WellFormed) (hf : b.frame? = some f) (hd : d < b.space.size)
    (frees : f.Frees b.space.size project d p) :
    (b.boundDimension cfg (.int d)).Yields (· = freshRange project) := by
  have answer : (b.boundDimension cfg (.int d)).Yields _ := boundDimension_of_reads hb hf hd frees.toReads
  rwa [frees.range, Frame.readRange_freshRange] at answer

theorem isUnconstrained_of_frees (hb : b.WellFormed) (hf : b.frame? = some f) (hd : d < b.space.size)
    (frees : f.Frees b.space.size false d p) : b.isUnconstrained (.int d) = .ok true := by
  obtain ⟨regular, -⟩ := hb f hf
  have wide : ∀ row ∈ f.axes, d < row.length := fun row mem =>
    (regular.axes.shape.width row mem).symm ▸ hd
  rw [isUnconstrained_eq hf wide hd, Except.ok.injEq, List.all_eq_true]
  intro row mem
  rw [Bool.or_eq_true, decide_eq_true_eq]
  refine (frees.rows regular row mem).imp_right fun range => ?_
  rw [range]
  rfl

theorem forget_frees (cfg : Settings) (project : Bool) (ha : a.WellFormed) (distinct : ds.Nodup)
    (inside : ∀ d ∈ ds, d < a.space.size) :
    Op.Meets (fun _ => True) (fun _ => True) False (a.forget cfg (ds.map fun d : ℕ => .int d) project)
      fun b => ∀ g, b.frame? = some g → ∀ d ∈ ds, ∃ p, g.Frees a.space.size project d p := by
  have checked := Space.checkDistinct_eq_ok.mpr ⟨rfl, distinct, inside⟩
  unfold forget
  refine (Op.meets_lift_ok checked rfl).bind ?_
  rintro _ rfl
  cases hf : a.frame? with
  | none =>
    refine Op.meets_pure fun g hg => ?_
    simp [hf] at hg
  | some f =>
    obtain ⟨regular, -⟩ := ha f hf
    refine (regular.forgetAll_frees distinct inside).bind ?_
    rintro ⟨g, ps⟩ ⟨regular', frees, -⟩
    refine Op.put_meets trivial fun h hh d hd => ?_
    obtain ⟨nonempty, rfl⟩ := Cut.eq_of_toParallelotope hh
    obtain ⟨p, frees⟩ := frees d hd
    exact ⟨p, frees.normalize regular' nonempty⟩

omit [IsStrictOrderedRing K] in
theorem Forgets.has_of_agrees (forgets : a.Forgets project K ds b) (inside : ∀ d ∈ ds, d < a.space.size)
    {x y : ℕ → K} (hx : a.Has x) (admits : a.space.Admits y)
    (agrees : ∀ j < a.space.size, j ∉ ds → y j = x j) (zero : project → ∀ d ∈ ds, y d = 0) :
    b.Has y := by
  -- Beyond the space the point may be anything, so it may be `x` there.
  obtain ⟨g, hg, has⟩ : b.Has fun j => if j < a.space.size then y j else x j := by
    refine forgets.has x _ hx (fun j hj => ?_) (fun j other => ?_) fun h d hd => ?_
    · have small : j < a.space.size := by
        rw [Space.size]
        omega
      rw [if_pos small]
      exact admits j hj
    · split
      · rename_i small
        exact agrees j small other
      · rfl
    · rw [if_pos (inside d hd)]
      exact zero h d hd
  refine ⟨g, hg, (forgets.wellFormed g hg).1.has_congr (fun j hj => ?_) has⟩
  rw [forgets.space] at hj
  exact if_pos hj

/-- Distinct dimensions of a well-formed value can be forgotten, which keeps its space, and removed, which
takes them from it.  Forgetting them keeps every point of integers, with any integers there where the
dimensions are integer ones and any numbers elsewhere, or with zeros when projecting; removing them keeps
it without its values there.  After forgetting, the range of each of the dimensions is everything and the
dimension is unconstrained, or its range is zero when projecting, unless the result is empty. -/
theorem projections_sound (cfg : Settings) {a : Parallelotope} (ha : a.WellFormed) {ds : List ℕ}
    (distinct : ds.Nodup) (inside : ∀ d ∈ ds, d < a.space.size) :
    (∀ project, (a.forget cfg (ds.map fun d : ℕ => .int d) project).Yields fun b =>
      b.space = a.space ∧
      (∀ x y : ℕ → K, a.space.Admits x → a.Has x → a.space.Admits y →
        (∀ j < a.space.size, j ∉ ds → y j = x j) → (project → ∀ d ∈ ds, y d = 0) → b.Has y) ∧
      (b.isBottom = false → ∀ d ∈ ds,
        (b.boundDimension cfg (.int d)).Yields (· = if project then .zero else .top) ∧
        (project = false → b.isUnconstrained (.int d) = .ok true))) ∧
    (a.removeDimensions cfg (.listing a.space ds)).Yields fun b =>
      b.space.ints + ds.countP (a.space.isInt ·) = a.space.ints ∧
      b.space.size + ds.length = a.space.size ∧
      ∀ x : ℕ → K, a.space.Admits x → a.Has x → b.Has fun i => x ((kept a.space.size ds).getD i 0) := by
  constructor
  · intro project
    have checked := Space.checkDistinct_eq_ok.mpr ⟨rfl, distinct, inside⟩
    have forgets : Op.Keeps True False (a.forget cfg (ds.map fun d : ℕ => .int d) project) fun b =>
        ∃ dims, a.space.checkDistinct _ = .ok dims ∧ a.Forgets project K dims b :=
      forget_keeps ha fun e refused => by
        rw [checked] at refused
        cases refused
    obtain ⟨b, report, run, ⟨dims, checked', forgotten⟩, frees⟩ :=
      (forgets.and (forget_frees cfg project ha distinct inside)).yields
    obtain rfl := Except.ok.inj (checked.symm.trans checked')
    refine ⟨b, report, run, forgotten.space, fun x y _ hx admits agrees zero => ?_, fun rows d hd => ?_⟩
    · exact forgotten.has_of_agrees inside hx admits agrees zero
    · cases hf : b.frame? with
      | none => simp [isBottom, hf] at rows
      | some g =>
        obtain ⟨p, frees⟩ := frees g hf d hd
        rw [← forgotten.space] at frees inside
        have hd' := inside d hd
        refine ⟨boundDimension_of_frees forgotten.wellFormed hf hd' frees, ?_⟩
        rintro rfl
        exact isUnconstrained_of_frees forgotten.wellFormed hf hd' frees
  · obtain ⟨checked, announced⟩ := checked_listing distinct inside rfl
    have removed : Op.Keeps True False (a.removeDimensions cfg (.listing a.space ds)) fun b => ∃ ds, _ :=
      removeDimensions_total (K := K) ha checked announced
    obtain ⟨b, report, run, dims, restricts⟩ := removed.yields
    -- Removing sorts the dimensions, which leaves the same ones.
    have sorted : dims = ds.mergeSort :=
      (Nat.cast_injective (R := ℤ)).list_map (restricts.dims.symm.trans (positions_of_checked checked))
    have same : kept a.space.size dims = kept a.space.size ds := by
      rw [sorted]
      exact kept_congr fun d => (List.mergeSort_perm ds _).mem_iff
    have ints := restricts.ints
    rw [sorted, (List.mergeSort_perm ds _).countP_eq] at ints
    have size := restricts.size
    rw [same] at size
    have total := length_kept distinct inside
    refine ⟨b, report, run, ints, by omega, fun x admits hx => restricts.has x _ admits hx fun i _ => ?_⟩
    rw [same]

/-- Both dimensions of the slanted sample, the real one first. -/
theorem projections_sound_sample :
    slantedSample.WellFormed ∧
    (slantedSample.forget { precision := .binary64 } ([1, 0].map fun d : ℕ => .int d) false).Yields
      (fun b => b.isBottom = false → ∀ d ∈ ([1, 0] : List ℕ),
        (b.boundDimension { precision := .binary64 } (.int d)).Yields (· = .top) ∧
        b.isUnconstrained (.int d) = .ok true) ∧
    (slantedSample.removeDimensions { precision := .binary64 } (.listing ⟨1, 1⟩ [1])).Yields fun b =>
      ∀ x : ℕ → ℚ, slantedSample.space.Admits x → slantedSample.Has x → b.Has fun i =>
        x ((kept 2 [1]).getD i 0) := by
  have slanted := slantedSample_wellFormed
  have both : ∀ d ∈ [1, 0], d < slantedSample.space.size := by decide
  have one : ∀ d ∈ [1], d < slantedSample.space.size := by decide
  refine ⟨slanted, ?_, ?_⟩
  · obtain ⟨forgets, -⟩ :=
      projections_sound (K := ℚ) { precision := .binary64 } slanted (by decide) both
    obtain ⟨b, report, run, -, -, rows⟩ := forgets false
    refine ⟨b, report, run, fun nonempty d hd => ?_⟩
    obtain ⟨range, free⟩ := rows nonempty d hd
    exact ⟨range, free rfl⟩
  · obtain ⟨b, report, run, -, -, has⟩ :=
      (projections_sound (K := ℚ) { precision := .binary64 } slanted (by decide) one).2
    exact ⟨b, report, run, has⟩

end Parallelotope

end SkewBox
