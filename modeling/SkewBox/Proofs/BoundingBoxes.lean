import SkewBox.Proofs.AttainedRanges
import SkewBox.Proofs.UnitLaws
import SkewBox.Proofs.Vertices

/-!
# The box around the generators of a value

The least box around the vertices, opened along the rays and lines, and the ranges of the dimensions are
found in two ways that have nothing in common.  Both hold, in each dimension, exactly the coordinates of the
points of the value, and an interval that holds some number is known by its members.

* `Parallelotope.openedRange_generatorsOf`: these are the coordinates of the points.
* `Parallelotope.AxisAligned`, `generators_bound`: the value of the generators of a value.
-/

namespace SkewBox

variable {K : Type*} [Field K] [LinearOrder K] [IsStrictOrderedRing K] {cfg : Settings} {s : Space}

/-- The interval holds a rational number, and what it holds are the coordinates of the points. -/
structure Interval.Projects (I : Interval) (f : Frame) (j : ℕ) (K : Type*) [Field K] [LinearOrder K] :
    Prop where
  filled : I.Filled
  has_iff : ∀ v : K, I.Has v ↔ ∃ x, f.Has x ∧ x j = v

theorem Interval.IsRange.eq {I J : Interval} {S : K → Prop} (hI : I.IsRange S) (hJ : J.IsRange S) {w : K}
    (hw : S w) : I = J := by
  have nonempty := (hI.has w hw).isBottom
  have nonempty' := (hJ.has w hw).isBottom
  have inside : I.leq J := hI.leq hw hJ.has
  have inside' : J.leq I := hJ.leq hw hI.has
  simp only [Interval.leq, nonempty, nonempty', Bool.false_or, Bool.not_false, Bool.true_and,
    Bool.and_eq_true, decide_eq_true_eq] at inside inside'
  obtain ⟨lo, hi⟩ := I
  obtain ⟨lo', hi'⟩ := J
  rw [Interval.mk.injEq]
  exact ⟨le_antisymm inside'.1 inside.1, le_antisymm inside.2 inside'.2⟩

namespace Parallelotope

/-! ## Members of the box -/

theorem hullAt_has_iff {gens : List Generator} (nonempty : gens ≠ []) {j : ℕ} {v : K} :
    (hullAt (gens.map (·.coords)) j).Has v ↔ ∃ ws, Weights gens.length ws ∧ swept gens ws j = v := by
  constructor
  · intro has
    have ends : ∀ b ∈ (gens.map (·.coords)).map fun v => Bound.fin (v.getD j 0),
        ∃ g ∈ gens, b = .fin (g.coords.getD j 0) := by
      intro b hb
      simp only [List.map_map, List.mem_map, Function.comp_apply] at hb
      obtain ⟨g, hg, rfl⟩ := hb
      exact ⟨g, hg, rfl⟩
    unfold hullAt at has
    cases values : (gens.map (·.coords)).map fun v => Bound.fin (v.getD j 0) with
    | nil => simp_all
    | cons b bs =>
      -- The ends of the hull are coordinates of two vertices, and `v` is a mixture of these.
      rw [values] at has ends
      obtain ⟨g, hg, lower⟩ := ends _ (foldl_min_isLeast bs b).1
      obtain ⟨h, hh, upper⟩ := ends _ (foldl_max_isGreatest bs b).1
      have low : (bs.foldl min b).Below v := has.1
      have high : (bs.foldl max b).Above v := has.2
      rw [lower] at low
      rw [upper] at high
      exact exists_weights hg hh low high
  · rintro ⟨ws, weights, rfl⟩
    apply swept_has weights.count weights.nonneg weights.convex
    intro g hg
    exact hullAt_has (List.mem_map.mpr ⟨g, hg, rfl⟩) j

theorem openedRange_filled (gens : List Generator) (j : ℕ) {I : Interval} (filled : I.Filled) :
    (openedRange gens j I).Filled := by
  induction gens generalizing I with
  | nil => exact filled
  | cons g gens ih => exact ih (extend_filled _ _ filled)

/-- An opened range holds what a step of the rays and lines leads to. -/
theorem openedRange_has_iff {gens : List Generator} {j : ℕ} {I : Interval} (filled : I.Filled) {v : K} :
    (openedRange gens j I).Has v ↔ ∃ u : ℕ → K, Leads gens u ∧ I.Has (v - u j) := by
  induction gens generalizing I v with
  | nil =>
    simp only [leads_nil, openedRange, List.foldl_nil]
    constructor
    · intro has
      exact ⟨fun _ => 0, fun _ => rfl, by simpa using has⟩
    · rintro ⟨u, still, has⟩
      simpa [still] using has
  | cons g gens ih =>
    have rest := ih (extend_filled (g.kind = .line) (g.coords.getD j 0) filled) (v := v)
    -- The first generator has opened the range already; the others lead on from there.
    rw [openedRange, List.foldl_cons, ← openedRange, rest]
    simp only [extend_has_iff filled, leads_cons]
    constructor
    · rintro ⟨u, leads, t, along, has⟩
      refine ⟨fun k => u k + t * ((g.coords.getD k 0 : ℚ) : K), ⟨t, ?_, by simpa using leads⟩, ?_⟩
      · simpa [Along] using along
      · convert has using 1
        ring
    · rintro ⟨u, ⟨t, along, leads⟩, has⟩
      refine ⟨_, leads, t, ?_, ?_⟩
      · simpa [Along] using along
      · convert has using 1
        ring

section

variable {f : Frame} {w : Mat} {n : ℕ}

theorem openedRange_generatorsOf (regular : f.Regular n) (filled : f.Filled) (inverse : w.IsInverse f.axes n)
    {j : ℕ} (hj : j < n) :
    (openedRange (directionsOf (generatorsOf f w n)) j
      (hullAt ((verticesOf (generatorsOf f w n)).map (·.coords)) j)).Projects f j K := by
  obtain ⟨x, hx⟩ := regular.exists_has (K := K) filled
  obtain ⟨ws, ts, spans⟩ := (generatorsOf_span_iff regular filled inverse).mpr hx
  have vertices := spans.vertices_ne_nil
  obtain ⟨g, hg⟩ := List.exists_mem_of_ne_nil _ vertices
  have hull : (hullAt ((verticesOf (generatorsOf f w n)).map (·.coords)) j).Filled :=
    ⟨_, hullAt_has (K := ℚ) (List.mem_map.mpr ⟨g, hg, rfl⟩) j⟩
  refine ⟨openedRange_filled _ j hull, fun v => ?_⟩
  simp only [openedRange_has_iff hull, hullAt_has_iff vertices,
    ← generatorsOf_span_iff regular filled inverse, exists_spans_iff]
  constructor
  · rintro ⟨u, leads, ws, weights, value⟩
    refine ⟨fun k => swept (verticesOf (generatorsOf f w n)) ws k + u k,
      ⟨ws, weights, u, leads, fun k _ => add_sub_cancel_left _ _⟩, ?_⟩
    simp only [value, sub_add_cancel]
  · rintro ⟨x, ⟨ws, weights, u, leads, point⟩, rfl⟩
    refine ⟨u, leads, ws, weights, ?_⟩
    rw [← point j hj, sub_sub_cancel]

theorem ofIntervals_of_real {box : List Interval} (length : box.length = s.size)
    (ordered : ∀ I ∈ box, I.lo ≤ I.hi) (real : s.ints = 0) :
    ofIntervals cfg s box = ⟨s, some ⟨.identity s.size, box, none⟩⟩ := by
  have proper : box.any (·.isBottom) = false := by
    rw [List.any_eq_false]
    intro I hI
    simp [Interval.isBottom_eq_false_iff.mpr (ordered I hI)]
  have regular : Frame.Regular ⟨.identity s.size, box, none⟩ s.size :=
    Frame.regular_mk (Mat.regular_identity s.size) length
  have kept : Frame.normalize cfg s ⟨.identity s.size, box, none⟩ = ⟨⟨.identity s.size, box, none⟩, false⟩ :=
    regular.normalize_of_real ordered real
  simp [ofIntervals, proper, normalize, kept, Cut.toParallelotope]

theorem ofGenerators_generatorsOf (cfg : Settings) (regular : f.Regular s.size) (filled : f.Filled)
    (inverse : w.IsInverse f.axes s.size) (real : s.ints = 0) :
    Op.Meets (fun _ => True) (fun _ => True) False (ofGenerators cfg s (generatorsOf f w s.size)) fun b =>
      ∃ Js, b = ⟨s, some ⟨.identity s.size, Js, none⟩⟩ ∧ Js.length = s.size ∧
        ∀ j < s.size, (Js.getD j .top).Projects f j K := by
  -- The frame has a point, which takes at least one vertex to span.
  obtain ⟨x, hx⟩ := regular.exists_has (K := K) filled
  obtain ⟨ws, ts, spans⟩ := (generatorsOf_span_iff regular filled inverse).mpr hx
  obtain ⟨g, hg⟩ := List.exists_mem_of_ne_nil _ spans.vertices_ne_nil
  have kinds : ∀ g ∈ generatorsOf f w s.size, g.kind.isModular = false := fun g hg =>
    (generatorsOf_kinds inverse.shape hg).1
  have sizes : ∀ g ∈ generatorsOf f w s.size, g.coords.length = s.size := fun g hg =>
    (generatorsOf_kinds inverse.shape hg).2
  have vertex : ∃ g ∈ generatorsOf f w s.size, g.kind = .vertex :=
    ⟨g, List.mem_of_mem_filter hg, by simpa using List.of_mem_filter hg⟩
  have ordered : ∀ I ∈ boxOf s (generatorsOf f w s.size), I.lo ≤ I.hi := by
    intro I hI
    obtain ⟨j, -, rfl⟩ := List.mem_map.mp hI
    exact (hullAt_has (K := ℚ) (List.mem_map.mpr ⟨g, hg, rfl⟩) j).ordered
  apply (ofGenerators_eq cfg kinds sizes vertex).imp
  rintro _ rfl
  rw [ofIntervals_of_real (length_boxOf s _) ordered real]
  have directions : ∀ g ∈ directionsOf (generatorsOf f w s.size), g.coords.length = s.size := fun g hg =>
    sizes g (List.mem_of_mem_filter hg)
  obtain ⟨Js, run, length, ranges⟩ := box_opened (length_boxOf s _) directions
  refine ⟨Js, by rw [Option.map_some, run], length, fun j hj => ?_⟩
  rw [ranges j hj, getD_boxOf _ hj]
  exact openedRange_generatorsOf regular filled inverse hj

end

/-! ## The value of the generators of a value -/

/-- Every row reads one dimension. -/
def AxisAligned (a : Parallelotope) : Prop := ∀ f, a.frame? = some f → ∀ i < a.space.size,
  ∃ j < a.space.size, ∀ k < a.space.size, k ≠ j → f.axes.entry i k = 0

omit [IsStrictOrderedRing K] in
theorem AxisAligned.has_iff {a : Parallelotope} {f : Frame} (aligned : a.AxisAligned) (hf : a.frame? = some f)
    (regular : f.Regular a.space.size) {x : ℕ → K} :
    f.Has x ↔ ∀ d < a.space.size, ∃ y, f.Has y ∧ y d = x d := by
  constructor
  · intro has d _
    exact ⟨x, has, rfl⟩
  · intro coordinates
    rw [regular.has_iff_lt]
    intro i hi
    obtain ⟨j, hj, zeros⟩ := aligned f hf i hi
    have row : ∀ z : ℕ → K, f.axes.image z i = ((f.axes.entry i j : ℚ) : K) * z j := by
      intro z
      rw [regular.axes.shape.image_eq_sum hi, Finset.sum_eq_single_of_mem j (Finset.mem_range.mpr hj)]
      intro k hk other
      rw [zeros k (Finset.mem_range.mp hk) other, Rat.cast_zero, zero_mul]
    obtain ⟨y, has, same⟩ := coordinates j hj
    have member := regular.has_iff_lt.mp has i hi
    rwa [row, same, ← row] at member

theorem toBox_isRange {W : Parallelotope → Prop} {a : Parallelotope} (exact : cfg.precision = .exact)
    (regular : a.Shaped False) (nonempty : a.isBottom = false) (filled : a.Filled) (real : a.space.ints = 0) :
    Op.Meets W W False (a.toBox cfg) fun box => box.length = a.space.size ∧ ∀ j < a.space.size,
      (box.getD j .top).IsRange fun v : K => ∃ x, a.Has x ∧ x j = v := by
  apply (toBox_total (K := K) cfg regular nonempty filled).imp
  intro box entries
  have length : box.length = a.space.size := by rw [← entries.length_eq, List.length_range]
  refine ⟨length, fun j hj => ?_⟩
  have entry := (List.forall₂_iff_get.mp entries).2 j (by simpa using hj) (length ▸ hj)
  rw [List.getD_eq_getElem _ _ (length ▸ hj)]
  simpa using entry.isRange exact (by simp [Space.isInt, real])

/-- Without rounding and over real dimensions, a value of invertible axes with a rational number in each of
its ranges, and with no more corners than allowed, comes back from its generators as the box of the ranges of
its dimensions.  If it is axis-aligned, that is the same set. -/
theorem generators_bound {a : Parallelotope} (exact : cfg.precision = .exact) (ha : a.WellFormed)
    (filled : a.Filled) (real : a.space.ints = 0) (within : ¬ a.Exceeds cfg.maxVertices) :
    (a.toGenerators cfg).Yields fun gens => (ofGenerators cfg a.space gens).Yields fun b =>
      (a.toBox cfg).Yields fun box =>
        b = ⟨a.space, a.frame?.map fun _ => ⟨.identity a.space.size, box, none⟩⟩ ∧
          (a.AxisAligned → ∀ x : ℕ → K, b.Has x ↔ a.Has x) := by
  cases hf : a.frame? with
  | none =>
    have empty : a.toGenerators cfg = pure [] := by simp [toGenerators, hf]
    have box : a.toBox cfg = pure ((List.range a.space.size).map fun _ => .bottom) := by simp [toBox, hf]
    rw [empty, box]
    refine ⟨[], _, rfl, ⟨a.space, none⟩, _, rfl, _, _, rfl, rfl, fun _ x => ?_⟩
    exact iff_of_false (not_has_of_none rfl x) (not_has_of_none hf x)
  | some f =>
    have regular := (ha f hf).1
    have nonempty : a.isBottom = false := by simp [isBottom, hf]
    obtain ⟨x₀, has₀⟩ := regular.exists_has (K := K) (filled f hf)
    refine ((toGenerators_ends (W := fun _ => True) hf regular).imp ?_).yields ?_
    · rintro _ ⟨-, w, inverse, rfl⟩
      refine ((ofGenerators_generatorsOf (K := K) cfg regular (filled f hf) inverse real).imp ?_).yields
      rintro _ ⟨Js, rfl, length, ranges⟩
      have boxed := toBox_isRange (K := K) (W := fun _ => True) exact ha.weaken nonempty filled real
      refine (boxed.imp ?_).yields
      rintro box ⟨length', ranges'⟩
      simp only [has_iff_of_frame hf] at ranges' ⊢
      -- Both lists give each dimension the range of its coordinates at the points, which is unique.
      have same : Js = box := by
        apply List.ext_getElem (length.trans length'.symm)
        intro j hj hj'
        have range := ((ranges j (length ▸ hj)).filled.isRange (ranges j (length ▸ hj)).has_iff).eq
          (ranges' j (length ▸ hj)) ⟨x₀, has₀, rfl⟩
        simpa [hj, hj'] using range
      refine ⟨by rw [same, Option.map_some], fun aligned x => ?_⟩
      rw [has_mk, (Frame.regular_mk (Mat.regular_identity _) length).has_iff_lt, aligned.has_iff hf regular]
      apply forall₂_congr
      intro j hj
      rw [Mat.image_identity hj, (ranges j hj).has_iff]
    · rintro e ⟨-, exceeds⟩
      exact within ⟨f, hf, exceeds⟩

/-- A box with its dimensions in another order and to another scale, unbounded on one side. -/
def crateSample : Parallelotope :=
  ⟨⟨0, 2⟩, some ⟨[[0, 2], [-3, 0]], [⟨.fin (-1), .fin 4⟩, ⟨.negInf, .fin 6⟩], none⟩⟩

theorem crateSample_solid : crateSample.Solid := by
  apply solid_mk ⟨rfl, Frame.regular_of_invert? ⟨rfl, by decide⟩ rfl _, _⟩
  · decide +kernel
  · decide +kernel

theorem crateSample_axisAligned : crateSample.AxisAligned := by
  intro f hf
  obtain rfl := Option.some.inj hf
  decide +kernel

/-- The crate comes back as the same set, the leaning trench as the box around it. -/
theorem generators_bound_sample :
    crateSample.Solid ∧ trenchSample.Solid ∧
    ((crateSample.toGenerators {}).Yields fun gens => (ofGenerators {} ⟨0, 2⟩ gens).Yields fun b =>
      (crateSample.toBox {}).Yields fun box => b = ⟨⟨0, 2⟩, some ⟨.identity 2, box, none⟩⟩ ∧
        ∀ x : ℕ → ℚ, b.Has x ↔ crateSample.Has x) ∧
    ((trenchSample.toGenerators {}).Yields fun gens => (ofGenerators {} ⟨0, 3⟩ gens).Yields fun b =>
      (trenchSample.toBox {}).Yields fun box => b = ⟨⟨0, 3⟩, some ⟨.identity 3, box, none⟩⟩) := by
  have few : ¬ crateSample.Exceeds 4096 := by
    rintro ⟨f, hf, many⟩
    obtain rfl := Option.some.inj hf
    exact absurd many (by decide +kernel)
  have exact : ({} : Settings).precision = .exact := rfl
  obtain ⟨gens, r, run, b, r', run', box, r'', run'', same, points⟩ := generators_bound (K := ℚ) exact
    crateSample_solid.wellFormed (fun f hf => (crateSample_solid f hf).filled) rfl few
  obtain ⟨gens₁, r₁, run₁, b₁, r₁', run₁', box₁, r₁'', run₁'', same₁, -⟩ := generators_bound (K := ℚ) exact
    trenchSample_solid.wellFormed (fun f hf => (trenchSample_solid f hf).filled) rfl trenchSample_not_exceeds
  exact ⟨crateSample_solid, trenchSample_solid,
    ⟨gens, r, run, b, r', run', box, r'', run'', same, points crateSample_axisAligned⟩,
    gens₁, r₁, run₁, b₁, r₁', run₁', box₁, r₁'', run₁'', same₁⟩

end Parallelotope

end SkewBox
