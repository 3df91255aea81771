import SkewBox.Proofs.ExactReshape
import SkewBox.Proofs.Iteration
import SkewBox.Proofs.Projection

/-!
# Permuted dimensions

A permutation moves every dimension, and the row of the same number, to its image.  Moving twice is
moving once by the composition, and moving back restores the value.  The space is kept as it is, so a
permutation that brings a real dimension to an integer place has its range rounded there.

* `Perm.followedBy`: one permutation after another.
* `Parallelotope.permuted`: the value with its dimensions moved.
* `Parallelotope.permutations_act`: composition, identity, inverse and points.
* `Parallelotope.permuted_ranges_decided`: which permutations keep the ranges sound.
-/

namespace SkewBox

/-! ## Composition -/

namespace Perm

theorem getD_lt (p : Perm) {i : ℕ} (hi : i < p.size) : p.images.getD i 0 < p.size :=
  (p.mem_images _).mp (getD_mem hi)

theorem exists_getD (p : Perm) {t : ℕ} (ht : t < p.size) : ∃ i < p.size, p.images.getD i 0 = t := by
  obtain ⟨i, hi, rfl⟩ := List.mem_iff_getElem.mp ((p.mem_images t).mpr ht)
  exact ⟨i, hi, List.getD_eq_getElem _ _ hi⟩

theorem getD_identity {n i : ℕ} (hi : i < n) : (identity n).images.getD i 0 = i := by
  simp [identity, hi]

theorem getD_inverse (p : Perm) {i : ℕ} (hi : i < p.size) :
    p.inverse.images.getD (p.images.getD i 0) 0 = i := by
  have image := p.getD_lt hi
  rw [List.getD_eq_getElem _ _ hi] at image ⊢
  simp [inverse, image, p.nodup.idxOf_getElem i hi]

@[simp] theorem size_inverse (p : Perm) : p.inverse.size = p.size := by simp [inverse, size]

theorem followedBy_perm (p q : Perm) (same : q.size = p.size) :
    (p.images.map (q.images.getD · 0)).Perm
      (List.range (p.images.map (q.images.getD · 0)).length) := by
  have images : (List.range q.size).map (q.images.getD · 0) = q.images := by
    apply List.ext_getElem (by simp [size])
    intro i _ hi
    simp [hi]
  have moved := p.perm.map (q.images.getD · 0)
  rw [show p.images.length = q.size from same.symm, images] at moved
  rw [List.length_map, show p.images.length = q.images.length from same.symm]
  exact moved.trans q.perm

theorem getD_injective (p : Perm) {i j : ℕ} (hi : i < p.size) (hj : j < p.size)
    (same : p.images.getD i 0 = p.images.getD j 0) : i = j := by
  rw [← p.getD_inverse hi, same, p.getD_inverse hj]

/-- First `p`, then `q`. -/
def followedBy (p q : Perm) (same : q.size = p.size) : Perm :=
  ⟨p.images.map (q.images.getD · 0), followedBy_perm p q same⟩

@[simp] theorem size_followedBy {p q : Perm} (same : q.size = p.size) :
    (p.followedBy q same).size = p.size := by simp [followedBy, size]

theorem getD_followedBy {p q : Perm} (same : q.size = p.size) {i : ℕ} (hi : i < p.size) :
    (p.followedBy q same).images.getD i 0 = q.images.getD (p.images.getD i 0) 0 := by
  have inside : i < p.images.length := hi
  simp [followedBy, inside]

theorem followedBy_inverse (p : Perm) : p.followedBy p.inverse p.size_inverse = identity p.size := by
  have images : (p.followedBy p.inverse p.size_inverse).images = (identity p.size).images := by
    apply eq_of_getD (d := 0) (size_followedBy p.size_inverse) (by simp [identity])
    intro i hi
    rw [getD_followedBy p.size_inverse hi, p.getD_inverse hi, getD_identity hi]
  exact Perm.mk.injEq .. |>.mpr images

end Perm

/-! ## Frames -/

namespace Frame

variable {f g : Frame} {n : ℕ} {p q : Perm}

theorem Regular.spread_images (regular : f.Regular n) (size : p.size = n) :
    f.Spread n p.images [] .top (f.move n p.images) :=
  regular.spread_permuted (size ▸ p.perm)

theorem Regular.eq_move (regular : f.Regular n) (size : p.size = n) (shape : g.axes.HasShape n n)
    (length : g.ranges.length = n) (inverse : g.inverse? = none)
    (entries : ∀ i < n, ∀ j < n,
      g.axes.entry (p.images.getD i 0) (p.images.getD j 0) = f.axes.entry i j)
    (ranges : ∀ i < n, g.ranges.getD (p.images.getD i 0) .top = f.ranges.getD i .top) :
    g = f.move n p.images := by
  subst size
  have spread := regular.spread_images (p := p) rfl
  have sameAxes : g.axes = (f.move p.size p.images).axes := by
    apply shape.eq_of_entry spread.shape
    intro t ht u hu
    obtain ⟨i, hi, rfl⟩ := p.exists_getD ht
    obtain ⟨j, hj, rfl⟩ := p.exists_getD hu
    rw [entries i hi j hj, spread.entry_old regular rfl hi hj]
  have sameRanges : g.ranges = (f.move p.size p.images).ranges := by
    apply eq_of_getD length spread.ranges
    intro t ht
    obtain ⟨i, hi, rfl⟩ := p.exists_getD ht
    rw [ranges i hi, (spread.moved i hi).2]
  obtain ⟨axes, Is, w⟩ := g
  exact Frame.mk.injEq .. |>.mpr ⟨sameAxes, sameRanges, inverse⟩

theorem Regular.move (regular : f.Regular n) (size : p.size = n) : (f.move n p.images).Regular n :=
  (regular.spread_images size).regular regular size

theorem Regular.move_identity (regular : f.Regular n) :
    f.move n (Perm.identity n).images = ⟨f.axes, f.ranges, none⟩ := by
  symm
  apply regular.eq_move (g := ⟨f.axes, f.ranges, none⟩) (by simp [Perm.identity, Perm.size])
    regular.axes.shape regular.ranges rfl
  · intro i hi j hj
    rw [Perm.getD_identity hi, Perm.getD_identity hj]
  · intro i hi
    rw [Perm.getD_identity hi]

theorem Regular.move_move (regular : f.Regular n) (size : p.size = n) (same : q.size = p.size) :
    (f.move n p.images).move n q.images = f.move n (p.followedBy q same).images := by
  subst size
  have first := regular.spread_images (p := p) rfl
  have moved := regular.move (p := p) rfl
  have second := moved.spread_images same
  apply regular.eq_move (Perm.size_followedBy same) second.shape second.ranges second.inverse
  · intro i hi j hj
    rw [Perm.getD_followedBy same hi, Perm.getD_followedBy same hj,
      second.entry_old moved same (p.getD_lt hi) (p.getD_lt hj), first.entry_old regular rfl hi hj]
  · intro i hi
    have image : p.images.getD i 0 < q.images.length := (p.getD_lt hi).trans_eq same.symm
    rw [Perm.getD_followedBy same hi, (second.moved _ image).2, (first.moved i hi).2]

theorem Reads.move {d r : ℕ} (reads : f.Reads n d r) (regular : f.Regular n) (hd : d < n)
    (size : p.size = n) : (f.move n p.images).Reads n (p.images.getD d 0) (p.images.getD r 0) := by
  subst size
  have spread := regular.spread_images (p := p) rfl
  refine ⟨p.getD_lt reads.inside, ?_, ?_⟩
  · have width := spread.shape.getD_length (p.getD_lt reads.inside)
    apply eq_of_getD (d := 0) width (Vec.length_unit ..)
    intro t ht
    obtain ⟨j, hj, rfl⟩ := p.exists_getD ht
    have entry : f.axes.entry r j = if d = j then 1 else 0 := by
      rw [Mat.entry, reads.row, Vec.getD_unit hj]
    rw [← Mat.entry, spread.entry_old regular rfl reads.inside hj, entry, Vec.getD_unit ht]
    by_cases same : d = j
    · simp [same]
    · rw [if_neg same, if_neg fun images => same (p.getD_injective hd hj images)]
  · intro t ht other
    obtain ⟨i, hi, rfl⟩ := p.exists_getD ht
    rw [spread.entry_old regular rfl hi hd]
    exact reads.others i hi fun same => other (by rw [same])

end Frame

/-! ## Values -/

namespace Parallelotope

variable {K : Type*} [Field K] [LinearOrder K] [IsStrictOrderedRing K] {a : Parallelotope}
  {cfg : Settings} {p q : Perm}

/-- The value with every dimension moved to its image. -/
def permuted (a : Parallelotope) (p : Perm) : Parallelotope :=
  ⟨a.space, a.frame?.map (Frame.move a.space.size p.images)⟩

theorem permute_eq (ha : a.Shaped False) (size : p.size = a.space.size) :
    Op.Meets (fun _ => True) (fun _ => True) False (a.permute p) (· = a.permuted p) := by
  unfold permute permuted
  simp only [ne_eq, size, not_true_eq_false, if_false]
  obtain ⟨s, _ | f⟩ := a
  · exact Op.meets_pure rfl
  · refine (Op.meets_lift_ok ((ha f rfl).1.moveChecked_eq size) rfl).bind ?_
    rintro _ rfl
    exact Op.move_meets trivial rfl

theorem Shaped.permuted_value {ordered : Prop} (ha : a.Shaped ordered) (size : p.size = a.space.size) :
    (a.permuted p).Shaped ordered := by
  obtain ⟨s, _ | f⟩ := a
  · exact shaped_bottom s
  · obtain ⟨regular, hordered⟩ := ha f rfl
    exact Shaped.permuted regular hordered (size ▸ p.perm)

theorem permuted_has_iff (ha : a.Shaped False) (size : p.size = a.space.size) {x y : ℕ → K}
    (moved : ∀ j < a.space.size, y (p.images.getD j 0) = x j) : (a.permuted p).Has y ↔ a.Has x := by
  obtain ⟨s, _ | f⟩ := a
  · simp [permuted, Has]
  · have regular := (ha f rfl).1
    have spread := regular.spread_images size
    rw [has_mk, has_iff_of_frame rfl, spread.has_iff regular size, regular.has_congr_iff moved]
    simp

theorem permuted_permuted (ha : a.Shaped False) (size : p.size = a.space.size) (same : q.size = p.size) :
    (a.permuted p).permuted q = a.permuted (p.followedBy q same) := by
  obtain ⟨s, _ | f⟩ := a
  · rfl
  · simp [permuted, (ha f rfl).1.move_move size same]

theorem content_permuted_identity (ha : a.Shaped False) :
    (a.permuted (.identity a.space.size)).content = a.content := by
  obtain ⟨s, _ | f⟩ := a
  · rfl
  · simp [permuted, content, (ha f rfl).1.move_identity]

/-- Permuting by `p` and then by `q` is permuting once by the composition, permuting by the identity keeps
the space, the axes and the ranges of a value with invertible axes, and permuting by `p` and then by its
inverse restores them.  A point belongs to the value exactly when the point with each of its coordinates
moved to the image of its dimension belongs to the permuted value. -/
theorem permutations_act (ha : a.Shaped False) (size : p.size = a.space.size) (same : q.size = p.size) :
    (a.permute (.identity a.space.size)).Yields (fun b => b.space = a.space ∧ b.content = a.content) ∧
    (a.permute p).Yields fun b => b.space = a.space ∧
      (∀ x y : ℕ → K, (∀ j < a.space.size, y (p.images.getD j 0) = x j) → (b.Has y ↔ a.Has x)) ∧
      (b.permute p.inverse).Yields (fun c => c.space = a.space ∧ c.content = a.content) ∧
      (b.permute q).Yields fun c => (a.permute (p.followedBy q same)).Yields (· = c) := by
  have shaped := ha.permuted_value size
  constructor
  · obtain ⟨b, report, run, rfl⟩ := (permute_eq ha (p := .identity a.space.size) (by
      simp [Perm.identity, Perm.size])).yields
    exact ⟨_, report, run, rfl, content_permuted_identity ha⟩
  · obtain ⟨b, report, run, rfl⟩ := (permute_eq ha size).yields
    refine ⟨_, report, run, rfl, fun x y moved => permuted_has_iff ha size moved, ?_, ?_⟩
    · obtain ⟨c, report, run, rfl⟩ := (permute_eq shaped (p.size_inverse.trans size)).yields
      refine ⟨_, report, run, rfl, ?_⟩
      rw [permuted_permuted ha size p.size_inverse, p.followedBy_inverse, size]
      exact content_permuted_identity ha
    · obtain ⟨c, report, run, rfl⟩ := (permute_eq shaped (same.trans size)).yields
      refine ⟨_, report, run, ?_⟩
      rw [permuted_permuted ha size same]
      exact (permute_eq ha ((Perm.size_followedBy same).trans size)).yields

/-- The points with `0 ≤ i + x ≤ 5`, `x - y ≥ -2` and `1 ≤ 2 y ≤ 7` for an integer `i`. -/
def prismSample : Parallelotope :=
  ⟨⟨1, 2⟩, some ⟨[[1, 1, 0], [0, 1, -1], [0, 0, 2]],
    [⟨.fin 0, .fin 5⟩, ⟨.fin (-2), .posInf⟩, ⟨.fin 1, .fin 7⟩], none⟩⟩

theorem prismSample_wellFormed : prismSample.WellFormed := by
  refine shaped_mk (Frame.regular_of_invert? ⟨rfl, by decide⟩ rfl ?_) fun _ => ?_
  · decide +kernel
  · decide +kernel

theorem turning_perm : [1, 2, 0].Perm (List.range 3) := by decide

theorem flipping_perm : [0, 2, 1].Perm (List.range 3) := by decide

/-- The permutation that moves every dimension on by one. -/
def turning : Perm := ⟨[1, 2, 0], turning_perm⟩

/-- The permutation that exchanges the last two dimensions. -/
def flipping : Perm := ⟨[0, 2, 1], flipping_perm⟩

/-- The point `(1, 2, 3)` of the prism becomes `(3, 1, 2)`; turning and then flipping moves the dimensions
to `[2, 1, 0]`. -/
theorem permutations_act_sample :
    prismSample.Shaped False ∧ turning.size = prismSample.space.size ∧ flipping.size = turning.size ∧
    (turning.followedBy flipping rfl).images = [2, 1, 0] ∧
    (prismSample.permute (.identity 3)).Yields (·.content = prismSample.content) ∧
    (prismSample.permute turning).Yields fun b =>
      (b.Has fun t => [(3 : ℚ), 1, 2].getD t 0) ∧
      (b.permute turning.inverse).Yields (·.content = prismSample.content) ∧
      (b.permute flipping).Yields fun c => (prismSample.permute (turning.followedBy flipping rfl)).Yields (· = c) := by
  have shaped : prismSample.Shaped False := prismSample_wellFormed.weaken
  have point : prismSample.Has fun t => [(1 : ℚ), 2, 3].getD t 0 := by
    refine ⟨_, rfl, ?_⟩
    norm_num [Frame.Has, Frame.rows, Interval.Has]
  obtain ⟨⟨d, still, kept, -, same⟩, b, report, run, -, points, ⟨c, back, undone, -, restored⟩, once⟩ :=
    permutations_act (K := ℚ) shaped (p := turning) (q := flipping) rfl rfl
  refine ⟨shaped, rfl, rfl, rfl, ⟨d, still, kept, same⟩, b, report, run, ?_, ⟨c, back, undone, restored⟩,
    once⟩
  apply (points (fun t => [(1 : ℚ), 2, 3].getD t 0) _ ?_).mpr point
  intro j hj
  have known : j = 0 ∨ j = 1 ∨ j = 2 := by
    have small : j < 3 := hj
    omega
  rcases known with rfl | rfl | rfl <;> rfl

/-! ## Ranges -/

/-- The points with one half at dimension `i`. -/
def halved (s : Space) (i : ℕ) : Parallelotope :=
  ⟨s, some ⟨.identity s.size, (List.replicate s.size .top).set i (.point (1 / 2)), none⟩⟩

theorem halved_wellFormed (s : Space) (i : ℕ) : (halved s i).WellFormed := by
  refine shaped_mk (Frame.regular_mk (Mat.regular_identity s.size) (by simp)) fun _ I hI => ?_
  cases List.mem_or_eq_of_mem_set hI with
  | inl top =>
    rw [List.eq_of_mem_replicate top]
    exact Bound.negInf_le _
  | inr half =>
    rw [half]
    exact le_rfl

theorem halved_has {s : Space} {i : ℕ} (hi : i < s.size) :
    (halved s i).Has fun j => if j = i then (1 / 2 : K) else 0 := by
  have regular : Frame.Regular ⟨.identity s.size, (List.replicate s.size .top).set i (.point (1 / 2)), none⟩
      s.size := (halved_wellFormed s i _ rfl).1
  apply has_mk.mpr
  apply regular.has_iff_lt.mpr
  intro j hj
  rw [Mat.image_identity hj, getD_set (by simpa using hi)]
  by_cases same : j = i
  · simp [same, Interval.point_has]
  · simp [same, hj, Interval.top_has]

theorem halved_reads {s : Space} {i : ℕ} (hi : i < s.size) :
    Frame.Reads ⟨.identity s.size, (List.replicate s.size .top).set i (.point (1 / 2)), none⟩
      s.size i i := by
  refine ⟨hi, by simp [Mat.identity, hi], fun j hj other => ?_⟩
  have row : (Mat.identity s.size).getD j [] = Vec.unit s.size j := by simp [Mat.identity, hj]
  rw [Mat.entry, row, Vec.getD_unit hi, if_neg other]

theorem holds_half (P : Precision) : P.Holds (.fin (1 / 2)) := by
  refine fun _ => ⟨1022 * Binary64.pow2 52, by decide +kernel, .inl ?_⟩
  decide +kernel

theorem readRange_half {s : Space} {d : ℕ} (tightens : cfg.tightenIntegers = true) (integer : d < s.ints) :
    Frame.readRange cfg s d (.point (1 / 2)) = ⟨.fin 1, .fin 0⟩ := by
  have kept : (Interval.point (1 / 2)).outward cfg.precision = .point (1 / 2) :=
    congrArg₂ Interval.mk (Precision.round_eq_self_iff.mpr (holds_half _))
      (Precision.round_eq_self_iff.mpr (holds_half _))
  have empty : (Interval.point (1 / 2)).tighten = ⟨.fin 1, .fin 0⟩ := by decide +kernel
  rw [Frame.readRange, kept, empty]
  simp [Space.isInt, integer, tightens]

theorem boundDimension_halved {s : Space} {i : ℕ} (size : p.size = s.size)
    (tightens : cfg.tightenIntegers = true) (hi : i < s.size) (integer : p.images.getD i 0 < s.ints) :
    (((halved s i).permuted p).boundDimension cfg (.int (p.images.getD i 0))).Yields
      (· = ⟨.fin 1, .fin 0⟩) := by
  have wellFormed := halved_wellFormed s i
  have regular : Frame.Regular ⟨.identity s.size, (List.replicate s.size .top).set i (.point (1 / 2)), none⟩
      s.size := (wellFormed _ rfl).1
  have spread := regular.spread_images size
  have inside : i < p.images.length := hi.trans_eq size.symm
  have reads := (halved_reads hi).move regular hi size
  have answer : (((halved s i).permuted p).boundDimension cfg (.int (p.images.getD i 0))).Yields _ :=
    boundDimension_of_reads (wellFormed.permuted_value size) rfl ((p.getD_lt inside).trans_eq size) reads
  have range := (spread.moved i inside).2
  rw [getD_set (by simpa using hi), if_pos rfl] at range
  rwa [halved, range, permuted, readRange_half tightens integer] at answer

/-- Permuting keeps the counts of integer and real dimensions, and the range of an integer dimension is
rounded inward.  So after any permutation the range of the image of a dimension holds what the points have
there, if the image is a real dimension or these numbers are integers.  It holds what all points of integers
have there, for every value over the space, exactly when no real dimension is moved to an integer one. -/
theorem permuted_ranges_decided (tightens : cfg.tightenIntegers = true) {s : Space}
    (size : p.size = s.size) :
    (∀ a : Parallelotope, a.WellFormed → a.space = s → (a.permute p).Yields fun b => ∀ i < s.size,
      (b.boundDimension cfg (.int (p.images.getD i 0))).Yields fun I => ∀ x : ℕ → K, a.Has x →
        (p.images.getD i 0 < s.ints → ∃ z : ℤ, x i = z) → I.Has (x i)) ∧
    ((∀ a : Parallelotope, a.WellFormed → a.space = s → (a.permute p).Yields fun b => ∀ i < s.size,
      (b.boundDimension cfg (.int (p.images.getD i 0))).Yields fun I => ∀ x : ℕ → K, s.Admits x →
        a.Has x → I.Has (x i)) ↔
      ∀ i < s.size, p.images.getD i 0 < s.ints → i < s.ints) := by
  have ranges : ∀ a : Parallelotope, a.WellFormed → a.space = s → (a.permute p).Yields fun b =>
      ∀ i < s.size, (b.boundDimension cfg (.int (p.images.getD i 0))).Yields fun I => ∀ x : ℕ → K,
        a.Has x → (p.images.getD i 0 < s.ints → ∃ z : ℤ, x i = z) → I.Has (x i) := by
    rintro a wellFormed rfl
    obtain ⟨b, report, run, rfl⟩ := (permute_eq wellFormed.weaken size).yields
    refine ⟨_, report, run, fun i hi => ?_⟩
    have image : p.images.getD i 0 < (a.permuted p).space.size :=
      (p.getD_lt (size.symm ▸ hi)).trans_eq size
    have bounded : Op.Meets (fun _ => True) (fun _ => True) False
        ((a.permuted p).boundDimension cfg (.int (p.images.getD i 0))) _ :=
      boundDimension_meets (K := K) (wellFormed.permuted_value size).weaken image.not_ge
    obtain ⟨I, report, run, holds⟩ := bounded.yields
    refine ⟨I, report, run, fun x has whole => ?_⟩
    -- The point that has each coordinate at the image of its dimension.
    have back : ∀ j < a.space.size, x (p.inverse.images.getD (p.images.getD j 0) 0) = x j :=
      fun j hj => by rw [p.getD_inverse (size.symm ▸ hj)]
    have moved := holds (fun t => x (p.inverse.images.getD t 0))
    simp only [back i hi] at moved
    exact moved whole ((permuted_has_iff wellFormed.weaken size back).mpr has)
  refine ⟨ranges, fun sound i hi integer => ?_, fun kinds a wellFormed space => ?_⟩
  · -- A real dimension that is one half would be missed.
    by_contra real
    obtain ⟨b, report, run, bounds⟩ := sound (halved s i) (halved_wellFormed s i) rfl
    obtain rfl := (permute_eq (halved_wellFormed s i).weaken size).of_start run
    obtain ⟨I, report, run, holds⟩ := bounds i hi
    obtain ⟨J, report', run', empty⟩ := boundDimension_halved size tightens hi integer
    have same : I = J := Except.ok.inj (congrArg Prod.fst (run.symm.trans run'))
    have admits : s.Admits fun j => if j = i then (1 / 2 : K) else 0 := by
      intro d hd
      refine ⟨0, ?_⟩
      simp [show d ≠ i by omega]
    have half := holds _ admits (halved_has hi)
    rw [same, empty] at half
    norm_num [Interval.Has] at half
  · obtain ⟨b, report, run, bounds⟩ := ranges a wellFormed space
    refine ⟨b, report, run, fun i hi => ?_⟩
    obtain ⟨I, report, run, holds⟩ := bounds i hi
    exact ⟨I, report, run, fun x admits has => holds x has fun integer => admits i (kinds i hi integer)⟩

theorem permuted_ranges_decided_sample :
    Settings.tightenIntegers {} = true ∧ flipping.size = prismSample.space.size ∧
    (prismSample.permute flipping).Yields fun b => ∀ i < 3,
      (b.boundDimension {} (.int (flipping.images.getD i 0))).Yields fun I => ∀ x : ℕ → ℚ,
        prismSample.space.Admits x → prismSample.Has x → I.Has (x i) := by
  have kinds : ∀ i < prismSample.space.size, flipping.images.getD i 0 < prismSample.space.ints →
      i < prismSample.space.ints := by decide
  refine ⟨rfl, rfl, ?_⟩
  exact (permuted_ranges_decided (K := ℚ) rfl rfl).2.mpr kinds prismSample prismSample_wellFormed rfl

theorem crossing_perm : [1, 0].Perm (List.range 2) := by decide

/-- The permutation that exchanges an integer and a real dimension. -/
def crossing : Perm := ⟨[1, 0], crossing_perm⟩

/-- The real dimension is one half at a point of integers, and moved to the integer place it has an empty
range. -/
theorem half_missed_after_crossing :
    (halved ⟨1, 1⟩ 1).WellFormed ∧ crossing.size = 2 ∧ crossing.images.getD 1 0 = 0 ∧
    (Space.Admits ⟨1, 1⟩ fun j => if j = 1 then (1 / 2 : ℚ) else 0) ∧
    ((halved ⟨1, 1⟩ 1).Has fun j => if j = 1 then (1 / 2 : ℚ) else 0) ∧
    ((halved ⟨1, 1⟩ 1).permute crossing).Yields fun b =>
      (b.boundDimension {} (.int 0)).Yields fun I => I = ⟨.fin 1, .fin 0⟩ ∧ ¬ I.Has (1 / 2 : ℚ) := by
  have wellFormed := halved_wellFormed ⟨1, 1⟩ 1
  have admits : Space.Admits ⟨1, 1⟩ fun j => if j = 1 then (1 / 2 : ℚ) else 0 := by
    intro d hd
    have first : d ≠ 1 := Nat.ne_of_lt hd
    exact ⟨0, by simp [first]⟩
  refine ⟨wellFormed, rfl, rfl, admits, halved_has (by decide), ?_⟩
  obtain ⟨b, report, run, rfl⟩ := (permute_eq (p := crossing) wellFormed.weaken rfl).yields
  refine ⟨_, report, run, ?_⟩
  have empty : (((halved ⟨1, 1⟩ 1).permuted crossing).boundDimension {} (.int 0)).Yields
      (· = ⟨.fin 1, .fin 0⟩) := boundDimension_halved rfl rfl (by decide) (by decide)
  obtain ⟨I, report, run, rfl⟩ := empty
  exact ⟨_, report, run, rfl, by norm_num [Interval.Has]⟩

end Parallelotope

end SkewBox
