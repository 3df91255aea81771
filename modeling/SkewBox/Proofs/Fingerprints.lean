import SkewBox.Proofs.AttainedRanges

/-!
# Fingerprints

The fingerprint of a value tells which of its dimensions are bounded, and on which sides.  It is read off the
ranges of the dimensions, which are found through the inverse of the axes and rounded at integer dimensions;
but what it tells is a matter of the points alone, so that values with the same points have the same one.

* `Parallelotope.IsFingerprint`, `fingerprint_meets`: what a fingerprint tells.
* `Parallelotope.equal_values_share_fingerprint`: equal values have one fingerprint.
-/

namespace SkewBox

/-! ## Ends -/

namespace Interval

variable {K : Type*} [Field K] [LinearOrder K] {I : Interval} {S : K → Prop}

theorem IsRange.lo_isFinite_iff (range : I.IsRange S) : I.lo.isFinite ↔ ∃ m, ∀ v, S v → m ≤ v := by
  constructor
  · intro finite
    cases low : I.lo with
    | fin q =>
      refine ⟨q, fun v hv => ?_⟩
      simpa [low] using (range.has v hv).1
    | negInf => simp [low, Bound.isFinite] at finite
    | posInf => simp [low, Bound.isFinite] at finite
  · rintro ⟨m, bound⟩
    by_contra infinite
    obtain ⟨v, less, hv⟩ := range.unbounded_below (Bool.eq_false_iff.mpr infinite) m
    exact absurd (bound v hv) (not_le.mpr less)

theorem IsRange.hi_isFinite_iff (range : I.IsRange S) : I.hi.isFinite ↔ ∃ m, ∀ v, S v → v ≤ m := by
  constructor
  · intro finite
    cases high : I.hi with
    | fin q =>
      refine ⟨q, fun v hv => ?_⟩
      simpa [high] using (range.has v hv).2
    | negInf => simp [high, Bound.isFinite] at finite
    | posInf => simp [high, Bound.isFinite] at finite
  · rintro ⟨m, bound⟩
    by_contra infinite
    obtain ⟨v, more, hv⟩ := range.unbounded_above (Bool.eq_false_iff.mpr infinite) m
    exact absurd (bound v hv) (not_le.mpr more)

theorem isFinite_tighten (I : Interval) :
    I.tighten.lo.isFinite = I.lo.isFinite ∧ I.tighten.hi.isFinite = I.hi.isFinite := by
  obtain ⟨lo, hi⟩ := I
  cases lo <;> cases hi <;> exact ⟨rfl, rfl⟩

end Interval

/-! ## Dimensions -/

/-- Without rounding, the ends of the range of a dimension are finite where the coordinates of the points are
bounded, be the dimension a real or an integer one. -/
theorem Frame.Regular.boundDimension_ends {f : Frame} {s : Space} {cfg : Settings}
    (regular : f.Regular s.size) (filled : f.Filled) (exact : cfg.precision = .exact) {d : ℕ}
    (inside : d < s.size) {I : Interval}
    (bounded : f.boundDimension cfg s d = .ok I) :
    (I.lo.isFinite ↔ ∃ m : ℚ, ∀ x : ℕ → ℚ, f.Has x → m ≤ x d) ∧
      (I.hi.isFinite ↔ ∃ m : ℚ, ∀ x : ℕ → ℚ, f.Has x → x d ≤ m) := by
  obtain ⟨w, solved, inverse⟩ := regular.exists_solve
  have coordinates := fun v : ℚ => regular.coordinate_has_iff (K := ℚ) filled inverse inside (v := v)
  have some : (Precision.exact.dot (w.getD d []) f.ranges).Filled := by
    obtain ⟨x, hx⟩ := regular.exists_has (K := ℚ) filled
    exact ⟨x d, (coordinates (x d)).mpr ⟨x, hx, rfl⟩⟩
  have range := some.isRange coordinates
  rw [boundDimension, solved, ok_bind, exact] at bounded
  have ends : I.lo.isFinite = (Precision.exact.dot (w.getD d []) f.ranges).lo.isFinite ∧
      I.hi.isFinite = (Precision.exact.dot (w.getD d []) f.ranges).hi.isFinite := by
    obtain rfl := Except.ok.inj bounded
    -- The range of an integer dimension may be rounded, which moves its ends but not to infinity.
    split
    · exact Interval.isFinite_tighten _
    · exact ⟨rfl, rfl⟩
  rw [ends.1, ends.2, range.lo_isFinite_iff, range.hi_isFinite_iff]
  simp

/-! ## Values -/

namespace Parallelotope

variable {a b : Parallelotope} {cfg : Settings} {W : Parallelotope → Prop}
variable {h h' : Space × Option (List (Bool × Bool))}

/-- The two marks tell whether a dimension is bounded from below and from above on the points. -/
structure Sides (a : Parallelotope) (d : ℕ) (marks : Bool × Bool) : Prop where
  below : marks.1 ↔ ∃ m : ℚ, ∀ x : ℕ → ℚ, a.Has x → m ≤ x d
  above : marks.2 ↔ ∃ m : ℚ, ∀ x : ℕ → ℚ, a.Has x → x d ≤ m

/-- What a fingerprint tells: the space, whether there are points, and the sides on which each dimension
is bounded. -/
structure IsFingerprint (a : Parallelotope) (h : Space × Option (List (Bool × Bool))) : Prop where
  space : h.1 = a.space
  empty : h.2 = none ↔ ∀ x : ℕ → ℚ, ¬ a.Has x
  sides : ∀ marks, h.2 = some marks → List.Forall₂ a.Sides (List.range a.space.size) marks

theorem Sides.congr (same : ∀ x : ℕ → ℚ, a.Has x ↔ b.Has x) {d : ℕ} {marks : Bool × Bool}
    (sides : b.Sides d marks) : a.Sides d marks := by
  constructor
  · simpa only [same] using sides.below
  · simpa only [same] using sides.above

theorem Sides.unique {d : ℕ} {marks marks' : Bool × Bool} (first : a.Sides d marks)
    (second : a.Sides d marks') : marks = marks' := by
  apply Prod.ext
  · exact Bool.eq_iff_iff.mpr (first.below.trans second.below.symm)
  · exact Bool.eq_iff_iff.mpr (first.above.trans second.above.symm)

theorem IsFingerprint.congr (space : a.space = b.space) (same : ∀ x : ℕ → ℚ, a.Has x ↔ b.Has x)
    (told : b.IsFingerprint h) : a.IsFingerprint h := by
  constructor
  · exact told.space.trans space.symm
  · simpa only [same] using told.empty
  · intro marks hm
    rw [space]
    exact (told.sides marks hm).imp fun _ _ => Sides.congr same

theorem IsFingerprint.unique (first : a.IsFingerprint h) (second : a.IsFingerprint h') : h = h' := by
  obtain ⟨s, pattern⟩ := h
  obtain ⟨s', pattern'⟩ := h'
  have empty := first.empty.trans second.empty.symm
  apply Prod.ext (first.space.trans second.space.symm)
  cases pattern with
  | none => exact (empty.mp rfl).symm
  | some marks =>
    cases pattern' with
    | none => exact empty.mpr rfl
    | some marks' =>
      have unique : Relator.RightUnique a.Sides := fun _ _ _ => Sides.unique
      exact congrArg some (unique.forall₂ (first.sides _ rfl) (second.sides _ rfl))

theorem toBox_sides (regular : a.Shaped False) (filled : a.Filled) (exact : cfg.precision = .exact)
    (nonempty : a.isBottom = false) :
    Op.Meets W W False (a.toBox cfg) fun box =>
      List.Forall₂ (fun d I => a.Sides d (I.lo.isFinite, I.hi.isFinite)) (List.range a.space.size) box := by
  cases hf : a.frame? with
  | none => simp [isBottom, hf] at nonempty
  | some f =>
    apply toBox_meets hf (regular f hf).1
    intro w regular' d inside
    have filled' : Frame.Filled { f with inverse? := some w } := filled f hf
    obtain ⟨I, bounded, -⟩ := regular'.exists_boundDimension (K := ℚ) cfg inside
    obtain ⟨below, above⟩ := regular'.boundDimension_ends filled' exact inside bounded
    refine ⟨I, bounded, ?_, ?_⟩
    · simp only [has_iff_of_frame hf]
      exact below
    · simp only [has_iff_of_frame hf]
      exact above

theorem fingerprint_meets (regular : a.Shaped False) (filled : a.Filled) (exact : cfg.precision = .exact) :
    Op.Meets W W False (a.fingerprint cfg) a.IsFingerprint := by
  unfold fingerprint
  cases empty : a.isBottom with
  | true =>
    have none : ∀ x : ℕ → ℚ, ¬ a.Has x := by
      intro x hx
      rw [not_isBottom_of_has hx] at empty
      exact absurd empty (by simp)
    exact Op.meets_pure ⟨rfl, iff_of_true rfl none, by simp⟩
  | false =>
    obtain ⟨f, hf⟩ : ∃ f, a.frame? = some f := by
      simpa [isBottom, Option.isSome_iff_exists] using empty
    obtain ⟨x, hx⟩ := (regular f hf).1.exists_has (K := ℚ) (filled f hf)
    have some : ¬ ∀ x : ℕ → ℚ, ¬ a.Has x := fun none => none x ((has_iff_of_frame hf).mpr hx)
    apply (toBox_sides regular filled exact empty).bind
    intro box sides
    refine Op.meets_pure ⟨rfl, iff_of_false (by simp) some, ?_⟩
    intro marks hm
    obtain rfl := Option.some.inj hm
    exact List.forall₂_map_right_iff.mpr sides

/-- Without rounding, two values over one space that pass the equality test have the same fingerprint,
whatever their axes are, and whether or not integer dimensions are tightened on either side.  It tells the
space, whether there are points, and on which sides each dimension is bounded.  Each range is to hold a
rational; the test itself may round. -/
theorem equal_values_share_fingerprint (cfg₁ cfg₂ : Settings) (exact₁ : cfg₁.precision = .exact)
    (exact₂ : cfg₂.precision = .exact) {a b : Parallelotope} (ha : a.WellFormed) (hb : b.WellFormed)
    (space : a.space = b.space) (filled : a.Filled) (filled' : b.Filled)
    (equal : (a.equal cfg b).Yields (· = true)) :
    ∃ h, (a.fingerprint cfg₁).Yields (· = h) ∧ (b.fingerprint cfg₂).Yields (· = h) ∧
      a.IsFingerprint h ∧ b.IsFingerprint h := by
  have same : ∀ x : ℕ → ℚ, a.Has x ↔ b.Has x := has_iff_of_equal ha hb space equal
  obtain ⟨h, report, run, told⟩ :=
    (fingerprint_meets (W := fun _ => True) ha.weaken filled exact₁).yields
  obtain ⟨h', report', run', told'⟩ :=
    (fingerprint_meets (W := fun _ => True) hb.weaken filled' exact₂).yields
  obtain rfl : h = h' := told.unique (told'.congr space same)
  exact ⟨h, ⟨h, report, run, rfl⟩, ⟨h, report', run', rfl⟩, told, told'⟩

/-- The points with `1/2 ≤ x ≤ 5/2`, for an integer `x`. -/
def slabSample : Parallelotope :=
  ⟨⟨1, 1⟩, some ⟨[[1, 0], [0, 1]], [⟨.fin (1 / 2), .fin (5 / 2)⟩, .top], none⟩⟩

/-- The same points, on other axes. -/
def skewSlabSample : Parallelotope :=
  ⟨⟨1, 1⟩, some ⟨[[1, 1], [2, 0]], [.top, ⟨.fin 1, .fin 5⟩], none⟩⟩

theorem slabSample_wellFormed : slabSample.WellFormed := by
  apply shaped_mk (Frame.regular_of_invert? ⟨rfl, by decide⟩ rfl _)
  · decide +kernel
  · decide +kernel

theorem skewSlabSample_wellFormed : skewSlabSample.WellFormed := by
  apply shaped_mk (Frame.regular_of_invert? ⟨rfl, by decide⟩ rfl _)
  · decide +kernel
  · decide +kernel

/-- On both axes `x` is bounded on both sides and `y` on none, with the ends of `x` rounded or not. -/
theorem equal_values_share_fingerprint_sample :
    (slabSample.equal {} skewSlabSample).Yields (· = true) ∧
    (slabSample.fingerprint {}).Yields (· = (⟨1, 1⟩, some [(true, true), (false, false)])) ∧
    (skewSlabSample.fingerprint { tightenIntegers := false }).Yields
      (· = (⟨1, 1⟩, some [(true, true), (false, false)])) ∧
    skewSlabSample.IsFingerprint (⟨1, 1⟩, some [(true, true), (false, false)]) := by
  have equal : (slabSample.equal {} skewSlabSample).Yields (· = true) :=
    ⟨true, _, Prod.ext (by decide +kernel) rfl, rfl⟩
  have value : (slabSample.fingerprint {}).start.1 =
      .ok (⟨1, 1⟩, some [(true, true), (false, false)]) := by
    decide +kernel
  obtain ⟨h, ⟨_, report, run, rfl⟩, other, -, told⟩ := equal_values_share_fingerprint {}
    { tightenIntegers := false } rfl rfl slabSample_wellFormed skewSlabSample_wellFormed rfl
    (filled_mk (by decide +kernel)) (filled_mk (by decide +kernel)) equal
  rw [run] at value
  obtain rfl := Except.ok.inj value
  exact ⟨equal, ⟨_, report, run, rfl⟩, other, told⟩

end Parallelotope

end SkewBox
