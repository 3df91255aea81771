import SkewBox.Proofs.Inclusion

/-!
# Attained ranges

The range that is computed for a direction over a value with a rational in each of its ranges reaches
exactly as far as the direction does on the points of the value, and further only where it is rounded.

* `Interval.IsRange`: an interval that reaches exactly as far as some numbers do.
* `Parallelotope.ranges_attained`: directions and the smallest box.
-/

namespace SkewBox

variable {K : Type*} [Field K] [LinearOrder K]

/-! ## Intervals -/

/-- The interval holds all numbers with `S` and reaches exactly as far as they do: a finite end is one
of them, and toward an infinite end they go beyond every bound. -/
structure Interval.IsRange (I : Interval) (S : K → Prop) : Prop where
  has : ∀ v, S v → I.Has v
  lower : ∀ q, I.lo = .fin q → S q
  upper : ∀ q, I.hi = .fin q → S q
  unbounded_below : I.lo.isFinite = false → ∀ m, ∃ v < m, S v
  unbounded_above : I.hi.isFinite = false → ∀ m, ∃ v > m, S v

/-- Each coordinate of the point lies in its entry of the box; what the box does not mention is free. -/
def InBox (box : List Interval) (x : ℕ → K) : Prop := ∀ d, (box.getD d .top).Has (x d)

variable [IsStrictOrderedRing K]

namespace Interval

variable {I : Interval}

theorem Filled.isRange (filled : I.Filled) {S : K → Prop} (members : ∀ v, I.Has v ↔ S v) :
    I.IsRange S := by
  obtain ⟨w, hw⟩ := filled.exists_has (K := K)
  have ordered := filled.ordered
  refine ⟨fun v => (members v).mpr, fun q end_eq => ?_, fun q end_eq => ?_, fun infinite m => ?_,
    fun infinite m => ?_⟩
  · refine (members q).mp ⟨?_, ?_⟩
    · exact Bound.below_ratCast.mpr end_eq.le
    · exact Bound.above_ratCast.mpr (end_eq ▸ ordered)
  · refine (members q).mp ⟨?_, ?_⟩
    · exact Bound.below_ratCast.mpr (end_eq ▸ ordered)
    · exact Bound.above_ratCast.mpr end_eq.ge
  · -- The lower end is no obstacle, so a member may be lowered at will.
    refine ⟨min w (m - 1), (min_le_right ..).trans_lt (sub_one_lt m), (members _).mp ⟨?_, ?_⟩⟩
    · have low := hw.1
      cases end_eq : I.lo with
      | negInf => trivial
      | fin q => simp [end_eq, Bound.isFinite] at infinite
      | posInf => simp [end_eq] at low
    · exact hw.2.trans_ge (min_le_left ..)
  · refine ⟨max w (m + 1), (lt_add_one m).trans_le (le_max_right ..), (members _).mp ⟨?_, ?_⟩⟩
    · exact hw.1.trans_le (le_max_left ..)
    · have high := hw.2
      cases end_eq : I.hi with
      | negInf => simp [end_eq] at high
      | fin q => simp [end_eq, Bound.isFinite] at infinite
      | posInf => trivial

theorem IsRange.leq {S : K → Prop} (range : I.IsRange S) {w : K} (hw : S w) {J : Interval}
    (within : ∀ v, S v → J.Has v) : I.leq J := by
  have member := range.has w hw
  have filled : I.Filled := by
    refine filled_iff.mpr ⟨member.ordered, fun infinite => ?_, fun infinite => ?_⟩
    · simpa [infinite] using member.1
    · simpa [infinite] using member.2
  refine leq_of_has filled fun q hq => (has_ratCast (K := K)).mp ⟨?_, ?_⟩
  · -- Some number of the range does not lie above `q`.
    obtain ⟨v, hv, le⟩ : ∃ v, S v ∧ v ≤ (q : K) := by
      cases lower : I.lo with
      | fin p => exact ⟨p, range.lower p lower, by simpa [lower] using hq.1⟩
      | negInf =>
        obtain ⟨v, lt, hv⟩ := range.unbounded_below (by rw [lower]; rfl) q
        exact ⟨v, hv, lt.le⟩
      | posInf => simpa [lower] using hq.1
    exact (within v hv).1.trans_le le
  · obtain ⟨v, hv, le⟩ : ∃ v, S v ∧ (q : K) ≤ v := by
      cases upper : I.hi with
      | fin p => exact ⟨p, range.upper p upper, by simpa [upper] using hq.2⟩
      | posInf =>
        obtain ⟨v, lt, hv⟩ := range.unbounded_above (by rw [upper]; rfl) q
        exact ⟨v, hv, lt.le⟩
      | negInf => simpa [upper] using hq.2
    exact (within v hv).2.trans_ge le

end Interval

/-! ## Frames -/

namespace Frame

variable {f : Frame} {n : ℕ} {s : Space} {cfg : Settings}

theorem Regular.boundDirection_has (regular : f.Regular n) {r : Vec} (length : r.length = n)
    {I : Interval} (bounded : f.boundDirection cfg r = .ok I) {x : ℕ → K} (hx : f.Has x) :
    I.Has (r.eval x) := by
  obtain ⟨J, bounded', has⟩ := regular.exists_boundDirection (K := K) cfg length
  obtain rfl := Except.ok.inj (bounded.symm.trans bounded')
  exact has x hx

/-- Without rounding, the range of a direction reaches as far as the direction does on the points. -/
theorem Regular.boundDirection_isRange (regular : f.Regular n) (filled : f.Filled)
    (exact : cfg.precision = .exact) {r : Vec} (length : r.length = n) {I : Interval}
    (bounded : f.boundDirection cfg r = .ok I) :
    I.Filled ∧ I.IsRange fun v : K => ∃ x, f.Has x ∧ r.eval x = v := by
  have filled' : I.Filled := by
    obtain ⟨x, hx⟩ := regular.exists_has (K := ℚ) filled
    exact ⟨r.eval x, regular.boundDirection_has length bounded hx⟩
  refine ⟨filled', filled'.isRange fun v => ⟨regular.exists_of_boundDirection filled exact length bounded,
    ?_⟩⟩
  rintro ⟨x, hx, rfl⟩
  exact regular.boundDirection_has length bounded hx

/-- Without rounding, the rows combined as a row of the inverse says range over the coordinates that the
points have there, and no more. -/
theorem Regular.coordinate_has_iff (regular : f.Regular n) (filled : f.Filled) {w : Mat}
    (inverse : w.IsInverse f.axes n) {d : ℕ} (inside : d < n) {v : K} :
    (Precision.exact.dot (w.getD d []) f.ranges).Has v ↔ ∃ x : ℕ → K, f.Has x ∧ x d = v := by
  have length : (w.getD d []).length = n := inverse.shape.getD_length inside
  have fits : (w.getD d []).length ≤ f.ranges.length := (length.trans regular.ranges.symm).le
  constructor
  · intro h
    obtain ⟨y, members, rfl⟩ := Precision.exists_of_dot_has fits filled h
    obtain ⟨x, image⟩ := regular.exists_image y
    refine ⟨x, regular.has_iff_lt.mpr fun i hi => ?_, ?_⟩
    · rw [image i hi]
      exact members i
    · rw [← inverse.image_image regular.axes.shape x inside]
      exact Vec.eval_congr fun i hi => image i (length ▸ hi)
  · rintro ⟨x, hx, rfl⟩
    rw [← inverse.image_image regular.axes.shape x inside]
    exact Precision.exact.dot_has fits ((has_iff regular.same).mp hx)

theorem Regular.boundDimension_has_iff (regular : f.Regular s.size) (filled : f.Filled)
    (exact : cfg.precision = .exact) {d : ℕ} (inside : d < s.size) (real : s.isInt d = false)
    {I : Interval} (bounded : f.boundDimension cfg s d = .ok I) {v : K} :
    I.Has v ↔ ∃ x : ℕ → K, f.Has x ∧ x d = v := by
  obtain ⟨w, solved, inverse⟩ := regular.exists_solve
  rw [boundDimension, solved, ok_bind, real, exact] at bounded
  obtain rfl := Except.ok.inj bounded
  exact regular.coordinate_has_iff filled inverse inside

theorem Regular.boundDimension_isRange (regular : f.Regular s.size) (filled : f.Filled)
    (exact : cfg.precision = .exact) {d : ℕ} (inside : d < s.size) (real : s.isInt d = false)
    {I : Interval} (bounded : f.boundDimension cfg s d = .ok I) :
    I.IsRange fun v : K => ∃ x, f.Has x ∧ x d = v := by
  have filled' : I.Filled := by
    obtain ⟨x, hx⟩ := regular.exists_has (K := ℚ) filled
    exact ⟨x d, (regular.boundDimension_has_iff filled exact inside real bounded).mpr ⟨x, hx, rfl⟩⟩
  exact filled'.isRange fun v => regular.boundDimension_has_iff filled exact inside real bounded

end Frame

/-! ## Values -/

namespace Parallelotope

variable {a : Parallelotope} {cfg : Settings} {W : Parallelotope → Prop}

omit [IsStrictOrderedRing K] in
/-- The direction takes the number `v` at some point of the value. -/
def Attains (a : Parallelotope) (r : Vec) (v : K) : Prop := ∃ x : ℕ → K, a.Has x ∧ r.eval x = v

theorem boundDirection_total (cfg : Settings) (regular : a.Shaped False) (nonempty : a.isBottom = false)
    (filled : a.Filled) {r : Vec} (length : r.length = a.space.size) :
    Op.Meets W W False (a.boundDirection cfg r) fun I =>
      ∃ J : Interval, J.IsRange (a.Attains (K := K) r) ∧ J.leq I ∧ (cfg.precision = .exact → I = J) := by
  unfold boundDirection
  cases hf : a.frame? with
  | none => simp [isBottom, hf] at nonempty
  | some f =>
    refine (Op.invert_meets (regular f hf).1).bind ?_
    rintro _ ⟨w, regular', rfl⟩
    have filled' : Frame.Filled { f with inverse? := some w } := filled f hf
    have points : a.Attains (K := K) r = fun v => ∃ x, f.Has x ∧ r.eval x = v := by
      funext v
      simp only [Attains, has_iff_of_frame hf]
    obtain ⟨I, bounded, has⟩ := regular'.exists_boundDirection (K := ℚ) cfg length
    -- The exact range exists beside the rounded one, and is what the points attain.
    obtain ⟨J, sharp, -⟩ := regular'.exists_boundDirection (K := ℚ) { cfg with precision := .exact } length
    obtain ⟨some, range⟩ := regular'.boundDirection_isRange (K := K) filled' rfl length sharp
    refine Op.meets_lift_ok bounded ⟨J, points ▸ range, ?_, fun exact => ?_⟩
    · refine Interval.leq_of_has some fun q hq => ?_
      obtain ⟨x, hx, rfl⟩ := regular'.exists_of_boundDirection filled' rfl length sharp hq
      exact has x hx
    · rw [← exact] at sharp
      exact Except.ok.inj (bounded.symm.trans sharp)

/-- What the entry of a box says about a dimension: it holds the coordinates of the points of integers,
and without rounding it is the range of a real dimension. -/
structure BoxEntry (cfg : Settings) (a : Parallelotope) (K : Type*) [Field K] [LinearOrder K] (d : ℕ)
    (I : Interval) : Prop where
  has : ∀ x : ℕ → K, a.Points x → I.Has (x d)
  isRange : cfg.precision = .exact → a.space.isInt d = false →
    I.IsRange fun v : K => ∃ x, a.Has x ∧ x d = v

theorem toBox_meets {R : ℕ → Interval → Prop} {f : Frame} (hf : a.frame? = some f)
    (regular : f.Regular a.space.size)
    (each : ∀ w, Frame.Regular { f with inverse? := some w } a.space.size → ∀ d < a.space.size,
      ∃ I, Frame.boundDimension cfg a.space { f with inverse? := some w } d = .ok I ∧ R d I) :
    Op.Meets W W False (a.toBox cfg) fun box => List.Forall₂ R (List.range a.space.size) box := by
  unfold toBox
  rw [hf]
  dsimp only
  split
  · rename_i none
    rw [List.isEmpty_iff.mp none]
    exact Op.meets_pure .nil
  · refine (Op.invert_meets regular).bind ?_
    rintro _ ⟨w, regular', rfl⟩
    refine Op.meets_mapM fun d hd => ?_
    obtain ⟨I, bounded, entry⟩ := each w regular' d (List.mem_range.mp hd)
    exact Op.meets_lift_ok bounded entry

theorem toBox_total (cfg : Settings) (regular : a.Shaped False) (nonempty : a.isBottom = false)
    (filled : a.Filled) :
    Op.Meets W W False (a.toBox cfg) fun box =>
      List.Forall₂ (BoxEntry cfg a K) (List.range a.space.size) box := by
  cases hf : a.frame? with
  | none => simp [isBottom, hf] at nonempty
  | some f =>
    apply toBox_meets hf (regular f hf).1
    intro w regular' d inside
    have filled' : Frame.Filled { f with inverse? := some w } := filled f hf
    obtain ⟨I, bounded, has⟩ := regular'.exists_boundDimension (K := K) cfg inside
    refine ⟨I, bounded, fun x points => ?_, fun exact real => ?_⟩
    · exact has x (points.1 d) ((has_iff_of_frame hf).mp points.2)
    · simp only [has_iff_of_frame hf]
      exact regular'.boundDimension_isRange filled' exact inside real bounded

/-- Over a value with invertible axes and a rational in each of its ranges, the range of any direction
is found.  Without rounding it reaches exactly as far as the direction does on the points of the value,
and with rounding it holds this exact range.  The ranges of the dimensions hold the points of integers,
and without rounding they are, at the real dimensions, the smallest ones that hold the points. -/
theorem ranges_attained (cfg : Settings) {a : Parallelotope} (regular : a.Shaped False)
    (nonempty : a.isBottom = false) (filled : a.Filled) :
    (∀ r : Vec, r.length = a.space.size → (a.boundDirection cfg r).Yields fun I =>
      ∃ J : Interval, J.IsRange (a.Attains (K := K) r) ∧ J.leq I ∧ (cfg.precision = .exact → I = J)) ∧
    (a.toBox cfg).Yields fun box =>
      box.length = a.space.size ∧ (∀ x : ℕ → K, a.Points x → InBox box x) ∧
      (cfg.precision = .exact → ∀ box' : List Interval, (∀ x : ℕ → K, a.Has x → InBox box' x) →
        ∀ d < a.space.size, a.space.isInt d = false → (box.getD d .top).leq (box'.getD d .top)) := by
  refine ⟨fun r length => (boundDirection_total (W := fun _ => True) cfg regular nonempty filled
    length).yields, ?_⟩
  obtain ⟨box, report, run, entries⟩ :=
    (toBox_total (K := K) (W := fun _ => True) cfg regular nonempty filled).yields
  have length : box.length = a.space.size := by rw [← entries.length_eq, List.length_range]
  have entry : ∀ d < a.space.size, BoxEntry cfg a K d (box.getD d .top) := by
    intro d inside
    have each := (List.forall₂_iff_get.mp entries).2 d (by simpa using inside) (length ▸ inside)
    rw [List.getD_eq_getElem _ _ (length ▸ inside)]
    simpa using each
  refine ⟨box, report, run, length, fun x points d => ?_, fun exact box' within d inside real => ?_⟩
  · by_cases inside : d < a.space.size
    · exact (entry d inside).has x points
    · rw [List.getD_eq_default _ _ (by omega)]
      exact Interval.top_has
  · obtain ⟨f, hf⟩ : ∃ f, a.frame? = some f := by
      simpa [isBottom, Option.isSome_iff_exists] using nonempty
    -- A point is needed: over an empty value any box would be as small.
    obtain ⟨x, hx⟩ := (regular f hf).1.exists_has (K := K) (filled f hf)
    refine ((entry d inside).isRange exact real).leq ⟨x, (has_iff_of_frame hf).mpr hx, rfl⟩ ?_
    rintro _ ⟨y, hy, rfl⟩
    exact within y hy d

/-- Over the band, `x` goes from `-1` up without end: that is the range without rounding, and the first
side of the smallest box; the rounded range holds it. -/
theorem ranges_attained_band :
    bandSample.Shaped False ∧ bandSample.isBottom = false ∧ bandSample.Filled ∧
    (bandSample.boundDirection {} [1, 0]).Yields (fun I => I = ⟨.fin (-1), .posInf⟩ ∧
      I.IsRange (bandSample.Attains (K := ℚ) [1, 0])) ∧
    (bandSample.boundDirection { precision := .binary64 } [1, 0]).Yields (fun I =>
      ∃ J : Interval, J.IsRange (bandSample.Attains (K := ℚ) [1, 0]) ∧ J.leq I) ∧
    (bandSample.toBox {}).Yields fun box =>
      ∀ box' : List Interval, (∀ x : ℕ → ℚ, bandSample.Has x → InBox box' x) →
        (box.getD 0 .top).leq (box'.getD 0 .top) := by
  have regular : bandSample.Shaped False := bandSample_wellFormed.weaken
  have filled : bandSample.Filled := filled_mk (by decide)
  have exact := ranges_attained (K := ℚ) {} regular rfl filled
  have rounded := ranges_attained (K := ℚ) { precision := .binary64 } regular rfl filled
  refine ⟨regular, rfl, filled, ?_, ?_, ?_⟩
  · obtain ⟨I, report, run, J, range, -, same⟩ := exact.1 [1, 0] rfl
    obtain rfl := same rfl
    have value : (bandSample.boundDirection {} [1, 0]).start.1 = .ok ⟨.fin (-1), .posInf⟩ := by
      decide +kernel
    rw [run] at value
    exact ⟨I, report, run, Except.ok.inj value, range⟩
  · obtain ⟨I, report, run, J, range, within, -⟩ := rounded.1 [1, 0] rfl
    exact ⟨I, report, run, J, range, within⟩
  · obtain ⟨box, report, run, -, -, smallest⟩ := exact.2
    exact ⟨box, report, run, fun box' within => smallest rfl box' within 0 (by decide) rfl⟩

end Parallelotope

end SkewBox
