import SkewBox.Proofs.Iteration

/-!
# Iteration with thresholds

Widening with thresholds moves an end that is not stable to the next threshold behind the second
value, and to infinity behind the last one.  It gives up no more than widening does, and an end stops
at every threshold at most once, so a sequence of such steps still changes only finitely often.

* `Parallelotope.StopsAt`, `widenTo_stopsAt`: where the ends of a range stop.
* `Parallelotope.room`, `widenTo_eq_or_lt`: how often the ends of a range can still move.
* `Parallelotope.wideningThresholds_stabilizes`: a step, and the number of changes in a sequence.
-/

namespace SkewBox

variable {K : Type*} [Field K] [LinearOrder K] [IsStrictOrderedRing K]

namespace Parallelotope

/-! ## Ranges -/

section Ranges

variable {ts : List ℚ} {I J : Interval} {x : K}

theorem widenTo_has_left (h : I.Has x) : (widenTo ts I J).Has x :=
  ⟨h.1.anti (widenTo_lo_le ts I J), h.2.mono (le_widenTo_hi ts I J)⟩

theorem widenTo_has_right (h : J.Has x) : (widenTo ts I J).Has x := by
  have lower : (widenTo ts I J).lo ≤ J.lo := by
    simp only [widenTo]
    split
    · exact thresholdBelow_le ts J.lo
    · rename_i stable
      exact not_lt.mp stable
  have upper : J.hi ≤ (widenTo ts I J).hi := by
    simp only [widenTo]
    split
    · exact le_thresholdAbove ts J.hi
    · rename_i stable
      exact not_lt.mp stable
  exact ⟨h.1.anti lower, h.2.mono upper⟩

omit [IsStrictOrderedRing K] in
theorem widenTo_within (h : (widenTo ts I J).Has x) : (widenRange I J).Has x := by
  obtain ⟨lower, upper⟩ := h
  constructor
  · by_cases stable : I.lo ≤ J.lo
    · simpa [widenRange, widenTo, stable, not_lt.mpr stable] using lower
    · simp [widenRange, stable]
  · by_cases stable : J.hi ≤ I.hi
    · simpa [widenRange, widenTo, stable, not_lt.mpr stable] using upper
    · simp [widenRange, stable]

/-- The ends of `I` that `J` respects are kept in `L`, and the others are moved to the nearest stop that
`J` respects. -/
structure StopsAt (ts : List ℚ) (I J L : Interval) : Prop where
  lower_kept : I.lo ≤ J.lo → L.lo = I.lo
  upper_kept : J.hi ≤ I.hi → L.hi = I.hi
  lower : J.lo < I.lo → IsGreatest {c | c ∈ stopsBelow ts ∧ c ≤ J.lo} L.lo
  upper : I.hi < J.hi → IsLeast {c | c ∈ stopsAbove ts ∧ J.hi ≤ c} L.hi

theorem widenTo_stopsAt (ts : List ℚ) (I J : Interval) : StopsAt ts I J (widenTo ts I J) where
  lower_kept stable := if_neg (not_lt.mpr stable)
  upper_kept stable := if_neg (not_lt.mpr stable)
  lower unstable := by
    rw [widenTo, if_pos unstable]
    exact thresholdBelow_isGreatest ts J.lo
  upper unstable := by
    simp only [widenTo, if_pos unstable]
    exact thresholdAbove_isLeast ts J.hi

theorem card_filter_lt {α : Type} [LinearOrder α] {s : Finset α} {b c : α} (hc : c ∈ s) (lt : c < b) :
    (s.filter (· < c)).card < (s.filter (· < b)).card := by
  apply Finset.card_lt_card
  refine ⟨fun t ht => ?_, fun sub => ?_⟩
  · simp only [Finset.mem_filter] at ht ⊢
    exact ⟨ht.1, ht.2.trans lt⟩
  · have below := sub (Finset.mem_filter.mpr ⟨hc, lt⟩)
    simp at below

/-- The number of stops that the ends have not passed yet. -/
def room (ts : List ℚ) (I : Interval) : ℕ :=
  ((stopsBelow ts).filter (· < I.lo)).card + ((stopsAbove ts).filter (I.hi < ·)).card

theorem room_le (ts : List ℚ) (I : Interval) : room ts I ≤ 2 * (ts.toFinset.card + 1) := by
  have stops : ∀ b : Bound, (insert b (ts.toFinset.image Bound.fin)).card ≤ ts.toFinset.card + 1 :=
    fun b => (Finset.card_insert_le _ _).trans (Nat.succ_le_succ Finset.card_image_le)
  have lower := (Finset.card_filter_le (stopsBelow ts) (· < I.lo)).trans (stops _)
  have upper := (Finset.card_filter_le (stopsAbove ts) (I.hi < ·)).trans (stops _)
  rw [room]
  omega

theorem widenTo_eq_or_lt (ts : List ℚ) (I J : Interval) :
    widenTo ts I J = I ∨ room ts (widenTo ts I J) < room ts I := by
  have stops := widenTo_stopsAt ts I J
  have lower : (widenTo ts I J).lo = I.lo ∨
      ((stopsBelow ts).filter (· < (widenTo ts I J).lo)).card <
        ((stopsBelow ts).filter (· < I.lo)).card := by
    -- An end that moves goes to a stop that was ahead of the old end and is not ahead of the new one.
    by_cases stable : I.lo ≤ J.lo
    · exact .inl (stops.lower_kept stable)
    · obtain ⟨stop, below⟩ := (stops.lower (not_le.mp stable)).1
      exact .inr (card_filter_lt stop (below.trans_lt (not_le.mp stable)))
  have upper : (widenTo ts I J).hi = I.hi ∨
      ((stopsAbove ts).filter ((widenTo ts I J).hi < ·)).card <
        ((stopsAbove ts).filter (I.hi < ·)).card := by
    by_cases stable : J.hi ≤ I.hi
    · exact .inl (stops.upper_kept stable)
    · obtain ⟨stop, above⟩ := (stops.upper (not_le.mp stable)).1
      exact .inr (card_filter_lt (α := Boundᵒᵈ) stop ((not_le.mp stable).trans_le above))
  rcases lower with low | low <;> rcases upper with high | high
  · exact .inl (congrArg₂ Interval.mk low high)
  · exact .inr (by rw [room, room, low]; omega)
  · exact .inr (by rw [room, room, high]; omega)
  · exact .inr (by rw [room, room]; omega)

end Ranges

/-! ## One step -/

variable {a b c d : Parallelotope} {cfg : Settings} {step step' : Interval → Interval → Interval}

omit [IsStrictOrderedRing K] in
theorem Combines.has_mono (combines : Combines cfg step a b c) (combines' : Combines cfg step' a b d)
    (ha : a.Shaped False) (hb : b.Shaped False) (space : a.space = b.space)
    (within : ∀ (I J : Interval) (v : K), (step I J).Has v → (step' I J).Has v) {x : ℕ → K}
    (has : c.Has x) : d.Has x := by
  cases combines with
  | left empty =>
    cases combines' with
    | left _ => exact has
    | right empty' _ => exact absurd has (not_has_of_none empty' x)
    | both _ hg _ => simp [empty] at hg
  | right empty hg =>
    cases combines' with
    | left empty' => simp [hg] at empty'
    | right _ _ => exact has
    | both hf _ _ => simp [empty] at hf
  | both hf hg ranges =>
    cases combines' with
    | left empty => simp [hg] at empty
    | right empty _ => simp [hf] at empty
    | both hf' hg' ranges' =>
      obtain rfl := Option.some.inj (hf.symm.trans hf')
      obtain rfl := Option.some.inj (hg.symm.trans hg')
      obtain ⟨regular, -⟩ := ha _ hf
      have regular' := (hb _ hg).1
      rw [← space] at regular'
      rw [has_mk, (ranges.regular_zipWith regular _).has_iff_lt] at has
      rw [has_mk, (ranges'.regular_zipWith regular _).has_iff_lt]
      intro i hi
      have shape := regular.axes.shape
      -- Both results are over the rows of the same frame, so they compare the same ranges.
      have same := (ranges.boundDirection_eq shape regular' hi).symm.trans
        (ranges'.boundDirection_eq shape regular' hi)
      have row := has i hi
      rw [ranges.getD_zipWith regular _ hi, Except.ok.inj same] at row
      rw [ranges'.getD_zipWith regular _ hi]
      exact within _ _ _ row

variable {thresholds : List Datum} {bounds : List Bound}

theorem wideningThresholds_combines (cfg : Settings) (read : thresholds.mapM Bound.ofDatum = .ok bounds)
    (ha : a.WellFormed) (hb : b.WellFormed) (space : a.space = b.space) :
    Op.Meets (·.WellFormed) (·.WellFormed) False (a.wideningThresholds cfg b thresholds)
      (Combines cfg (widenTo (bounds.filterMap Bound.toRat?)) a b) := by
  have each := mapM_eq_ok.mp read
  have reads : Op.Meets (·.WellFormed) (·.WellFormed) False
      (thresholds.mapM fun t => (liftM (Bound.ofDatum t) : Op Bound))
      (List.Forall₂ (fun t b => Bound.ofDatum t = .ok b) thresholds) := by
    apply Op.meets_mapM
    intro t ht
    obtain ⟨b, -, readable⟩ := exists_of_mem_right each.flip ht
    exact Op.meets_lift_ok readable readable
  refine (Op.meets_lift_ok (P := fun _ => True) (if_pos space) trivial).bind fun _ _ => ?_
  refine reads.bind fun bounds' each' => ?_
  obtain rfl : bounds = bounds' := Except.ok.inj (read.symm.trans (mapM_eq_ok.mpr each'))
  exact combine_combines ha.weaken hb.weaken space (fun _ => id) fun c combines =>
    combines.shaped ha hb fun _ _ _ hI _ => widenTo_ordered _ hI

/-- Each range of the result stops where the range of its axis over the second value lets it. -/
theorem Combines.stopsAt {ts : List ℚ} (combines : Combines cfg (widenTo ts) a b c)
    (ha : a.Shaped False) (hb : b.Shaped False) (space : a.space = b.space) {f g : Frame}
    (hf : a.frame? = some f) (hg : b.frame? = some g) :
    ∃ h, c.frame? = some h ∧ h.axes = f.axes ∧ ∀ i < a.space.size, ∃ J,
      g.boundDirection cfg (f.axes.getD i []) = .ok J ∧
        StopsAt ts (f.ranges.getD i .top) J (h.ranges.getD i .top) := by
  cases combines with
  | left empty => simp [hg] at empty
  | right empty _ => simp [hf] at empty
  | both hf' hg' ranges =>
    obtain rfl := Option.some.inj (hf.symm.trans hf')
    obtain rfl := Option.some.inj (hg.symm.trans hg')
    obtain ⟨regular, -⟩ := ha f hf
    have regular' := (hb g hg).1
    rw [← space] at regular'
    refine ⟨_, rfl, rfl, fun i hi => ⟨_, ranges.boundDirection_eq regular.axes.shape regular' hi, ?_⟩⟩
    rw [ranges.getD_zipWith regular _ hi]
    exact widenTo_stopsAt ts _ _

/-! ## Sequences of steps -/

/-- The number of stops that the ends of all ranges have not passed yet. -/
def stopsAhead (ts : List ℚ) (a : Parallelotope) : ℕ := a.reserve (room ts) (2 * (ts.toFinset.card + 1))

theorem stopsAhead_le (ts : List ℚ) (ha : a.WellFormed) :
    a.stopsAhead ts ≤ 2 * a.space.size * (ts.toFinset.card + 1) + 1 := by
  calc a.stopsAhead ts ≤ 2 * (ts.toFinset.card + 1) * a.space.size + 1 :=
        reserve_le (room_le ts) ha.weaken
    _ = 2 * a.space.size * (ts.toFinset.card + 1) + 1 := by ring

theorem exists_thresholdWidenings (cfg : Settings) (read : thresholds.mapM Bound.ofDatum = .ok bounds)
    (ha : a.WellFormed) {s : ℕ → Parallelotope} (hs : ∀ k, (s k).WellFormed ∧ (s k).space = a.space) :
    ∃ w : ℕ → Parallelotope, w 0 = a ∧ ∀ k,
      (∃ report, ((w k).wideningThresholds cfg (s k) thresholds).start = (.ok (w (k + 1)), report)) ∧
      (w (k + 1)).space = (w k).space ∧
      ((w (k + 1)).content = (w k).content ∨
        (w (k + 1)).stopsAhead (bounds.filterMap Bound.toRat?) <
          (w k).stopsAhead (bounds.filterMap Bound.toRat?)) := by
  obtain ⟨w, first, runs⟩ := exists_iterates (fun w b => w.wideningThresholds cfg b thresholds)
    (fun w => w.WellFormed ∧ w.space = a.space) (fun w b c => w.space = b.space ∧ b.WellFormed ∧
      Combines cfg (widenTo (bounds.filterMap Bound.toRat?)) w b c)
    (fun k _ => s k) ⟨ha, rfl⟩ fun k w hw => by
      have space : w.space = (s k).space := hw.2.trans (hs k).2.symm
      obtain ⟨c, report, run, combines⟩ :=
        (wideningThresholds_combines cfg read hw.1 (hs k).1 space).yields
      have wellFormed : c.WellFormed :=
        combines.shaped hw.1 (hs k).1 fun _ _ _ hI _ => widenTo_ordered _ hI
      exact ⟨c, report, run, ⟨wellFormed, (combines.space_eq space).trans hw.2⟩, space, (hs k).1, combines⟩
  refine ⟨w, first, fun k => ?_⟩
  obtain ⟨⟨hw, -⟩, run, space, hs, combines⟩ := runs k
  exact ⟨run, combines.space_eq space,
    combines.descends hw.weaken hs.weaken space (room_le _) (widenTo_eq_or_lt _)⟩

/-- A well-formed value can be widened by any other of its space, with any thresholds.  The result has
the points of both and lies in the result of widening.  Its rows are those of the first value: an end
that the second value respects is kept, and any other goes to the next threshold, or to infinity if
there is none.  In a sequence of such steps with `m` different thresholds that are finite, at most
`2 n (m + 1) + 1` steps change the value. -/
theorem wideningThresholds_stabilizes (cfg : Settings) {thresholds : List Datum} {bounds : List Bound}
    (read : thresholds.mapM Bound.ofDatum = .ok bounds) {a : Parallelotope} (ha : a.WellFormed) :
    let ts := bounds.filterMap Bound.toRat?
    (∀ b : Parallelotope, b.WellFormed → b.space = a.space →
      (a.wideningThresholds cfg b thresholds).Yields fun c =>
        (∀ x : ℕ → K, a.Has x ∨ b.Has x → c.Has x) ∧
        (a.widening cfg b).Yields (fun d => ∀ x : ℕ → K, c.Has x → d.Has x) ∧
        (b.frame? = none → c.content = a.content) ∧
        ∀ f g, a.frame? = some f → b.frame? = some g →
          ∃ h, c.frame? = some h ∧ h.axes = f.axes ∧ ∀ i < a.space.size, ∃ J,
            g.boundDirection cfg (f.axes.getD i []) = .ok J ∧
              StopsAt ts (f.ranges.getD i .top) J (h.ranges.getD i .top)) ∧
    ∀ s : ℕ → Parallelotope, (∀ k, (s k).WellFormed ∧ (s k).space = a.space) →
      ∃ w : ℕ → Parallelotope, w 0 = a ∧ ∀ k,
        (∃ report, ((w k).wideningThresholds cfg (s k) thresholds).start = (.ok (w (k + 1)), report)) ∧
        ((Finset.range k).filter fun i => (w (i + 1)).content ≠ (w i).content).card ≤
          2 * a.space.size * (ts.toFinset.card + 1) + 1 := by
  intro ts
  constructor
  · intro b hb space
    obtain ⟨c, report, run, combines⟩ := (wideningThresholds_combines cfg read ha hb space.symm).yields
    obtain ⟨d, report', run', combines'⟩ := (widening_combines cfg ha hb space.symm).yields
    refine ⟨c, report, run, fun x has => ?_, ⟨d, report', run', fun x has => ?_⟩, fun empty => ?_, ?_⟩
    · exact combines.has ha.weaken (fun _ _ _ => widenTo_has_left) (fun _ _ _ => widenTo_has_right) has
    · exact combines.has_mono combines' ha.weaken hb.weaken space.symm (fun _ _ _ => widenTo_within) has
    · cases combines with
      | left _ => rfl
      | right _ hg => simp [empty] at hg
      | both _ hg _ => simp [empty] at hg
    · intro f g hf hg
      exact combines.stopsAt ha.weaken hb.weaken space.symm hf hg
  · intro s hs
    obtain ⟨w, first, runs⟩ := exists_thresholdWidenings cfg read ha hs
    refine ⟨w, first, fun k => ⟨(runs k).1, ?_⟩⟩
    -- Each change passes a stop, and there are only so many of them.
    have changes := changes_add_le (stopsAhead ts) (fun k same => (reserve_congr (runs k).2.1 same).le)
      (fun k changed => (runs k).2.2.resolve_left changed) k
    have bound := stopsAhead_le ts ha
    rw [first] at changes
    omega

/-- Thresholds out of order, one of them twice and one of them infinite. -/
def thresholdsSample : List Datum := [.int 10, .ratio (3 / 2), .float 0x7FF0000000000000, .int 10]

/-- Widening the slanted sample with these thresholds by the crossing one, in turn with an empty value. -/
theorem wideningThresholds_stabilizes_sample :
    thresholdsSample.mapM Bound.ofDatum = .ok [.fin 10, .fin (3 / 2), .posInf, .fin 10] ∧
    slantedSample.WellFormed ∧ crossingSample.WellFormed ∧
    (slantedSample.wideningThresholds {} crossingSample thresholdsSample).Yields (fun c =>
      ∀ x : ℕ → ℚ, slantedSample.Has x ∨ crossingSample.Has x → c.Has x) ∧
    ∃ w : ℕ → Parallelotope, w 0 = slantedSample ∧ ∀ k,
      (∃ report, ((w k).wideningThresholds {} (if k % 2 = 0 then crossingSample else bottom ⟨1, 1⟩)
        thresholdsSample).start = (.ok (w (k + 1)), report)) ∧
      ((Finset.range k).filter fun i => (w (i + 1)).content ≠ (w i).content).card ≤ 13 := by
  have read : thresholdsSample.mapM Bound.ofDatum = .ok [.fin 10, .fin (3 / 2), .posInf, .fin 10] := rfl
  obtain ⟨steps, sequences⟩ := wideningThresholds_stabilizes (K := ℚ) {} read slantedSample_wellFormed
  have bound : 2 * slantedSample.space.size * (([.fin 10, .fin (3 / 2), .posInf, .fin 10].filterMap
      Bound.toRat?).toFinset.card + 1) + 1 = 13 := by decide +kernel
  rw [bound] at sequences
  refine ⟨read, slantedSample_wellFormed, crossingSample_wellFormed, ?_, sequences _ fun k => ?_⟩
  · obtain ⟨c, report, run, both, -⟩ := steps crossingSample crossingSample_wellFormed rfl
    exact ⟨c, report, run, both⟩
  · split
    · exact ⟨crossingSample_wellFormed, rfl⟩
    · exact ⟨shaped_bottom _, rfl⟩

end Parallelotope

end SkewBox
