import SkewBox.Proofs.Iteration
import SkewBox.Proofs.MergedDirections
import SkewBox.Proofs.Normalization

/-!
# Intersection over shared axes

Values with the same axes are intersected range by range and normalised once.  For other axes the rows of
the second value are met one after the other, and the first is normalised after each of them.  The shorter
way changes nothing for a value in normal form: a row has itself as its only coordinate, so it meets its own
range alone, and rounding the ranges that have been rounded before keeps them.

* `Frame.IsNormal`, `Frame.Regular.normalize_setRange`: normal forms, and one new range in them.
* `Frame.meetRanges`, `Frame.joint`: all ranges at once, and what both frames leave of one.
* `Frame.Partway`, `Frame.Partway.step`: the frame after some of the rows, and one row more.
* `Parallelotope.shared_axes_agree`: the two ways compared.
-/

namespace SkewBox

theorem Vec.support_unit {n k : ℕ} (inside : k < n) : (unit n k).support = [k] := by
  have mem : ∀ i, i ∈ (unit n k).support ↔ i = k := by
    intro i
    rw [mem_support, length_unit]
    constructor
    · rintro ⟨hi, nonzero⟩
      rw [getD_unit hi] at nonzero
      by_contra other
      exact nonzero (if_neg (Ne.symm other))
    · rintro rfl
      exact ⟨inside, by rw [getD_unit inside, if_pos rfl]; exact one_ne_zero⟩
  have distinct : (unit n k).support.Nodup := by
    apply List.Nodup.sublist (List.filter_sublist.map _)
    rw [List.zipIdx_map_snd]
    exact List.nodup_range'
  exact List.perm_singleton.mp
    ((List.perm_ext_iff_of_nodup distinct (List.nodup_singleton k)).mpr (by simpa using mem))

namespace Interval

variable {I J : Interval}

theorem held_exact (I : Interval) : I.Held .exact := by
  obtain ⟨lo, hi⟩ := I
  constructor
  · cases lo <;> simp [Precision.Holds]
  · cases hi <;> simp [Precision.Holds]

theorem eq_top_of_isTop (free : I.isTop) : I = .top := by
  obtain ⟨lo, hi⟩ := I
  simpa [isTop, top] using free

theorem isBottom_meet (empty : J.isBottom) : (I.meet J).isBottom := by
  simp only [isBottom, decide_eq_true_eq] at empty
  have crossed : min I.hi J.hi < max I.lo J.lo :=
    (min_le_right _ _).trans_lt (empty.trans_le (le_max_right _ _))
  simp only [meet, if_pos crossed]
  decide

end Interval

namespace Frame

variable {cfg : Settings} {s : Space} {f g h : Frame} {n k : ℕ}

/-! ## Normal forms -/

/-- Every range is as it is after rounding, and none is empty. -/
def IsNormal (cfg : Settings) (s : Space) (f : Frame) : Prop :=
  ∀ i < s.size, tighten cfg s (f.axes.getD i []) (f.ranges.getD i .top) = f.ranges.getD i .top ∧
    (f.ranges.getD i .top).isBottom = false

theorem Regular.isNormal (regular : f.Regular s.size) (normal : f.normalize cfg s = ⟨f, false⟩) :
    f.IsNormal cfg s := by
  have nonempty : (f.normalize cfg s).empty = false := by rw [normal]
  intro i hi
  have range := regular.getD_normalize nonempty hi
  rw [normal] at range
  refine ⟨range.symm, ?_⟩
  by_contra bottom
  have empty := regular.normalize_empty.mpr ⟨i, hi, by rw [← range]; simpa using bottom⟩
  rw [nonempty] at empty
  cases empty

theorem tighten_of_isBottom {row : Vec} {I : Interval} (empty : I.isBottom) : tighten cfg s row I = I :=
  if_neg (by simp [empty])

theorem IsNormal.tighten_meet_top (normal : f.IsNormal cfg s) (hk : k < s.size) :
    tighten cfg s (f.axes.getD k []) ((f.ranges.getD k .top).meet .top) = f.ranges.getD k .top := by
  rw [Interval.meet_top (Interval.isBottom_eq_false_iff.mp (normal k hk).2), (normal k hk).1]

/-- The cut has `J` for the range of row `k` and is otherwise the frame; it is empty if `J` is. -/
structure Replaces (f : Frame) (n k : ℕ) (J : Interval) (c : Cut) : Prop where
  empty : c.empty = J.isBottom
  regular : c.empty = false → c.frame.Regular n
  axes : c.empty = false → c.frame.axes = f.axes
  ranges : c.empty = false → c.frame.ranges = f.ranges.set k J

/-- A new range in a normal form is the only one that rounding changes or finds empty. -/
theorem Regular.normalize_setRange (regular : f.Regular s.size) (normal : f.IsNormal cfg s)
    (hk : k < s.size) (I : Interval) :
    f.Replaces s.size k (tighten cfg s (f.axes.getD k []) I) ((f.setRange k I).normalize cfg s) := by
  have inside : k < f.ranges.length := regular.ranges.symm ▸ hk
  have regular' : (f.setRange k I).Regular s.size := regular.setRanges _ (by simp [regular.ranges])
  -- Only row `k` has a new range; the others were rounded before and stay as they are.
  have rounded : ∀ i < s.size, tighten cfg s ((f.setRange k I).axes.getD i [])
      ((f.setRange k I).ranges.getD i .top) =
        if i = k then tighten cfg s (f.axes.getD k []) I else f.ranges.getD i .top := by
    intro i hi
    simp only [setRange, getD_set inside]
    by_cases same : i = k
    · rw [if_pos same, if_pos same, same]
    · rw [if_neg same, if_neg same, (normal i hi).1]
  refine ⟨?_, fun nonempty => (regular'.normalize False nonempty).1, fun _ => rfl, fun nonempty => ?_⟩
  · rw [Bool.eq_iff_iff, regular'.normalize_empty]
    constructor
    · -- A range that is empty after rounding can only be the new one.
      rintro ⟨i, hi, bottom⟩
      rw [rounded i hi] at bottom
      split at bottom
      · exact bottom
      · rw [(normal i hi).2] at bottom
        cases bottom
    · intro bottom
      exact ⟨k, hk, by rwa [rounded k hk, if_pos rfl]⟩
  · apply eq_of_getD (d := .top) (regular'.normalize False nonempty).1.ranges (by simp [regular.ranges])
    intro i hi
    rw [regular'.getD_normalize nonempty hi, rounded i hi, getD_set inside]

/-! ## All ranges at once -/

/-- The frame with every range intersected with the other frame's. -/
def meetRanges (f g : Frame) : Frame :=
  { f with ranges := List.zipWith Interval.meet f.ranges g.ranges }

theorem Regular.meetRanges (regular : f.Regular n) (hg : g.Regular n) : (f.meetRanges g).Regular n :=
  regular.setRanges _ (by simp [regular.ranges, hg.ranges])

/-- What both frames leave of a range, after rounding. -/
def joint (cfg : Settings) (s : Space) (f g : Frame) (i : ℕ) : Interval :=
  tighten cfg s (f.axes.getD i []) ((f.ranges.getD i .top).meet (g.ranges.getD i .top))

theorem Regular.tighten_meetRanges (regular : f.Regular s.size) (hg : g.Regular s.size) (i : ℕ) :
    tighten cfg s ((f.meetRanges g).axes.getD i []) ((f.meetRanges g).ranges.getD i .top) =
      joint cfg s f g i :=
  congrArg (tighten cfg s _) (regular.getD_zipWith_meet hg i)

theorem Regular.meetRanges_empty (regular : f.Regular s.size) (hg : g.Regular s.size) :
    ((f.meetRanges g).normalize cfg s).empty ↔ ∃ i < s.size, (joint cfg s f g i).isBottom := by
  rw [(regular.meetRanges hg).normalize_empty]
  simp only [regular.tighten_meetRanges hg]

theorem Regular.getD_meetRanges (regular : f.Regular s.size) (hg : g.Regular s.size)
    (nonempty : ((f.meetRanges g).normalize cfg s).empty = false) {i : ℕ} (hi : i < s.size) :
    ((f.meetRanges g).normalize cfg s).frame.ranges.getD i .top = joint cfg s f g i := by
  rw [(regular.meetRanges hg).getD_normalize nonempty hi, regular.tighten_meetRanges hg]

/-! ## One row after the other -/

theorem Regular.meetCoords_unit (exact : cfg.precision = .exact) (regular : f.Regular s.size)
    (hk : k < s.size) (r : Vec) (I : Interval) :
    f.meetCoords cfg s r (Vec.unit s.size k) I =
      pure ((f.setRange k ((f.ranges.getD k .top).meet I)).normalize cfg s) := by
  have inside : ¬ f.ranges.length ≤ k := by
    rw [regular.ranges]
    omega
  have weight : (Vec.unit s.size k).getD k 0 = 1 := by rw [Vec.getD_unit hk, if_pos rfl]
  simp only [meetCoords, Vec.support_unit hk, weight, exact, one_div_one, (Interval.held_exact I).scale_one]
  simp [inside]

theorem Regular.meetDirection_row (exact : cfg.precision = .exact) (regular : f.Regular s.size)
    (normal : f.IsNormal cfg s) (hk : k < s.size) (I : Interval) :
    Op.Meets (fun _ => True) (fun _ => True) False (f.meetDirection cfg s (f.axes.getD k []) I)
      (f.Replaces s.size k (tighten cfg s (f.axes.getD k []) ((f.ranges.getD k .top).meet I))) := by
  unfold meetDirection
  split
  · rename_i empty
    have bottom := Interval.isBottom_meet (I := f.ranges.getD k .top) empty
    rw [tighten_of_isBottom bottom]
    refine Op.meets_pure ⟨bottom.symm, ?_, ?_, ?_⟩ <;> exact fun filled => absurd filled (by simp)
  · split
    · rename_i free
      rw [Interval.eq_top_of_isTop free, normal.tighten_meet_top hk]
      refine Op.meets_pure ⟨(normal k hk).2.symm, fun _ => regular, fun _ => rfl, fun _ => ?_⟩
      have inside : k < f.ranges.length := regular.ranges.symm ▸ hk
      rw [List.getD_eq_getElem _ _ inside]
      exact (List.set_getElem_self inside).symm
    · split
      · rename_i zero
        -- A row of independent axes takes the value one somewhere.
        obtain ⟨x, image⟩ := regular.exists_image fun _ => (1 : ℚ)
        exact absurd ((Vec.eval_of_isZero zero x).symm.trans (image k hk)) zero_ne_one
      · obtain ⟨w, remembered, inverse⟩ := regular.exists_remember
        have regular' : Regular { f with inverse? := some w } s.size :=
          ⟨regular.axes, regular.ranges, fun v hv => Option.some.inj hv ▸ inverse⟩
        refine (Op.meets_lift_ok remembered rfl).bind fun _ known => ?_
        subst known
        refine (Op.write_meets trivial).bind fun _ _ => ?_
        refine (Op.meets_lift_ok (regular'.coords_row hk) rfl).bind fun _ unit => ?_
        subst unit
        rw [regular'.meetCoords_unit exact hk]
        have replaces := regular'.normalize_setRange normal hk ((f.ranges.getD k .top).meet I)
        exact Op.meets_pure ⟨replaces.empty, replaces.regular, replaces.axes, replaces.ranges⟩

/-- A frame in normal form and another one with the same axes, where nothing is rounded. -/
structure Shared (cfg : Settings) (s : Space) (f g : Frame) : Prop where
  exact : cfg.precision = .exact
  first : f.Regular s.size
  second : g.Regular s.size
  axes : f.axes = g.axes
  normal : f.IsNormal cfg s

/-- The frame after its first `k` rows have been met: each of these ranges is what both frames leave, which
is not empty, and the others are as they were. -/
structure Partway (cfg : Settings) (s : Space) (f g : Frame) (k : ℕ) (h : Frame) : Prop where
  regular : h.Regular s.size
  axes : h.axes = f.axes
  met : ∀ i < k, h.ranges.getD i .top = joint cfg s f g i ∧ (joint cfg s f g i).isBottom = false
  rest : ∀ i, k ≤ i → h.ranges.getD i .top = f.ranges.getD i .top

theorem Regular.partway (regular : f.Regular s.size) : Partway cfg s f g 0 f :=
  ⟨regular, rfl, by simp, fun _ _ => rfl⟩

theorem Partway.isNormal (partway : Partway cfg s f g k h) (normal : f.IsNormal cfg s) :
    h.IsNormal cfg s := by
  intro i hi
  rw [partway.axes]
  by_cases earlier : i < k
  · obtain ⟨range, filled⟩ := partway.met i earlier
    rw [range]
    exact ⟨tighten_tighten _ _, filled⟩
  · rw [partway.rest i (not_lt.mp earlier)]
    exact normal i hi

theorem Partway.next (partway : Partway cfg s f g k h) (hk : k < s.size) {c : Cut}
    (replaces : h.Replaces s.size k (joint cfg s f g k) c) (nonempty : c.empty = false) :
    Partway cfg s f g (k + 1) c.frame := by
  have inside : k < h.ranges.length := partway.regular.ranges.symm ▸ hk
  refine ⟨replaces.regular nonempty, (replaces.axes nonempty).trans partway.axes, fun i hi => ?_,
    fun i hi => ?_⟩
  · rw [replaces.ranges nonempty, getD_set inside]
    by_cases same : i = k
    · rw [if_pos same, same]
      exact ⟨rfl, replaces.empty.symm.trans nonempty⟩
    · rw [if_neg same]
      exact partway.met i (by omega)
  · rw [replaces.ranges nonempty, getD_set inside, if_neg (by omega)]
    exact partway.rest i (by omega)

theorem Partway.skip (partway : Partway cfg s f g k h) (normal : f.IsNormal cfg s) (hk : k < s.size)
    (free : (g.ranges.getD k .top).isTop) : Partway cfg s f g (k + 1) h := by
  have range : joint cfg s f g k = f.ranges.getD k .top := by
    rw [joint, Interval.eq_top_of_isTop free, normal.tighten_meet_top hk]
  refine ⟨partway.regular, partway.axes, fun i hi => ?_, fun i hi => partway.rest i (by omega)⟩
  by_cases same : i = k
  · rw [same, range, partway.rest k le_rfl]
    exact ⟨rfl, (normal k hk).2⟩
  · exact partway.met i (by omega)

/-- One more row: nothing is left of its range, or it joins the ranges that have been met. -/
theorem Partway.step (shared : Shared cfg s f g) (partway : Partway cfg s f g k h) (hk : k < s.size) :
    Op.Meets (fun _ => True) (fun _ => True) False
      (h.meetDirection cfg s (g.axes.getD k []) (g.ranges.getD k .top)) fun c =>
        c.empty = true ∧ (joint cfg s f g k).isBottom ∨
          c.empty = false ∧ Partway cfg s f g (k + 1) c.frame := by
  have row := partway.regular.meetDirection_row shared.exact (partway.isNormal shared.normal) hk
    (g.ranges.getD k .top)
  rw [partway.axes, partway.rest k le_rfl, ← joint, shared.axes] at row
  refine row.imp fun c replaces => ?_
  cases emptied : c.empty with
  | true => exact .inl ⟨rfl, replaces.empty ▸ emptied⟩
  | false => exact .inr ⟨rfl, partway.next hk replaces emptied⟩

theorem Shared.content_of_bottom (shared : Shared cfg s f g) (hk : k < s.size)
    (bottom : (joint cfg s f g k).isBottom) :
    (Parallelotope.normalize cfg ⟨s, some (f.meetRanges g)⟩).content = none := by
  have empty := (shared.first.meetRanges_empty shared.second).mpr ⟨k, hk, bottom⟩
  simp [Parallelotope.content, Parallelotope.normalize, Cut.toParallelotope, empty]

theorem Partway.content_eq (shared : Shared cfg s f g) (partway : Partway cfg s f g k h) (all : s.size ≤ k) :
    (⟨s, some h⟩ : Parallelotope).content =
      (Parallelotope.normalize cfg ⟨s, some (f.meetRanges g)⟩).content := by
  have nonempty : ((f.meetRanges g).normalize cfg s).empty = false := by
    by_contra empty
    obtain ⟨i, hi, bottom⟩ := (shared.first.meetRanges_empty shared.second).mp (by simpa using empty)
    rw [(partway.met i (hi.trans_le all)).2] at bottom
    cases bottom
  have ranges : h.ranges = ((f.meetRanges g).normalize cfg s).frame.ranges := by
    apply eq_of_getD (d := .top) partway.regular.ranges
      ((shared.first.meetRanges shared.second).normalize False nonempty).1.ranges
    intro i hi
    rw [(partway.met i (hi.trans_le all)).1, shared.first.getD_meetRanges shared.second nonempty hi]
  have axes : ((f.meetRanges g).normalize cfg s).frame.axes = f.axes := rfl
  simp [Parallelotope.content, Parallelotope.normalize, Cut.toParallelotope, nonempty, ranges, axes,
    partway.axes]

theorem Regular.size_le_of_drop (regular : g.Regular n) (none : g.rows.drop k = []) : n ≤ k := by
  simpa [rows, regular.axes.shape.length, regular.ranges] using List.drop_eq_nil_iff.mp none

theorem Regular.eq_of_drop (regular : g.Regular n) {d : Direction} {rest : List Direction}
    (split : g.rows.drop k = d :: rest) :
    k < n ∧ d = (g.axes.getD k [], g.ranges.getD k .top) ∧ rest = g.rows.drop (k + 1) := by
  have length : g.rows.length = n := by simp [rows, regular.axes.shape.length, regular.ranges]
  have hk : k < g.rows.length := by
    by_contra beyond
    simp [List.drop_eq_nil_of_le (not_lt.mp beyond)] at split
  rw [List.drop_eq_getElem_cons hk, List.cons.injEq] at split
  obtain ⟨row, rfl⟩ := split
  refine ⟨length ▸ hk, ?_, rfl⟩
  rw [← row, List.getD_eq_getElem _ _ (regular.axes.shape.length.symm ▸ length ▸ hk),
    List.getD_eq_getElem _ _ (regular.ranges.symm ▸ length ▸ hk)]
  exact List.getElem_zip ..

theorem Partway.meetAll (shared : Shared cfg s f g) (partway : Partway cfg s f g k h) :
    Op.Meets (fun _ => True) (fun _ => True) False (meetAll cfg s (g.rows.drop k) h) fun c =>
      (c.toParallelotope s).content =
        (Parallelotope.normalize cfg ⟨s, some (f.meetRanges g)⟩).content := by
  induction left : g.rows.drop k generalizing k h with
  | nil => exact Op.meets_pure (partway.content_eq shared (shared.second.size_le_of_drop left))
  | cons d rest ih =>
    obtain ⟨hk, rfl, rfl⟩ := shared.second.eq_of_drop left
    rw [Frame.meetAll]
    refine (partway.step shared hk).bind ?_
    rintro ⟨h', empty⟩ met
    refine (Op.write_meets trivial).bind fun _ _ => ?_
    rcases met with ⟨rfl, bottom⟩ | ⟨rfl, partway'⟩
    · exact Op.meets_pure (shared.content_of_bottom hk bottom).symm
    · exact ih partway' rfl

end Frame

namespace Parallelotope

variable {cfg : Settings} {s : Space} {f g h : Frame} {k : ℕ} {a b : Parallelotope}

/-- Intersects with the directions in turn. -/
def meetInTurn (cfg : Settings) (a : Parallelotope) (dirs : List Direction) : Op Parallelotope :=
  dirs.foldlM (fun c d => c.meetDirection cfg d.1 d.2) a

theorem meetInTurn_of_none (none : a.frame? = none) (dirs : List Direction) :
    meetInTurn cfg a dirs = pure a := by
  induction dirs with
  | nil => rfl
  | cons d dirs ih =>
    have step : a.meetDirection cfg d.1 d.2 = pure a := by simp [meetDirection, none]
    rw [meetInTurn, List.foldlM_cons, step, pure_bind]
    exact ih

theorem meetInTurn_cons (s : Space) (f : Frame) (d : Direction) (dirs : List Direction) :
    meetInTurn cfg ⟨s, some f⟩ (d :: dirs) =
      f.meetDirection cfg s d.1 d.2 >>= fun c => Op.put s c >>= fun b => meetInTurn cfg b dirs := by
  have step : meetDirection cfg ⟨s, some f⟩ d.1 d.2 = f.meetDirection cfg s d.1 d.2 >>= Op.put s := rfl
  rw [meetInTurn, List.foldlM_cons, step, bind_assoc]
  rfl

theorem meetInTurn_of_partway (shared : Frame.Shared cfg s f g) (partway : Frame.Partway cfg s f g k h) :
    Op.Meets (fun _ => True) (fun _ => True) False
      (meetInTurn cfg ⟨s, some h⟩ ((g.rows.drop k).filter fun d => !d.2.isTop)) fun c => c.space = s ∧
        c.content = (normalize cfg ⟨s, some (f.meetRanges g)⟩).content := by
  induction left : g.rows.drop k generalizing k h with
  | nil =>
    exact Op.meets_pure ⟨rfl, partway.content_eq shared (shared.second.size_le_of_drop left)⟩
  | cons d rest ih =>
    obtain ⟨hk, rfl, rfl⟩ := shared.second.eq_of_drop left
    by_cases free : (g.ranges.getD k .top).isTop
    · rw [List.filter_cons_of_neg (by simpa using free)]
      exact ih (partway.skip shared.normal hk free) rfl
    · rw [List.filter_cons_of_pos (by simpa using free), meetInTurn_cons]
      refine (partway.step shared hk).bind ?_
      rintro ⟨h', empty⟩ met
      refine (Op.put_meets (P := (· = Cut.toParallelotope s ⟨h', empty⟩)) trivial rfl).bind ?_
      rintro _ rfl
      rcases met with ⟨rfl, bottom⟩ | ⟨rfl, partway'⟩
      · rw [shared.content_of_bottom hk bottom, meetInTurn_of_none rfl]
        exact Op.meets_pure ⟨rfl, rfl⟩
      · exact ih partway' rfl

theorem meet_of_shared_axes (s : Space) (same : f.axes = g.axes) :
    Op.Meets (fun _ => True) (fun _ => True) False (meet cfg ⟨s, some f⟩ ⟨s, some g⟩)
      (· = normalize cfg ⟨s, some (f.meetRanges g)⟩) := by
  unfold meet
  refine (Op.meets_lift_ok (P := fun _ => True) (if_pos rfl) trivial).bind fun _ _ => ?_
  have shortcut : Op.Meets (fun _ => True) (fun _ => True) False (f.meet cfg s g)
      (· = (f.meetRanges g).normalize cfg s) := by
    rw [Frame.meet, if_pos same]
    refine (Op.refit_meets (P := fun _ => True) trivial trivial).bind fun _ _ => ?_
    exact Op.meets_pure rfl
  refine shortcut.bind ?_
  rintro _ rfl
  exact Op.put_meets trivial rfl

/-- Let two values in one space have the same axes, and let the first be in normal form.  Without rounding
their intersection has every range met with the other value's, and is normalised once.  Meeting the
restricted rows of the second value one after the other, and normalising after each, leaves the same, as
does the walk along all rows that other axes would need: the empty set, or the same axes and ranges. -/
theorem shared_axes_agree (exact : cfg.precision = .exact) (ha : a.Shaped False) (hb : b.Shaped False)
    (space : a.space = b.space) (hf : a.frame? = some f) (hg : b.frame? = some g) (same : f.axes = g.axes)
    (normal : a.normalize cfg = a) :
    (a.meet cfg b).Yields fun c =>
      c = normalize cfg ⟨a.space, some { f with ranges := List.zipWith Interval.meet f.ranges g.ranges }⟩ ∧
      (a.meetInTurn cfg (g.rows.filter fun d => !d.2.isTop)).Yields (fun c' =>
        c'.space = c.space ∧ c'.content = c.content) ∧
      (f.meetAll cfg a.space g.rows >>= Op.put a.space).Yields fun c' =>
        c'.space = c.space ∧ c'.content = c.content := by
  obtain ⟨s, frame⟩ := a
  obtain ⟨s', frame'⟩ := b
  obtain rfl : s = s' := space
  obtain rfl : frame = some f := hf
  obtain rfl : frame' = some g := hg
  have regular := (ha f rfl).1
  -- A normal value is its own cut, which has not been emptied.
  have isNormal : f.IsNormal cfg s := by
    apply regular.isNormal
    obtain ⟨nonempty, kept⟩ := Cut.eq_of_toParallelotope (congrArg frame? normal)
    exact congrArg₂ Cut.mk kept nonempty
  have shared : Frame.Shared cfg s f g := ⟨exact, regular, (hb g rfl).1, same, isNormal⟩
  obtain ⟨c, report, run, rfl⟩ := (meet_of_shared_axes s same).yields
  refine ⟨_, report, run, rfl, ?_, ?_⟩
  · exact (meetInTurn_of_partway shared regular.partway).yields
  · refine Op.Meets.yields ((regular.partway.meetAll shared).bind fun c content => ?_)
    exact Op.put_meets trivial ⟨rfl, content⟩

/-- The points with `0 ≤ 2 x` and `x + y / 2 ≤ 5`. -/
def cornerSample : Parallelotope :=
  ⟨⟨1, 1⟩, some ⟨[[2, 0], [1, 1 / 2]], [⟨.fin 0, .posInf⟩, ⟨.negInf, .fin 5⟩], none⟩⟩

/-- The points with `3/2 ≤ 2 x ≤ 5/3`, of which none has an integer `x`. -/
def slitSample : Parallelotope :=
  ⟨⟨1, 1⟩, some ⟨[[2, 0], [1, 1 / 2]], [⟨.fin (3 / 2), .fin (5 / 3)⟩, .top], none⟩⟩

theorem cornerSample_wellFormed : cornerSample.WellFormed := by
  apply shaped_mk (Frame.regular_of_invert? ⟨rfl, by decide⟩ rfl _)
  · decide +kernel
  · decide +kernel

theorem slitSample_wellFormed : slitSample.WellFormed := by
  apply shaped_mk (Frame.regular_of_invert? ⟨rfl, by decide⟩ rfl _)
  · decide +kernel
  · decide +kernel

/-- Two rows that restrict the corner, and one of two that leaves nothing of it. -/
theorem shared_axes_agree_corner :
    cornerSample.WellFormed ∧ latticeSample.WellFormed ∧ slitSample.WellFormed ∧
    cornerSample.normalize {} = cornerSample ∧
    (cornerSample.meet {} latticeSample).Yields (fun c => c.content =
      some ([[2, 0], [1, 1 / 2]], [⟨.fin 1, .fin 4⟩, ⟨.fin (1 / 2), .fin 5⟩])) ∧
    (cornerSample.meetInTurn {} [([2, 0], ⟨.fin (1 / 2), .fin (9 / 2)⟩),
      ([1, 1 / 2], ⟨.fin (1 / 2), .posInf⟩)]).Yields (fun c => c.content =
        some ([[2, 0], [1, 1 / 2]], [⟨.fin 1, .fin 4⟩, ⟨.fin (1 / 2), .fin 5⟩])) ∧
    (cornerSample.meet {} slitSample).Yields (fun c => c.content = none) ∧
    (cornerSample.meetInTurn {} [([2, 0], ⟨.fin (3 / 2), .fin (5 / 3)⟩)]).Yields
      (fun c => c.content = none) := by
  have corner := cornerSample_wellFormed
  have lattice := latticeSample_wellFormed
  have slit := slitSample_wellFormed
  have normal : cornerSample.normalize {} = cornerSample := by decide +kernel
  obtain ⟨c, report, run, rfl, ⟨c', report', run', -, turn⟩, -⟩ :=
    shared_axes_agree (a := cornerSample) (b := latticeSample) rfl corner.weaken lattice.weaken rfl rfl rfl rfl
      normal
  obtain ⟨d, log, walk, rfl, ⟨d', log', walk', -, stopped⟩, -⟩ :=
    shared_axes_agree (a := cornerSample) (b := slitSample) rfl corner.weaken slit.weaken rfl rfl rfl rfl normal
  refine ⟨corner, lattice, slit, normal, ⟨_, report, run, ?_⟩, ⟨c', report', run', turn.trans ?_⟩,
    ⟨_, log, walk, ?_⟩, ⟨d', log', walk', stopped.trans ?_⟩⟩
  · decide +kernel
  · decide +kernel
  · decide +kernel
  · decide +kernel

end Parallelotope

end SkewBox
