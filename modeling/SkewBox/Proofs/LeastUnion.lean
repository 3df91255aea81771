import SkewBox.Proofs.Emptying
import SkewBox.Proofs.Inclusion
import SkewBox.Proofs.Refusals

/-!
# Least unions

The union of two values has the points of both.  Without rounding, each of its rows takes as little more
as the second value forces on it, so that it is the least of all systems of ranges for the axes of the
first value that have the points of both.

* `Parallelotope.Unites`, `joinAt_unites`: what the union of two values is.
* `Parallelotope.union_least`: unions of values.
-/

namespace SkewBox

variable {K : Type*} [Field K] [LinearOrder K] [IsStrictOrderedRing K]

/-! ## Intervals -/

namespace Interval

variable {I J L : Interval} {x : K}

theorem join_has_left (h : I.Has x) : (I.join J).Has x := by
  simp only [join, h.isBottom, Bool.false_eq_true, if_false]
  split
  · exact h
  · exact ⟨h.1.anti (min_le_left ..), h.2.mono (le_max_left ..)⟩

theorem join_has_right (h : J.Has x) : (I.join J).Has x := by
  simp only [join, h.isBottom, Bool.false_eq_true, if_false]
  split
  · exact h
  · exact ⟨h.1.anti (min_le_right ..), h.2.mono (le_max_right ..)⟩

theorem join_leq (hI : I.leq L) (hJ : J.leq L) : (I.join J).leq L := by
  unfold join
  split
  · exact hJ
  · rename_i full
    split
    · exact hI
    · rename_i full'
      simp only [leq, full, full', Bool.false_or, Bool.and_eq_true, decide_eq_true_eq] at hI hJ
      simp [leq, hI.1.1, hI.1.2, hI.2, hJ.1.2, hJ.2]

end Interval

/-! ## Rows -/

namespace Frame

variable {f g : Frame} {n : ℕ} {cfg : Settings}

theorem Regular.exists_row (regular : f.Regular n) (filled : f.Filled) {i : ℕ} (hi : i < n) {v : K}
    (hv : (f.ranges.getD i .top).Has v) : ∃ x : ℕ → K, f.Has x ∧ f.axes.image x i = v := by
  obtain ⟨y, hy⟩ := regular.exists_has (K := K) filled
  obtain ⟨x, image⟩ := regular.exists_image (Function.update (f.axes.image y) i v)
  refine ⟨x, regular.has_iff_lt.mpr fun j hj => ?_, by simp [image i hi]⟩
  rw [image j hj]
  by_cases same : j = i
  · subst same
    simpa using hv
  · rw [Function.update_of_ne same]
    exact regular.has_iff_lt.mp hy j hj

theorem Regular.range_leq (regular : f.Regular n) (filled : f.Filled) {i : ℕ} (hi : i < n)
    {J : Interval} (within : ∀ x : ℕ → ℚ, f.Has x → J.Has (f.axes.image x i)) :
    (f.ranges.getD i .top).leq J := by
  refine Interval.leq_of_has (Interval.filled_getD filled i) fun q hq => ?_
  obtain ⟨x, hx, rfl⟩ := regular.exists_row filled hi hq
  exact within x hx

theorem RangesOver.range_leq {Is : List Interval} (ranges : g.RangesOver cfg n f Is)
    (shape : f.axes.HasShape n n) (exact : cfg.precision = .exact) (filled : g.Filled) {i : ℕ}
    (hi : i < n) {J : Interval} (within : ∀ x : ℕ → ℚ, g.Has x → J.Has (f.axes.image x i)) :
    (Is.getD i .top).leq J := by
  obtain ⟨w, regular, bounded⟩ := ranges.bounded shape hi
  have filled' : Frame.Filled { g with inverse? := w } := filled
  obtain ⟨x, hx⟩ := regular.exists_has (K := ℚ) filled'
  refine Interval.leq_of_has ⟨_, ranges.has shape hx i⟩ fun q hq => ?_
  obtain ⟨y, hy, rfl⟩ := regular.exists_of_boundDirection filled' exact (shape.getD_length hi) bounded hq
  exact within y hy

end Frame

/-! ## Two values -/

namespace Parallelotope

variable {a b c : Parallelotope} {cfg : Settings}

/-- The union in the axes of `a`: one of the values if the other is empty, and otherwise the ranges of
`a` joined with those of its axes over `b`. -/
inductive Unites (cfg : Settings) (a b : Parallelotope) : Parallelotope → Prop
  | left (empty : b.frame? = none) : Unites cfg a b a
  | right (empty : a.frame? = none) : Unites cfg a b b
  | both {f g : Frame} {Is : List Interval} (hf : a.frame? = some f) (hg : b.frame? = some g)
      (ranges : g.RangesOver cfg a.space.size f Is) :
      Unites cfg a b ⟨a.space, some { f with ranges := List.zipWith Interval.join f.ranges Is }⟩

theorem joinAt_unites (ha : a.Shaped False) (hb : b.Shaped False) (space : a.space = b.space) (k : ℕ) :
    Op.Meets (fun _ => True) (fun _ => True) False (joinAt cfg k a b) (Unites cfg a b) := by
  unfold joinAt
  refine (Op.meets_lift_ok (P := fun _ => True) (if_pos space) trivial).bind fun _ _ => ?_
  split
  · rename_i empty
    exact Op.meets_pure (.left empty)
  · rename_i empty _
    exact Op.move_meets trivial (.right empty)
  · rename_i f g hf hg
    have regular : g.Regular a.space.size := space ▸ (hb g hg).1
    refine (Op.about_meets (leq_total (K := ℚ) hb ha space.symm)).bind fun inside _ => ?_
    have enclose : Op.Meets (fun _ => True) (fun _ => True) False (do
        let other ← Op.about k (rangesOver cfg g f)
        Op.refit a.space { f with ranges := List.zipWith Interval.join f.ranges other })
        (Unites cfg a b) := by
      refine (Op.about_meets (rangesOver_eq (ha f hf).1.axes.shape regular)).bind fun Is ranges => ?_
      exact Op.refit_meets trivial (.both hf hg ranges)
    cases inside with
    | false => exact Op.inexact_meets.bind fun _ _ => enclose
    | true => exact enclose

namespace Unites

theorem has (unites : Unites cfg a b c) (ha : a.Shaped False) {x : ℕ → K} (hx : a.Has x ∨ b.Has x) :
    c.Has x := by
  cases unites with
  | left empty => exact hx.resolve_right (not_has_of_none empty x)
  | right empty => exact hx.resolve_left (not_has_of_none empty x)
  | both hf hg ranges =>
    obtain ⟨regular, -⟩ := ha _ hf
    rw [has_mk, (ranges.regular_zipWith regular _).has_iff_lt]
    intro i hi
    rw [ranges.getD_zipWith regular _ hi]
    rcases hx with hx | hx
    · exact Interval.join_has_left (regular.has_iff_lt.mp ((has_iff_of_frame hf).mp hx) i hi)
    · exact Interval.join_has_right (ranges.has regular.axes.shape ((has_iff_of_frame hg).mp hx) i)

/-- Without rounding, the union of values with a rational in each range has the axes of the first, and
lies in any system of ranges for them that has the points of both. -/
theorem least (unites : Unites cfg a b c) (ha : a.Shaped False) (exact : cfg.precision = .exact)
    {f g : Frame} (hf : a.frame? = some f) (hg : b.frame? = some g) (filled : f.Filled)
    (filled' : g.Filled) :
    ∃ h, c.frame? = some h ∧ h.axes = f.axes ∧ ∀ Js : List Interval, Js.length = a.space.size →
      (∀ x : ℕ → ℚ, a.Has x ∨ b.Has x → Frame.Has ⟨f.axes, Js, none⟩ x) →
      ∀ x : ℕ → K, c.Has x → Frame.Has ⟨f.axes, Js, none⟩ x := by
  cases unites with
  | left empty => simp [hg] at empty
  | right empty => simp [hf] at empty
  | both hf' hg' ranges =>
    obtain rfl := Option.some.inj (hf.symm.trans hf')
    obtain rfl := Option.some.inj (hg.symm.trans hg')
    obtain ⟨regular, -⟩ := ha f hf
    refine ⟨_, rfl, rfl, fun Js length within x hx => ?_⟩
    have system : Frame.Regular ⟨f.axes, Js, none⟩ a.space.size := Frame.regular_mk regular.axes length
    rw [has_mk, (ranges.regular_zipWith regular _).has_iff_lt] at hx
    -- A joined range lies in what holds both of its parts.
    refine system.has_iff_lt.mpr fun i hi => Interval.leq_has ?_ (hx i hi)
    rw [ranges.getD_zipWith regular _ hi]
    refine Interval.join_leq (regular.range_leq filled hi fun y hy => ?_)
      (ranges.range_leq regular.axes.shape exact filled' hi fun y hy => ?_)
    · exact system.has_iff_lt.mp (within y (.inl ((has_iff_of_frame hf).mpr hy))) i hi
    · exact system.has_iff_lt.mp (within y (.inr ((has_iff_of_frame hg).mpr hy))) i hi

end Unites

/-! ## Lists of values -/

theorem joinFrom_encloses {rest : List Parallelotope} (ha : a.WellFormed)
    (hrest : ∀ b ∈ rest, b.WellFormed ∧ b.space = a.space) (k : ℕ) :
    Op.Keeps True False (joinFrom cfg k a rest) fun c => ∀ b ∈ a :: rest, ∀ x : ℕ → K, b.Has x → c.Has x := by
  induction rest generalizing a k with
  | nil => exact Op.meets_pure (by simp)
  | cons b rest ih =>
    obtain ⟨⟨hb, space⟩, hrest⟩ := List.forall_mem_cons.mp hrest
    refine ((joinAt_total ha hb space k).and (joinAt_unites ha.weaken hb.weaken space.symm k)).bind ?_
    rintro c ⟨⟨hc, space'⟩, unites⟩
    have hrest' : ∀ d ∈ rest, d.WellFormed ∧ d.space = c.space := fun d hd =>
      ⟨(hrest d hd).1, (hrest d hd).2.trans space'.symm⟩
    refine (ih hc hrest' (k + 1)).imp fun e encloses d hd x hx => ?_
    rcases List.mem_cons.mp hd with rfl | hd
    · exact encloses c (List.mem_cons_self ..) x (unites.has ha.weaken (.inl hx))
    rcases List.mem_cons.mp hd with rfl | hd
    · exact encloses c (List.mem_cons_self ..) x (unites.has ha.weaken (.inr hx))
    · exact encloses d (List.mem_cons_of_mem _ hd) x hx

/-- Two well-formed values of one space have a union, which is well-formed and has the points of both;
a list of values that is not empty has one that has the points of all.  Without rounding, the union of
two values with a rational in each range keeps the axes of the first and is the least: any ranges for
these axes that admit the rational points of both values admit all points of the union. -/
theorem union_least (cfg : Settings) (s : Space) :
    (∀ a b : Parallelotope, a.WellFormed → b.WellFormed → a.space = s → b.space = s →
      (a.join cfg b).Yields fun c => c.WellFormed ∧ c.space = s ∧
        (∀ x : ℕ → K, a.Has x ∨ b.Has x → c.Has x) ∧
        ∀ f g, a.frame? = some f → b.frame? = some g → cfg.precision = .exact → f.Filled → g.Filled →
          ∃ h, c.frame? = some h ∧ h.axes = f.axes ∧ ∀ Js : List Interval, Js.length = s.size →
            (∀ x : ℕ → ℚ, a.Has x ∨ b.Has x → Frame.Has ⟨f.axes, Js, none⟩ x) →
            ∀ x : ℕ → K, c.Has x → Frame.Has ⟨f.axes, Js, none⟩ x) ∧
    ∀ values : List Parallelotope, values ≠ [] → (∀ a ∈ values, a.WellFormed ∧ a.space = s) →
      (joinArray cfg values).Yields fun c => ∀ a ∈ values, ∀ x : ℕ → K, a.Has x → c.Has x := by
  constructor
  · rintro a b ha hb rfl space
    have unites : Op.Meets _ _ False (a.join cfg b) (Unites cfg a b) :=
      joinAt_unites ha.weaken hb.weaken space.symm 1
    obtain ⟨c, report, run, ⟨hc, space'⟩, unites⟩ := ((joinAt_total ha hb space 1).and unites).yields
    refine ⟨c, report, run, hc, space', fun x => unites.has ha.weaken, ?_⟩
    intro f g hf hg exact filled filled'
    exact unites.least ha.weaken exact hf hg filled filled'
  · intro values nonempty wellFormed
    cases values with
    | nil => exact absurd rfl nonempty
    | cons a rest =>
      obtain ⟨⟨ha, rfl⟩, hrest⟩ := List.forall_mem_cons.mp wellFormed
      exact (joinFrom_encloses ha hrest 1).yields

/-- The square and the band: their union has both, and lies in any box that has both; the same list
starting with the band has a union with the points of the square. -/
theorem union_least_sample :
    squareSample.WellFormed ∧ bandSample.WellFormed ∧
    (squareSample.join {} bandSample).Yields (fun c =>
      (∀ x : ℕ → ℚ, squareSample.Has x ∨ bandSample.Has x → c.Has x) ∧
      ∀ I J : Interval, (∀ x : ℕ → ℚ, squareSample.Has x ∨ bandSample.Has x →
          Frame.Has ⟨[[1, 0], [0, 1]], [I, J], none⟩ x) →
        ∀ x : ℕ → ℚ, c.Has x → Frame.Has ⟨[[1, 0], [0, 1]], [I, J], none⟩ x) ∧
    (joinArray { precision := .binary64 } [bandSample, squareSample]).Yields fun c =>
      ∀ x : ℕ → ℚ, squareSample.Has x → c.Has x := by
  have square := squareSample_wellFormed
  have band := bandSample_wellFormed
  refine ⟨square, band, ?_, ?_⟩
  · obtain ⟨c, report, run, -, -, both, least⟩ :=
      (union_least (K := ℚ) {} ⟨0, 2⟩).1 squareSample bandSample square band rfl rfl
    obtain ⟨h, -, -, inside⟩ := least _ _ rfl rfl rfl (by decide) (by decide)
    exact ⟨c, report, run, both, fun I J within => inside [I, J] rfl within⟩
  · have each : ∀ a ∈ [bandSample, squareSample], a.WellFormed ∧ a.space = ⟨0, 2⟩ := by
      simp only [List.forall_mem_cons, List.not_mem_nil, false_imp_iff, implies_true, and_true]
      exact ⟨⟨band, rfl⟩, square, rfl⟩
    obtain ⟨c, report, run, all⟩ := (union_least (K := ℚ) { precision := .binary64 } ⟨0, 2⟩).2
      [bandSample, squareSample] (by simp) each
    exact ⟨c, report, run, all squareSample (by simp)⟩

end Parallelotope

end SkewBox
