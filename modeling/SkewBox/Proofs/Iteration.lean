import SkewBox.Proofs.Meet
import SkewBox.Proofs.Widening

/-!
# Iteration with widening

A step of widening keeps the axes and gives up ends of ranges for good, so a sequence of such steps
changes only finitely often, however the values that it is widened by are chosen.

* `Parallelotope.content`: what a value stores, apart from an inverse that it remembers.
* `Parallelotope.reserve`, `height`: how many more steps can change a value.
* `Parallelotope.Widens`, `widening_meets`: what one step of widening does.
* `Parallelotope.widening_stabilizes`: the number of changes, and iteration up to a stable value.
-/

namespace SkewBox

variable {K : Type*} [Field K] [LinearOrder K]

/-! ## Ranges -/

namespace Interval

/-- The number of ends that are not at infinity on their own side. -/
def closedEnds (I : Interval) : ℕ :=
  (if I.lo = .negInf then 0 else 1) + if I.hi = .posInf then 0 else 1

theorem closedEnds_le (I : Interval) : I.closedEnds ≤ 2 := by
  unfold closedEnds
  split <;> split <;> omega

end Interval

namespace Parallelotope

section Ranges

variable {I J : Interval} {x : K}

theorem widenRange_has_left (h : I.Has x) : (widenRange I J).Has x := by
  unfold widenRange
  split <;> split <;> simp [Interval.Has, h.1, h.2]

variable [IsStrictOrderedRing K]

theorem widenRange_has_right (h : J.Has x) : (widenRange I J).Has x := by
  unfold widenRange
  split <;> split
  · rename_i lower upper
    exact ⟨h.1.anti lower, h.2.mono upper⟩
  · rename_i lower _
    exact ⟨h.1.anti lower, trivial⟩
  · rename_i _ upper
    exact ⟨trivial, h.2.mono upper⟩
  · exact ⟨trivial, trivial⟩

end Ranges

theorem widenRange_eq_or_lt (I J : Interval) :
    widenRange I J = I ∨ (widenRange I J).closedEnds < I.closedEnds := by
  by_cases lower : I.lo ≤ J.lo <;> by_cases upper : J.hi ≤ I.hi
  · exact .inl (by simp [widenRange, lower, upper])
  · have closed : I.hi ≠ .posInf := fun top => upper (top ▸ Bound.le_posInf _)
    exact .inr (by simp [widenRange, Interval.closedEnds, lower, upper, closed])
  · have closed : I.lo ≠ .negInf := fun bottom => lower (bottom ▸ Bound.negInf_le _)
    exact .inr (by simp [widenRange, Interval.closedEnds, lower, upper, closed])
  · have closed : I.lo ≠ .negInf := fun bottom => lower (bottom ▸ Bound.negInf_le _)
    exact .inr (by simp [widenRange, Interval.closedEnds, lower, upper, closed])

section Ranks

variable {step : Interval → Interval → Interval} {rank : Interval → ℕ}

theorem zipWith_eq_or_lt {Is Js : List Interval} (same : Is.length = Js.length)
    (each : ∀ I ∈ Is, ∀ J ∈ Js, step I J = I ∨ rank (step I J) < rank I) :
    List.zipWith step Is Js = Is ∨
      ((List.zipWith step Is Js).map rank).sum < (Is.map rank).sum := by
  induction Is generalizing Js with
  | nil => simp
  | cons I Is ih =>
    cases Js with
    | nil => simp at same
    | cons J Js =>
      simp only [List.zipWith_cons_cons, List.map_cons, List.sum_cons, List.cons.injEq]
      have rest := @ih Js (by simpa using same) fun I hI J hJ =>
        each I (List.mem_cons_of_mem _ hI) J (List.mem_cons_of_mem _ hJ)
      -- No summand rises, so the sum falls as soon as one of them does.
      cases each I (List.mem_cons_self ..) J (List.mem_cons_self ..) with
      | inl first =>
        rw [first]
        cases rest with
        | inl rest => exact .inl ⟨rfl, rest⟩
        | inr rest => exact .inr (by omega)
      | inr first =>
        cases rest with
        | inl rest => exact .inr (by rw [rest]; omega)
        | inr rest => exact .inr (by omega)

theorem sum_rank_le {r n : ℕ} (bound : ∀ I, rank I ≤ r) {f : Frame} (regular : f.Regular n) :
    (f.ranges.map rank).sum ≤ r * n := by
  have sum := List.sum_le_card_nsmul (f.ranges.map rank) r fun k hk => by
    obtain ⟨I, -, rfl⟩ := List.mem_map.mp hk
    exact bound I
  rwa [List.length_map, regular.ranges, smul_eq_mul, mul_comm] at sum

end Ranks

/-! ## One step -/

/-- The axes and ranges of a value, if it is not empty. -/
def content (a : Parallelotope) : Option (Mat × List Interval) :=
  a.frame?.map fun f => (f.axes, f.ranges)

theorem has_iff_of_content {a b : Parallelotope} (same : a.content = b.content) {x : ℕ → K} :
    a.Has x ↔ b.Has x := by
  obtain ⟨s, _ | f⟩ := a <;> obtain ⟨t, _ | g⟩ := b
  · simp [Has]
  · simp [content] at same
  · simp [content] at same
  · obtain ⟨axes, ranges⟩ : f.axes = g.axes ∧ f.ranges = g.ranges := by simpa [content] using same
    rw [has_mk, has_mk, Frame.Has, Frame.Has, Frame.rows, Frame.rows, axes, ranges]

/-- The ranks of all ranges, which are at most `r` each, or one more than that allows. -/
def reserve (rank : Interval → ℕ) (r : ℕ) (a : Parallelotope) : ℕ :=
  match a.content with
  | none => r * a.space.size + 1
  | some (_, Is) => (Is.map rank).sum

/-- The number of ends that widening can still give up, or one more than all of them. -/
def height (a : Parallelotope) : ℕ := a.reserve Interval.closedEnds 2

theorem reserve_le {rank : Interval → ℕ} {r : ℕ} (bound : ∀ I, rank I ≤ r) {a : Parallelotope}
    (ha : a.Shaped False) : a.reserve rank r ≤ r * a.space.size + 1 := by
  unfold reserve content
  cases hf : a.frame? with
  | none => exact le_rfl
  | some f => exact (sum_rank_le bound (ha f hf).1).trans (Nat.le_succ _)

theorem reserve_congr {rank : Interval → ℕ} {r : ℕ} {a b : Parallelotope} (space : a.space = b.space)
    (same : a.content = b.content) : a.reserve rank r = b.reserve rank r := by
  rw [reserve, reserve, space, same]

theorem height_le {a : Parallelotope} (ha : a.WellFormed) : a.height ≤ 2 * a.space.size + 1 :=
  reserve_le Interval.closedEnds_le ha.weaken

/-- An extrapolation whose step keeps a range or lowers its rank keeps the value or lowers the sum. -/
theorem Combines.descends {step : Interval → Interval → Interval} {rank : Interval → ℕ} {r : ℕ}
    {a b c : Parallelotope} {cfg : Settings} (combines : Combines cfg step a b c) (ha : a.Shaped False)
    (hb : b.Shaped False) (space : a.space = b.space) (bound : ∀ I, rank I ≤ r)
    (each : ∀ I J, step I J = I ∨ rank (step I J) < rank I) :
    c.content = a.content ∨ c.reserve rank r < a.reserve rank r := by
  cases combines with
  | left _ => exact .inl rfl
  | right empty hg =>
    have sum := sum_rank_le bound (hb _ hg).1
    rw [← space] at sum
    refine .inr ?_
    simp only [reserve, content, empty, hg, Option.map_none, Option.map_some]
    omega
  | both hf hg ranges =>
    obtain ⟨regular, -⟩ := ha _ hf
    have next := zipWith_eq_or_lt
      (regular.ranges.trans (ranges.length regular.axes.shape).symm) fun I _ J _ => each I J
    simp only [content, reserve, hf]
    exact next.imp_left fun same => by simp [same]

/-- The value `c` holds all points of `a` and of `b`, and is `a` or can be widened less often. -/
structure Widens (K : Type*) [Field K] [LinearOrder K] (a b c : Parallelotope) : Prop where
  space : c.space = a.space
  wellFormed : c.WellFormed
  has : ∀ x : ℕ → K, a.Has x ∨ b.Has x → c.Has x
  descends : c.content = a.content ∨ c.height < a.height

variable [IsStrictOrderedRing K] {a b : Parallelotope}

theorem Combines.has {step : Interval → Interval → Interval} {c : Parallelotope} {cfg : Settings}
    (combines : Combines cfg step a b c) (ha : a.Shaped False)
    (left : ∀ (I J : Interval) (v : K), I.Has v → (step I J).Has v)
    (right : ∀ (I J : Interval) (v : K), J.Has v → (step I J).Has v) {x : ℕ → K}
    (has : a.Has x ∨ b.Has x) : c.Has x := by
  cases combines with
  | left empty => exact has.resolve_right (not_has_of_none empty x)
  | right empty _ => exact has.resolve_left (not_has_of_none empty x)
  | both hf hg ranges =>
    obtain ⟨regular, -⟩ := ha _ hf
    rw [has_mk, (ranges.regular_zipWith regular step).has_iff_lt]
    intro i hi
    rw [ranges.getD_zipWith regular step hi]
    cases has with
    | inl has => exact left _ _ _ (regular.has_iff_lt.mp ((has_iff_of_frame hf).mp has) i hi)
    | inr has => exact right _ _ _ (ranges.has regular.axes.shape ((has_iff_of_frame hg).mp has) i)

theorem widening_combines (cfg : Settings) (ha : a.WellFormed) (hb : b.WellFormed)
    (space : a.space = b.space) :
    Op.Meets (·.WellFormed) (·.WellFormed) False (a.widening cfg b) (Combines cfg widenRange a b) := by
  unfold widening
  refine (Op.meets_lift_ok (P := fun _ => True) (if_pos space) trivial).bind fun _ _ => ?_
  exact combine_combines ha.weaken hb.weaken space (fun _ => id) fun c combines =>
    combines.shaped ha hb fun _ _ _ hI _ => widenRange_ordered hI

theorem widening_meets (cfg : Settings) (ha : a.WellFormed) (hb : b.WellFormed) (space : a.space = b.space) :
    Op.Meets (·.WellFormed) (·.WellFormed) False (a.widening cfg b) (Widens K a b) := by
  refine (widening_combines cfg ha hb space).imp fun c combines => ⟨combines.space_eq space, ?_, ?_, ?_⟩
  · exact combines.shaped ha hb fun _ _ _ hI _ => widenRange_ordered hI
  · intro x has
    exact combines.has ha.weaken (fun _ _ _ => widenRange_has_left) (fun _ _ _ => widenRange_has_right) has
  · exact combines.descends ha.weaken hb.weaken space Interval.closedEnds_le widenRange_eq_or_lt

/-! ## Sequences of steps -/

omit [IsStrictOrderedRing K] [LinearOrder K] [Field K] in
/-- A step repeated by values that may depend on the number of the step and on the value so far. -/
theorem exists_iterates (op : Parallelotope → Parallelotope → Op Parallelotope)
    (Good : Parallelotope → Prop) (Step : Parallelotope → Parallelotope → Parallelotope → Prop)
    (F : ℕ → Parallelotope → Parallelotope) (ha : Good a)
    (next : ∀ k w, Good w → (op w (F k w)).Yields fun c => Good c ∧ Step w (F k w) c) :
    ∃ w : ℕ → Parallelotope, w 0 = a ∧ ∀ k, Good (w k) ∧
      (∃ report, (op (w k) (F k (w k))).start = (.ok (w (k + 1)), report)) ∧
      Step (w k) (F k (w k)) (w (k + 1)) := by
  have next' : ∀ (k : ℕ) (w : {w : Parallelotope // Good w}), ∃ c : {w : Parallelotope // Good w},
      (∃ report, (op w.1 (F k w.1)).start = (.ok c.1, report)) ∧ Step w.1 (F k w.1) c.1 := by
    rintro k ⟨w, hw⟩
    obtain ⟨c, report, run, hc, steps⟩ := next k w hw
    exact ⟨⟨c, hc⟩, ⟨report, run⟩, steps⟩
  choose step runs using next'
  let w : ℕ → {w : Parallelotope // Good w} := fun k => Nat.rec ⟨a, ha⟩ step k
  exact ⟨fun k => (w k).1, rfl, fun k => ⟨(w k).2, runs k (w k)⟩⟩

/-- Every change uses up some of the height that is there at the start. -/
theorem changes_add_le {w : ℕ → Parallelotope} (height : Parallelotope → ℕ)
    (stays : ∀ k, (w (k + 1)).content = (w k).content → height (w (k + 1)) ≤ height (w k))
    (descends : ∀ k, (w (k + 1)).content ≠ (w k).content → height (w (k + 1)) < height (w k)) (k : ℕ) :
    ((Finset.range k).filter fun i => (w (i + 1)).content ≠ (w i).content).card + height (w k) ≤
      height (w 0) := by
  induction k with
  | zero => simp
  | succ k ih =>
    rw [Finset.range_add_one, Finset.filter_insert]
    split
    · rename_i changed
      have lower := descends k changed
      rw [Finset.card_insert_of_notMem (by simp)]
      omega
    · rename_i same
      have lower := stays k (not_not.mp same)
      omega

theorem exists_widenings (cfg : Settings) (F : ℕ → Parallelotope → Parallelotope)
    (ha : a.WellFormed) (hF : ∀ k w, w.WellFormed → w.space = a.space →
      (F k w).WellFormed ∧ (F k w).space = a.space) :
    ∃ w : ℕ → Parallelotope, w 0 = a ∧ ∀ k,
      (∃ report, ((w k).widening cfg (F k (w k))).start = (.ok (w (k + 1)), report)) ∧
      Widens K (w k) (F k (w k)) (w (k + 1)) := by
  obtain ⟨w, first, runs⟩ := exists_iterates (fun w b => w.widening cfg b)
    (fun w => w.WellFormed ∧ w.space = a.space) (Widens K) F ⟨ha, rfl⟩ fun k w hw => by
      obtain ⟨hs, space⟩ := hF k w hw.1 hw.2
      obtain ⟨c, report, run, widens⟩ :=
        (widening_meets (K := K) cfg hw.1 hs (hw.2.trans space.symm)).yields
      exact ⟨c, report, run, ⟨widens.wellFormed, widens.space.trans hw.2⟩, widens⟩
  exact ⟨w, first, fun k => (runs k).2⟩

omit [IsStrictOrderedRing K] in
theorem changes_add_height_le {w s : ℕ → Parallelotope} (steps : ∀ k, Widens K (w k) (s k) (w (k + 1)))
    (k : ℕ) :
    ((Finset.range k).filter fun i => (w (i + 1)).content ≠ (w i).content).card + (w k).height ≤
      (w 0).height :=
  changes_add_le height (fun k same => (reserve_congr (steps k).space same).le)
    (fun k changed => (steps k).descends.resolve_left changed) k

/-- From a well-formed value, widening by any well-formed values of its space never fails.  Every step
holds the points of both operands, and among the steps are at most `2 n + 1` that change the value.
If the value to widen by is computed from the value that is widened, some value among the first
`2 n + 2` is stable. -/
theorem widening_stabilizes (cfg : Settings) {a : Parallelotope} (ha : a.WellFormed) :
    (∀ s : ℕ → Parallelotope, (∀ k, (s k).WellFormed ∧ (s k).space = a.space) →
      ∃ w : ℕ → Parallelotope, w 0 = a ∧ ∀ k,
        (∃ report, ((w k).widening cfg (s k)).start = (.ok (w (k + 1)), report)) ∧
        (∀ x : ℕ → K, (w k).Has x ∨ (s k).Has x → (w (k + 1)).Has x) ∧
        ((Finset.range k).filter fun i => (w (i + 1)).content ≠ (w i).content).card ≤
          2 * a.space.size + 1) ∧
    ∀ F : Parallelotope → Parallelotope,
      (∀ w, w.WellFormed → w.space = a.space → (F w).WellFormed ∧ (F w).space = a.space) →
      ∃ w : ℕ → Parallelotope, w 0 = a ∧
        (∀ k, ∃ report, ((w k).widening cfg (F (w k))).start = (.ok (w (k + 1)), report)) ∧
        ∃ k < 2 * a.space.size + 2, ∀ x : ℕ → K, (F (w k)).Has x → (w k).Has x := by
  have bound := height_le ha
  constructor
  · intro s hs
    obtain ⟨w, first, runs⟩ := exists_widenings (K := K) cfg (fun k _ => s k) ha fun k _ _ _ => hs k
    refine ⟨w, first, fun k => ⟨(runs k).1, (runs k).2.has, ?_⟩⟩
    have changes := changes_add_height_le (fun k => (runs k).2) k
    rw [first] at changes
    omega
  · intro F hF
    obtain ⟨w, first, runs⟩ := exists_widenings (K := K) cfg (fun _ => F) ha fun _ => hF
    refine ⟨w, first, fun k => (runs k).1, ?_⟩
    by_contra unstable
    -- Otherwise each of the first `2 n + 2` steps changes the value.
    have changed : ∀ k ∈ Finset.range (2 * a.space.size + 2), (w (k + 1)).content ≠ (w k).content := by
      intro k hk same
      refine unstable ⟨k, Finset.mem_range.mp hk, fun x has => ?_⟩
      exact (has_iff_of_content same).mp ((runs k).2.has x (.inr has))
    have changes := changes_add_height_le (fun k => (runs k).2) (2 * a.space.size + 2)
    rw [Finset.filter_true_of_mem changed, Finset.card_range, first] at changes
    omega

/-- Widening the slanted sample by the crossing one in turn with an empty value, and iterating
a function that returns the crossing sample. -/
theorem widening_stabilizes_sample :
    slantedSample.WellFormed ∧ crossingSample.WellFormed ∧
    (∃ w : ℕ → Parallelotope, w 0 = slantedSample ∧ ∀ k,
      (∃ report, ((w k).widening {} (if k % 2 = 0 then crossingSample else bottom ⟨1, 1⟩)).start =
        (.ok (w (k + 1)), report)) ∧
      (∀ x : ℕ → ℚ, (w k).Has x ∨ (if k % 2 = 0 then crossingSample else bottom ⟨1, 1⟩).Has x →
        (w (k + 1)).Has x) ∧
      ((Finset.range k).filter fun i => (w (i + 1)).content ≠ (w i).content).card ≤ 5) ∧
    ∃ w : ℕ → Parallelotope, w 0 = slantedSample ∧
      (∀ k, ∃ report, ((w k).widening {} crossingSample).start = (.ok (w (k + 1)), report)) ∧
      ∃ k < 6, ∀ x : ℕ → ℚ, crossingSample.Has x → (w k).Has x := by
  obtain ⟨sequences, functions⟩ :=
    widening_stabilizes (K := ℚ) {} slantedSample_wellFormed
  refine ⟨slantedSample_wellFormed, crossingSample_wellFormed, sequences _ fun k => ?_,
    functions (fun _ => crossingSample) fun _ _ _ => ⟨crossingSample_wellFormed, rfl⟩⟩
  split
  · exact ⟨crossingSample_wellFormed, rfl⟩
  · exact ⟨shaped_bottom _, rfl⟩

end Parallelotope

end SkewBox
