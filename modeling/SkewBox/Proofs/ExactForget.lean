import SkewBox.Proofs.Exactness
import SkewBox.Proofs.Forget

/-!
# Forgetting that loses nothing

Eliminating a dimension that at most two rows mention is a projection: whatever the row that is left
says is what both rows say together.

* `Frame.ForgetsOnly`: a frame without what it says about some dimensions, and nothing else.
* `Parallelotope.forget_lossless`: the operation.
-/

namespace SkewBox

variable {K : Type*} [Field K] [LinearOrder K] [IsStrictOrderedRing K]

/-! ## Elimination -/

namespace Frame

variable {f g : Frame} {s : Space} {cfg : Settings} {d p : ℕ} {project : Bool}

section Row

variable {pivot row : Direction}

theorem eliminate_has_iff (hrow : row.2.Filled) (hpivot : pivot.2.Filled) {z : K} :
    (eliminate .exact d pivot row).2.Has z ↔ ∃ v w, row.2.Has v ∧ pivot.2.Has w ∧
      z = v - ((row.1.getD d 0 / pivot.1.getD d 0 : ℚ) : K) * w := by
  constructor
  · intro h
    simp only [eliminate] at h
    split at h
    · rename_i zero
      obtain ⟨w, hw⟩ := hpivot.exists_has (K := K)
      exact ⟨z, w, h, hw, by rw [zero, Rat.cast_zero, zero_mul, sub_zero]⟩
    · obtain ⟨v, u, hv, hu, rfl⟩ := (Interval.sub_has_iff hrow hpivot.scale).mp h
      obtain ⟨w, hw, rfl⟩ := (Interval.scale_has_iff_exists hpivot).mp hu
      exact ⟨v, w, hv, hw, rfl⟩
  · rintro ⟨v, w, hv, hw, rfl⟩
    exact eliminate_has hv hw

theorem eliminate_filled (hrow : row.2.Filled) (hpivot : pivot.2.Filled) :
    (eliminate .exact d pivot row).2.Filled := by
  obtain ⟨v, hv⟩ := hrow
  obtain ⟨w, hw⟩ := hpivot
  exact ⟨_, by simpa using eliminate_has (P := .exact) (d := d) hv hw⟩

end Row

omit [LinearOrder K] [IsStrictOrderedRing K] in
theorem Regular.image_update [CharZero K] {n i : ℕ} (regular : f.Regular n) (hd : d < n) (hi : i < n)
    (x : ℕ → K) (t : K) :
    f.axes.image (Function.update x d t) i =
      f.axes.image x i + ((f.axes.entry i d : ℚ) : K) * (t - x d) :=
  Vec.eval_update ((regular.axes.shape.getD_length hi).symm ▸ hd) x t

theorem Regular.range_eliminateAll (exact : cfg.precision = .exact) (regular : f.Regular s.size)
    {i : ℕ} (hi : i < s.size) :
    (f.eliminateAll cfg s d p project).ranges.getD i .top =
      if i = p then (if project then .zero else .top)
      else (eliminate .exact d (f.axes.getD p [], f.ranges.getD p .top)
        (f.axes.getD i [], f.ranges.getD i .top)).2 := by
  have row := congrArg Prod.snd (regular.row_eliminateAll (d := d) (p := p) cfg project hi)
  simp only [exact] at row
  rw [row]
  split <;> rfl

theorem Solid.eliminateAll (solid : f.Solid s) (exact : cfg.precision = .exact) (hd : d < s.size)
    (hp : p < s.size) (pivot : f.axes.entry p d ≠ 0) :
    (f.eliminateAll cfg s d p project).Solid s := by
  obtain ⟨real, regular, filled⟩ := solid
  refine ⟨real, regular.eliminateAll hd hp pivot, fun I hI => ?_⟩
  obtain ⟨i, hi, rfl⟩ := List.mem_iff_getElem.mp hI
  have inside : i < s.size := regular.length_ranges_eliminateAll ▸ hi
  rw [← List.getD_eq_getElem _ .top hi, regular.range_eliminateAll exact inside]
  split
  · cases project
    · exact ⟨0, Interval.top_has⟩
    · exact ⟨0, Interval.zero_has⟩
  · exact eliminate_filled (Interval.filled_getD filled i) (Interval.filled_getD filled p)

/-- The rows at a point after the elimination: the pivot reads the dimension, and any other row has a
value from which the pivot row took its share. -/
theorem Solid.eliminateAll_rows (solid : f.Solid s) (exact : cfg.precision = .exact)
    (hd : d < s.size) (hp : p < s.size) (pivot : f.axes.entry p d ≠ 0) {y : ℕ → K}
    (has : (f.eliminateAll cfg s d p project).Has y) :
    (project → y d = 0) ∧ ∀ i < s.size, i ≠ p →
      ∃ v w, (f.ranges.getD i .top).Has v ∧ (f.ranges.getD p .top).Has w ∧
        f.axes.image y i - ((f.axes.entry i d / f.axes.entry p d : ℚ) : K) * f.axes.image y p =
          v - ((f.axes.entry i d / f.axes.entry p d : ℚ) : K) * w := by
  obtain ⟨-, regular, filled⟩ := solid
  rw [(regular.eliminateAll hd hp pivot).has_iff_lt] at has
  constructor
  · intro h
    have row := has p hp
    rw [regular.range_eliminateAll exact hp, regular.image_eliminateAll hd hp hp, if_pos rfl, if_pos rfl,
      if_pos h] at row
    exact row.eq_zero rfl
  · intro i hi other
    have row := has i hi
    rw [regular.range_eliminateAll exact hi, regular.image_eliminateAll hd hp hi, if_neg other,
      if_neg other] at row
    exact (eliminate_has_iff (Interval.filled_getD filled i) (Interval.filled_getD filled p)).mp row

/-- A point after the elimination comes from one before, if besides the pivot only one row mentions
the dimension. -/
theorem Solid.exists_of_eliminateAll_has (solid : f.Solid s) (exact : cfg.precision = .exact)
    (hd : d < s.size) (hp : p < s.size) (pivot : f.axes.entry p d ≠ 0) {k : ℕ}
    (few : ∀ i < s.size, i ≠ p → f.axes.entry i d ≠ 0 → i = k) {y : ℕ → K}
    (has : (f.eliminateAll cfg s d p project).Has y) : ∃ t, f.Has (Function.update y d t) := by
  have rows := (solid.eliminateAll_rows exact hd hp pivot has).2
  obtain ⟨-, regular, filled⟩ := solid
  -- The value that the pivot row had: the one that the other row asks for, or any.
  obtain ⟨w, hw, other⟩ : ∃ w, (f.ranges.getD p .top).Has w ∧ (k < s.size → k ≠ p →
      (f.ranges.getD k .top).Has (f.axes.image y k +
        ((f.axes.entry k d / f.axes.entry p d : ℚ) : K) * (w - f.axes.image y p))) := by
    by_cases second : k < s.size ∧ k ≠ p
    · obtain ⟨v, w, hv, hw, value⟩ := rows k second.1 second.2
      refine ⟨w, hw, fun _ _ => ?_⟩
      rwa [show f.axes.image y k + ((f.axes.entry k d / f.axes.entry p d : ℚ) : K) *
        (w - f.axes.image y p) = v by linear_combination value]
    · obtain ⟨w, hw⟩ := (Interval.filled_getD filled p).exists_has (K := K)
      exact ⟨w, hw, fun small other => absurd ⟨small, other⟩ second⟩
  have nonzero : ((f.axes.entry p d : ℚ) : K) ≠ 0 := Rat.cast_ne_zero.mpr pivot
  refine ⟨y d + (w - f.axes.image y p) / (f.axes.entry p d : ℚ), regular.has_iff_lt.mpr ?_⟩
  intro i hi
  rw [regular.image_update hd hi, add_sub_cancel_left]
  by_cases same : i = p
  · subst same
    rwa [mul_div_cancel₀ _ nonzero, add_sub_cancel]
  by_cases zero : f.axes.entry i d = 0
  · obtain ⟨v, w, hv, -, value⟩ := rows i hi same
    simp only [zero, zero_div, Rat.cast_zero, zero_mul, sub_zero] at value
    rwa [zero, Rat.cast_zero, zero_mul, add_zero, value]
  · obtain rfl := few i hi same zero
    have value := other hi same
    rw [Rat.cast_div, mul_comm] at value
    rwa [mul_div_left_comm]

/-! ## Forgetting -/

/-- The frame `g` is `f` without what it says about the dimensions `ds`, and nothing else. -/
structure ForgetsOnly (f : Frame) (s : Space) (project : Bool) (K : Type*) [Field K] [LinearOrder K]
    (ds ps : List ℕ) (g : Frame) : Prop where
  forgets : f.Forgets s False project K ds ps g
  solid : g.Solid s
  only : ∀ y : ℕ → K, g.Has y → (project → ∀ d ∈ ds, y d = 0) ∧
    ∃ x, f.Has x ∧ ∀ j, j ∉ ds → x j = y j

omit [IsStrictOrderedRing K] in
theorem Solid.forgetsOnly_nil (solid : f.Solid s) : f.ForgetsOnly s project K [] [] f := by
  refine ⟨⟨solid.regular, False.elim, .nil, fun _ _ _ _ => id, ?_⟩, solid, ?_⟩
  · intro x y has agrees _
    obtain rfl : y = x := funext fun j => agrees j List.not_mem_nil
    exact has
  · exact fun y has => ⟨by simp, y, has, fun _ _ => rfl⟩

omit [IsStrictOrderedRing K] in
theorem ForgetsOnly.trans {ds ps : List ℕ} {h : Frame}
    (first : f.ForgetsOnly s project K [d] [p] g) (hd : d < s.size) (fresh : d ∉ ds)
    (rest : g.ForgetsOnly s project K ds ps h) : f.ForgetsOnly s project K (d :: ds) (p :: ps) h where
  forgets := first.forgets.trans hd fresh rest.forgets
  solid := rest.solid
  only y has := by
    obtain ⟨zeros, z, hz, later⟩ := rest.only y has
    obtain ⟨zero, x, hx, earlier⟩ := first.only z hz
    refine ⟨fun h => List.forall_mem_cons.mpr ⟨?_, zeros h⟩, x, hx, fun j hj => ?_⟩
    · rw [← later d fresh]
      exact zero h d (List.mem_singleton.mpr rfl)
    · obtain ⟨other, hj⟩ := not_or.mp (fun mem => hj (List.mem_cons.mpr mem))
      rw [earlier j (by simpa using other), later j hj]

omit [IsStrictOrderedRing K] in
theorem ForgetsOnly.has_iff {ds ps : List ℕ} (only : f.ForgetsOnly s project K ds ps g) {y : ℕ → K} :
    g.Has y ↔ (project → ∀ d ∈ ds, y d = 0) ∧ ∃ x, f.Has x ∧ ∀ j, j ∉ ds → x j = y j := by
  refine ⟨only.only y, ?_⟩
  rintro ⟨zero, x, hx, agrees⟩
  exact only.forgets.has x y hx (fun j hj => (agrees j hj).symm) zero

theorem exists_other {rows : List ℕ} (short : ¬ 2 < rows.length) (hp : p ∈ rows) :
    ∃ k, ∀ i ∈ rows, i ≠ p → i = k := by
  match rows with
  | [] => simp at hp
  | [a] => exact ⟨a, by simp⟩
  | [a, b] =>
    rcases List.mem_pair.mp hp with rfl | rfl
    · exact ⟨b, by simp⟩
    · exact ⟨a, by simp⟩
  | _ :: _ :: _ :: _ => simp at short

/-- Eliminating a dimension that besides the pivot only one row mentions forgets it and nothing else. -/
theorem Solid.eliminateAll_forgetsOnly (solid : f.Solid s) (exact : cfg.precision = .exact)
    (hd : d < s.size) (hp : p < s.size) (pivot : f.axes.entry p d ≠ 0) {k : ℕ}
    (few : ∀ i < s.size, i ≠ p → f.axes.entry i d ≠ 0 → i = k) :
    f.ForgetsOnly s project K [d] [p] (f.eliminateAll cfg s d p project) where
  forgets := solid.regular.eliminateAll_forgets False.elim hd hp pivot
  solid := solid.eliminateAll exact hd hp pivot
  only y has := by
    obtain ⟨t, ht⟩ := solid.exists_of_eliminateAll_has exact hd hp pivot few has
    refine ⟨fun h e he => ?_, Function.update y d t, ht, fun j hj => ?_⟩
    · rw [List.mem_singleton.mp he]
      exact (solid.eliminateAll_rows exact hd hp pivot has).1 h
    · rw [Function.update_of_ne (by simpa using hj)]

theorem forgetOne_lossless (exact : cfg.precision = .exact) (s : Space) (project : Bool) (f : Frame)
    (d : ℕ) :
    Op.Lossless (f.forgetOne cfg s project d) fun r => f.Solid s → d < s.size →
      f.ForgetsOnly s project K [d] [r.2] r.1 := by
  unfold forgetOne
  refine (Op.lossless_lift _).bind fun rows => ?_
  split
  · exact Op.lossless_throw _
  · rename_i p found
    by_cases many : 2 < rows.length
    · simp only [if_pos many]
      exact Op.inexact_lossless.bind fun _ => Op.lossless_pure False.elim
    simp only [if_neg many]
    refine Op.lossless_pure fun mentioned solid hd => ?_
    obtain ⟨rows', mentioned', mem⟩ := solid.regular.exists_mentioning hd
    obtain rfl := Except.ok.inj (mentioned.symm.trans mentioned')
    have listed := pivotFor?_mem found
    obtain ⟨hp, pivot⟩ := (mem p).mp listed
    obtain ⟨k, few⟩ := exists_other many listed
    exact solid.eliminateAll_forgetsOnly exact hd hp pivot fun i hi other nonzero =>
      few i ((mem i).mpr ⟨hi, nonzero⟩) other

theorem forgetAll_lossless (exact : cfg.precision = .exact) (s : Space) (project : Bool) (ds : List ℕ)
    (f : Frame) :
    Op.Lossless (f.forgetAll cfg s project ds) fun r => f.Solid s → ds.Nodup →
      (∀ d ∈ ds, d < s.size) → f.ForgetsOnly s project K ds r.2 r.1 := by
  induction ds generalizing f with
  | nil => exact Op.lossless_pure fun solid _ _ => solid.forgetsOnly_nil
  | cons d ds ih =>
    unfold forgetAll
    refine (forgetOne_lossless (K := K) exact s project f d).bind fun first => ?_
    refine (Op.write_lossless s _).bind fun _ => (ih first.1).bind fun rest => ?_
    refine Op.lossless_pure fun later _ once solid distinct inside => ?_
    obtain ⟨fresh, distinct⟩ := List.nodup_cons.mp distinct
    obtain ⟨hd, inside⟩ := List.forall_mem_cons.mp inside
    have step := once solid hd
    exact step.trans hd fresh (later step.solid distinct inside)

end Frame

namespace Parallelotope

variable {cfg : Settings}

theorem forget_lossless (exact : cfg.precision = .exact) (a : Parallelotope) (data : List Datum)
    (project : Bool) :
    Op.Lossless (a.forget cfg data project) fun b => a.Solid →
      ∃ ds, a.space.checkDistinct data = .ok ds ∧ b.Denotes a.space fun y : ℕ → K =>
        (project → ∀ d ∈ ds, y d = 0) ∧ ∃ x, a.Has x ∧ ∀ j, j ∉ ds → x j = y j := by
  unfold forget
  refine (Op.lossless_lift _).bind fun ds => ?_
  cases hf : a.frame? with
  | none =>
    refine Op.lossless_pure fun checked solid => ⟨ds, checked, denotes_none rfl hf ?_⟩
    rintro y ⟨-, x, has, -⟩
    exact not_has_of_none hf x has
  | some f =>
    refine (Frame.forgetAll_lossless (K := K) exact a.space project ds f).bind fun r => ?_
    refine Op.put_lossless fun forgets checked ha => ⟨ds, checked, Cut.Denotes.toParallelotope ?_⟩
    obtain ⟨-, distinct, inside⟩ := Space.checkDistinct_eq_ok.mp checked
    have only := forgets (ha f hf) distinct inside
    refine Frame.normalize_denotes cfg only.solid.real only.solid.regular
      (fun I hI => (only.solid.filled I hI).proper) fun y => only.has_iff.trans ?_
    simp only [has_iff_of_frame hf]

end Parallelotope

end SkewBox
