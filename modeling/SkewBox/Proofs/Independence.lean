import Mathlib.LinearAlgebra.Dimension.OrzechProperty
import Mathlib.LinearAlgebra.Dual.Lemmas
import SkewBox.Proofs.Rank

/-!
# Independent rows

The vectors that some rows combine to are those that vanish wherever the rows do.  An echelon form
vanishes where the rows that it was given do, so both combine to the same vectors; its own rows are
independent, so that it has as many as these vectors have dimensions.

* `Mat.rowSpan`, `Mat.Independent`: the combinations of rows, and rows that are independent.
* `Echelon.independence_decided`: reducing, adding and completing.
* `Mat.inversion_decided`: elimination and the test for independence agree.
-/

namespace SkewBox

/-! ## Combinations of rows -/

/-- The entries of a vector of length `n`. -/
def Vec.toRow (n : ℕ) (v : Vec) : Fin n → ℚ := fun j => v.getD j 0

/-- The vectors of length `n` that the rows combine to. -/
def Mat.rowSpan (n : ℕ) (rows : Mat) : Submodule ℚ (Fin n → ℚ) :=
  Submodule.span ℚ (Vec.toRow n '' {v | v ∈ rows})

/-- The rows are linearly independent vectors of length `n`. -/
def Mat.Independent (n : ℕ) (rows : Mat) : Prop :=
  LinearIndependent ℚ fun i : Fin rows.length => (rows.get i).toRow n

namespace Vec

variable {v : Vec} {n : ℕ}

theorem linearCombination_toRow (hv : v.length = n) (x : ℕ → ℚ) :
    Fintype.linearCombination ℚ (fun j : Fin n => x j) (v.toRow n) = v.eval x := by
  rw [Fintype.linearCombination_apply, eval_eq_sum hv.le, Finset.sum_range]
  rfl

/-- Every linear functional is the value of the forms at some point. -/
theorem exists_eval_eq (f : (Fin n → ℚ) →ₗ[ℚ] ℚ) :
    ∃ x : ℕ → ℚ, ∀ v : Vec, v.length = n → v.eval x = f (v.toRow n) := by
  refine ⟨fun k => if hk : k < n then f fun j => if ⟨k, hk⟩ = j then 1 else 0 else 0, fun v hv => ?_⟩
  rw [eval_eq_sum hv.le, Finset.sum_range, LinearMap.pi_apply_eq_sum_univ]
  exact Finset.sum_congr rfl fun k _ => by simp [toRow]

end Vec

namespace Mat

variable {rows rows' : Mat} {v : Vec} {n : ℕ}

theorem toRow_mem_rowSpan (mem : v ∈ rows) : v.toRow n ∈ rows.rowSpan n :=
  Submodule.subset_span ⟨v, mem, rfl⟩

theorem rowSpan_eq_range (n : ℕ) (rows : Mat) :
    rows.rowSpan n = Submodule.span ℚ (Set.range fun i : Fin rows.length => (rows.get i).toRow n) := by
  rw [rowSpan, ← Set.range_list_get, ← Set.range_comp]
  rfl

theorem independent_nil (n : ℕ) : Independent n [] :=
  linearIndependent_empty_type (ι := Fin 0)

theorem independent_cons : Independent n (v :: rows) ↔ rows.Independent n ∧ v.toRow n ∉ rows.rowSpan n := by
  have family : (fun i : Fin (v :: rows).length => ((v :: rows).get i).toRow n) =
      Fin.cons (v.toRow n) fun i : Fin rows.length => (rows.get i).toRow n := by
    funext i
    cases i using Fin.cases <;> rfl
  rw [Independent, family, linearIndependent_finCons, rowSpan_eq_range]
  rfl

theorem independent_iff_length :
    rows.Independent n ↔ rows.length = Module.finrank ℚ (rows.rowSpan n) := by
  rw [Independent, linearIndependent_iff_card_eq_finrank_span, Fintype.card_fin, rowSpan_eq_range]
  rfl

theorem toRow_mem_rowSpan_iff (width : ∀ w ∈ rows, w.length = n) (hv : v.length = n) :
    v.toRow n ∈ rows.rowSpan n ↔ ∀ x : ℕ → ℚ, (∀ w ∈ rows, w.eval x = 0) → v.eval x = 0 := by
  constructor
  · intro mem x zero
    have kernel : rows.rowSpan n ≤ (Fintype.linearCombination ℚ fun j : Fin n => x j).ker := by
      refine Submodule.span_le.mpr ?_
      rintro _ ⟨w, hw, rfl⟩
      exact (Vec.linearCombination_toRow (width w hw) x).trans (zero w hw)
    rw [← Vec.linearCombination_toRow hv]
    exact kernel mem
  · intro vanishes
    by_contra outside
    -- A functional tells the vector from the combinations, and it is the value at some point.
    obtain ⟨f, nonzero, kernel⟩ := Submodule.exists_le_ker_of_notMem outside
    obtain ⟨x, value⟩ := Vec.exists_eval_eq f
    refine nonzero ((value v hv).symm.trans (vanishes x fun w hw => ?_))
    rw [value w (width w hw)]
    exact kernel (toRow_mem_rowSpan hw)

theorem rowSpan_le (width : ∀ w ∈ rows, w.length = n) (width' : ∀ w ∈ rows', w.length = n)
    (vanish : ∀ x : ℕ → ℚ, (∀ w ∈ rows', w.eval x = 0) → ∀ w ∈ rows, w.eval x = 0) :
    rows.rowSpan n ≤ rows'.rowSpan n := by
  refine Submodule.span_le.mpr ?_
  rintro _ ⟨w, hw, rfl⟩
  exact (toRow_mem_rowSpan_iff width' (width w hw)).mpr fun x zero => vanish x zero w hw

theorem rowSpan_append_of_mem (mem : v.toRow n ∈ rows.rowSpan n) :
    Mat.rowSpan n (rows ++ [v]) = rows.rowSpan n := by
  refine le_antisymm (Submodule.span_le.mpr ?_) (Submodule.span_mono (Set.image_mono fun w hw => ?_))
  · rintro _ ⟨w, hw, rfl⟩
    rcases List.mem_append.mp hw with old | new
    · exact toRow_mem_rowSpan old
    · rwa [List.mem_singleton.mp new]
  · exact List.mem_append_left _ hw

end Mat

namespace Echelon

variable {e e' : Echelon} {v : Vec} {rows : Mat} {n : ℕ}

/-! ## What a form collects -/

/-- Each row has a one where all rows behind it have a zero. -/
theorem Reduced.independent (reduced : e.Reduced) : Mat.Independent e.size (e.rows.map (·.1)) := by
  obtain ⟨n, rows⟩ := e
  obtain ⟨-, inside, pivot, triangular⟩ := reduced
  simp only at inside pivot triangular ⊢
  induction rows with
  | nil => exact Mat.independent_nil n
  | cons d rows ih =>
    obtain ⟨hd, inside⟩ := List.forall_mem_cons.mp inside
    obtain ⟨one, pivot⟩ := List.forall_mem_cons.mp pivot
    obtain ⟨later, triangular⟩ := List.pairwise_cons.mp triangular
    have zero : Mat.rowSpan n (rows.map (·.1)) ≤
        (LinearMap.proj ⟨d.2, hd⟩ : (Fin n → ℚ) →ₗ[ℚ] ℚ).ker := by
      refine Submodule.span_le.mpr ?_
      rintro _ ⟨w, hw, rfl⟩
      obtain ⟨d', hd', rfl⟩ := List.mem_map.mp hw
      exact later d' hd'
    refine Mat.independent_cons.mpr ⟨ih inside pivot triangular, fun mem => ?_⟩
    exact one_ne_zero (one.symm.trans (zero mem))

theorem reduced_of_addAll (width : ∀ v ∈ rows, v.length = n) (run : (empty n).addAll rows = .ok e) :
    e.size = n ∧ e.Reduced := by
  obtain ⟨e', run', size, reduced, -⟩ := (reduced_empty n).exists_addAll width
  obtain rfl : e = e' := Except.ok.inj (run.symm.trans run')
  exact ⟨size, reduced⟩

theorem rowSpan_addAll (width : ∀ v ∈ rows, v.length = n) (run : (empty n).addAll rows = .ok e) :
    Mat.rowSpan n (e.rows.map (·.1)) = rows.rowSpan n := by
  obtain ⟨e', run', size, reduced, vanishes⟩ := (reduced_empty n).exists_addAll width
  obtain rfl : e = e' := Except.ok.inj (run.symm.trans run')
  have width' : ∀ w ∈ e.rows.map (·.1), w.length = n :=
    List.forall_mem_map.mpr fun d hd => (reduced.length d hd).trans size
  apply le_antisymm
  · refine Mat.rowSpan_le width' width fun x zero => ?_
    exact List.forall_mem_map.mpr (vanishes x (vanishes_empty n x) zero)
  · refine Mat.rowSpan_le width width' fun x zero => ?_
    exact ((reduced_empty n).vanishes_of_addAll width run (List.forall_mem_map.mp zero)).2

theorem length_addAll (width : ∀ v ∈ rows, v.length = n) (run : (empty n).addAll rows = .ok e) :
    e.rows.length = Module.finrank ℚ (rows.rowSpan n) := by
  obtain ⟨size, reduced⟩ := reduced_of_addAll width run
  have count := Mat.independent_iff_length.mp reduced.independent
  rwa [List.length_map, size, rowSpan_addAll width run] at count

/-! ## One more row -/

theorem addAll_append (run : (empty n).addAll rows = .ok e) {independent : Bool}
    (added : e.add v = .ok (independent, e')) : (empty n).addAll (rows ++ [v]) = .ok e' := by
  rw [addAll] at run ⊢
  rw [List.foldlM_append, run, ok_bind, List.foldlM_cons, added]
  rfl

theorem add_eq_true_iff (width : ∀ v ∈ rows, v.length = n) (run : (empty n).addAll rows = .ok e)
    (hv : v.length = n) {independent : Bool} (added : e.add v = .ok (independent, e')) :
    independent = true ↔ v.toRow n ∉ rows.rowSpan n := by
  obtain ⟨size, reduced⟩ := reduced_of_addAll width run
  obtain ⟨_, _, added', adds⟩ := reduced.exists_add (hv.trans size.symm)
  obtain ⟨rfl, rfl⟩ := Prod.mk.inj (Except.ok.inj (added'.symm.trans added))
  have width' : ∀ w ∈ rows ++ [v], w.length = n :=
    List.forall_mem_append.mpr ⟨width, List.forall_mem_singleton.mpr hv⟩
  have run' := addAll_append run added
  constructor
  · rintro rfl mem
    -- The form has grown by a row, and the combinations would be the same.
    have count := adds.count
    rw [length_addAll width' run', length_addAll width run, Mat.rowSpan_append_of_mem mem] at count
    simp at count
  · intro outside
    by_contra dependent
    have same := adds.same (Bool.eq_false_iff.mpr dependent)
    have spans := (rowSpan_addAll width' run').symm.trans ((congrArg _ (same ▸ rfl)).trans
      (rowSpan_addAll width run))
    exact outside (spans ▸ Mat.toRow_mem_rowSpan (List.mem_append_right _ (List.mem_singleton.mpr rfl)))

theorem toRow_clear {d : Vec × ℕ} (hv : v.length = n) (hd : d.1.length = n) :
    (clear v d).toRow n = v.toRow n - v.getD d.2 0 • d.1.toRow n :=
  funext fun j => getD_clear hv hd j.isLt

theorem sub_foldl_clear_mem {S : Submodule ℚ (Fin n → ℚ)} {rows : List (Vec × ℕ)}
    (length : ∀ d ∈ rows, d.1.length = n) (mem : ∀ d ∈ rows, d.1.toRow n ∈ S) (hv : v.length = n) :
    v.toRow n - (rows.foldl clear v).toRow n ∈ S := by
  induction rows generalizing v with
  | nil => simp
  | cons d rows ih =>
    obtain ⟨hd, length⟩ := List.forall_mem_cons.mp length
    obtain ⟨first, mem⟩ := List.forall_mem_cons.mp mem
    have rest := ih length mem (length_clear hv hd)
    rw [toRow_clear hv hd] at rest
    have total := S.add_mem (S.smul_mem (v.getD d.2 0) first) rest
    rw [List.foldl_cons]
    convert total using 1
    abel

theorem isZero_iff_of_add {w : Vec} (reduced : e.reduce v = .ok w) {independent : Bool}
    (added : e.add v = .ok (independent, e')) : w.isZero ↔ independent = false := by
  have pivot : w.pivot? = none ↔ w.isZero := by simp [Vec.pivot?, Vec.isZero]
  rw [add, reduced, ok_bind] at added
  rw [← pivot]
  split at added
  · rename_i none
    obtain ⟨rfl, -⟩ := Prod.mk.inj (Except.ok.inj added)
    simp [none]
  · rename_i col found
    obtain ⟨rfl, -⟩ := Prod.mk.inj (Except.ok.inj added)
    simp [found]

end Echelon

namespace Mat

variable {rows m : Mat} {n : ℕ}

/-! ## Completion -/

theorem completeStep_picked {state state' : Echelon × List ℕ} {i : ℕ}
    (step : completeStep n state i = .ok state') :
    state'.2 = state.2 ∨ state'.2 = state.2 ++ [i] := by
  obtain ⟨e, picked⟩ := state
  simp only [completeStep] at step
  split at step
  · exact .inl (Except.ok.inj step ▸ rfl)
  · obtain ⟨⟨independent, e'⟩, -, last⟩ := bind_eq_ok.mp step
    obtain rfl := Except.ok.inj last
    cases independent with
    | false => exact .inl rfl
    | true => exact .inr rfl

theorem completeSteps_picked {is : List ℕ} {state state' : Echelon × List ℕ}
    (run : is.foldlM (completeStep n) state = .ok state') :
    ∃ more, more.Sublist is ∧ state'.2 = state.2 ++ more := by
  induction is generalizing state with
  | nil =>
    obtain rfl := Except.ok.inj run
    exact ⟨[], .slnil, by simp⟩
  | cons i is ih =>
    rw [List.foldlM_cons, bind_eq_ok] at run
    obtain ⟨next, step, rest⟩ := run
    obtain ⟨more, sublist, picked⟩ := ih rest
    rcases completeStep_picked step with same | new
    · exact ⟨more, sublist.cons i, by rw [picked, same]⟩
    · exact ⟨i :: more, sublist.cons_cons i, by rw [picked, new, List.append_assoc]; rfl⟩

theorem completion_sublist {units : List ℕ} (run : completion rows n = .ok units) :
    units.Sublist (List.range n) := by
  rw [completion, bind_eq_ok] at run
  obtain ⟨e, -, run⟩ := run
  obtain ⟨state, steps, last⟩ := bind_eq_ok.mp run
  obtain rfl := Except.ok.inj last
  obtain ⟨more, sublist, picked⟩ := completeSteps_picked steps
  rwa [picked, List.nil_append]

theorem Independent.exists_completion (independent : rows.Independent n)
    (width : ∀ v ∈ rows, v.length = n) :
    ∃ units, completion rows n = .ok units ∧ rows.length + units.length = n ∧
      units.Sublist (List.range n) ∧ Regular (rows ++ units.map (Vec.unit n)) n := by
  obtain ⟨e, collected, -⟩ := (Echelon.reduced_empty n).exists_addAll width
  have count : e.rows.length = rows.length := by
    rw [Echelon.length_addAll width collected, ← independent_iff_length.mp independent]
  obtain ⟨units, run, total⟩ := Mat.exists_completion width collected count
  exact ⟨units, run, total, completion_sublist run, regular_of_completion width collected count run total⟩

end Mat

/-- Rows of length `n` are given to an empty form one after the other.  It then has as many rows as their
combinations have dimensions.  A further row is reduced by a combination of them, to zero iff it is one
itself, and it is added iff it is none.  Independent rows are completed to a regular matrix by unit
vectors, which are taken in increasing order. -/
theorem Echelon.independence_decided {n : ℕ} {rows : Mat} (width : ∀ v ∈ rows, v.length = n) :
    (∃ e, (empty n).addAll rows = .ok e ∧ e.rows.length = Module.finrank ℚ (rows.rowSpan n) ∧
      ∀ v : Vec, v.length = n →
        (∃ w, e.reduce v = .ok w ∧ w.length = n ∧ v.toRow n - w.toRow n ∈ rows.rowSpan n ∧
          (w.isZero ↔ v.toRow n ∈ rows.rowSpan n)) ∧
        ∃ independent e', e.add v = .ok (independent, e') ∧
          (independent = true ↔ v.toRow n ∉ rows.rowSpan n) ∧
          (empty n).addAll (rows ++ [v]) = .ok e') ∧
    (rows.Independent n → ∃ units, Mat.completion rows n = .ok units ∧ rows.length + units.length = n ∧
      units.Pairwise (· < ·) ∧ (∀ i ∈ units, i < n) ∧
      Mat.Regular (rows ++ units.map (Vec.unit n)) n) := by
  constructor
  · obtain ⟨e, run, -⟩ := (reduced_empty n).exists_addAll width
    refine ⟨e, run, length_addAll width run, fun v hv => ?_⟩
    obtain ⟨rfl, reduced⟩ := reduced_of_addAll width run
    obtain ⟨independent, e', added, -⟩ := reduced.exists_add hv
    have decided := add_eq_true_iff width run hv added
    have reduce : e.reduce v = .ok (e.rows.foldl clear v) :=
      reduceBy_eq reduced.length reduced.inside hv
    refine ⟨⟨_, reduce, length_foldl_clear reduced.length hv, ?_, ?_⟩,
      independent, e', added, decided, addAll_append run added⟩
    · refine sub_foldl_clear_mem reduced.length (fun d hd => ?_) hv
      -- The rows of the form combine to what the given rows combine to.
      rw [← rowSpan_addAll width run]
      exact Mat.toRow_mem_rowSpan (List.mem_map_of_mem hd)
    · rw [isZero_iff_of_add reduce added, ← not_iff_not, ← decided, Bool.not_eq_false]
  · intro independent
    obtain ⟨units, run, total, sublist, regular⟩ := independent.exists_completion width
    exact ⟨units, run, total, List.pairwise_lt_range.sublist sublist,
      fun i hi => List.mem_range.mp (sublist.subset hi), regular⟩

/-- Two rows of which the second starts before the first. -/
def Mat.crossedSample : Mat := [[0, 2, 4], [1, 1, 0]]

theorem Mat.crossedSample_independent : crossedSample.Independent 3 := by
  -- Each row is told from those behind it by a point where they vanish.
  refine independent_cons.mpr ⟨independent_cons.mpr ⟨independent_nil 3, ?_⟩, ?_⟩
  · intro mem
    have vanishes := (toRow_mem_rowSpan_iff (n := 3) (by simp) rfl).mp mem
    simpa using vanishes (fun i => if i = 0 then 1 else 0) (by simp)
  · intro mem
    have vanishes := (toRow_mem_rowSpan_iff (n := 3) (by simp) rfl).mp mem
    simpa using vanishes (fun i => if i = 0 then 1 else if i = 1 then -1 else 0) (by simp)

/-- The row `(2, 3, 2)` is a combination of the two and is reduced to zero; `(0, 0, 1)` is none and is
added; the first unit vector completes them. -/
theorem Echelon.independence_decided_crossed :
    (∀ v ∈ Mat.crossedSample, v.length = 3) ∧ Mat.crossedSample.Independent 3 ∧
    (∃ e, (empty 3).addAll Mat.crossedSample = .ok e ∧
      e.rows.length = Module.finrank ℚ (Mat.crossedSample.rowSpan 3) ∧
      (e.reduce [2, 3, 2] = .ok [0, 0, 0] ∧ Vec.toRow 3 [2, 3, 2] ∈ Mat.crossedSample.rowSpan 3) ∧
      ∃ e', e.add [0, 0, 1] = .ok (true, e') ∧ Vec.toRow 3 [0, 0, 1] ∉ Mat.crossedSample.rowSpan 3) ∧
    Mat.completion Mat.crossedSample 3 = .ok [0] ∧
    Mat.Regular (Mat.crossedSample ++ [Vec.unit 3 0]) 3 := by
  have width : ∀ v ∈ Mat.crossedSample, v.length = 3 := by simp [Mat.crossedSample]
  obtain ⟨⟨e, run, count, next⟩, completes⟩ := independence_decided width
  have collected : (empty 3).addAll Mat.crossedSample =
      .ok ⟨3, [([0, 1, 2], 1), ([1, 0, -2], 0)]⟩ := by cbv
  obtain rfl := Except.ok.inj (run.symm.trans collected)
  refine ⟨width, Mat.crossedSample_independent, ⟨_, run, count, ?_, ?_⟩, ?_⟩
  · obtain ⟨w, reduced, -, -, zero⟩ := (next [2, 3, 2] rfl).1
    have left : reduce ⟨3, [([0, 1, 2], 1), ([1, 0, -2], 0)]⟩ [2, 3, 2] = .ok [0, 0, 0] := by cbv
    obtain rfl := Except.ok.inj (reduced.symm.trans left)
    exact ⟨left, zero.mp (by decide)⟩
  · obtain ⟨independent, e', added, decided, -⟩ := (next [0, 0, 1] rfl).2
    have found : (add ⟨3, [([0, 1, 2], 1), ([1, 0, -2], 0)]⟩ [0, 0, 1]).map (·.1) = .ok true := by cbv
    obtain rfl : independent = true := by simpa [added, Except.map] using found
    exact ⟨e', added, decided.mp rfl⟩
  · obtain ⟨units, run, -, -, -, regular⟩ := completes Mat.crossedSample_independent
    have found : Mat.completion Mat.crossedSample 3 = .ok [0] := by cbv
    obtain rfl := Except.ok.inj (run.symm.trans found)
    exact ⟨found, regular⟩

namespace Mat

variable {m : Mat} {n : ℕ}

/-! ## Inverses -/

theorem mul_eq_identity {a b : Mat} (ha : a.HasShape n n) (hb : b.HasShape n n)
    (undone : ∀ x : ℕ → ℚ, ∀ i < n, a.image (b.image x) i = x i) : a.mul b = .ok (identity n) := by
  rw [mul_eq hb]
  refine congrArg _ ((ha.mul hb).eq_of_entry (hasShape_identity n) fun i hi j hj => ?_)
  rw [(ha.mul hb).entry_eq_image hi hj, image_mul ha hb _ hi, undone _ i hi,
    (hasShape_identity n).entry_eq_image hi hj, image_identity hi]

/-- Elimination gives a square matrix of non-zero determinant its inverse on both sides, and gives none
to one of determinant zero; the test for independence tells the two apart. -/
theorem inversion_decided (square : m.HasShape n n) :
    ((m.toMatrix n).det ≠ 0 → ∃ w, m.invert? = some w ∧ w.mul m = .ok (identity n) ∧
      m.mul w = .ok (identity n)) ∧
    ((m.toMatrix n).det = 0 → m.invert? = none) ∧
    m.isInvertible = .ok m.invert?.isSome := by
  -- Both eliminations decide regularity, and the determinant tells it.
  have regular : m.Regular n ↔ (m.toMatrix n).det ≠ 0 := by
    rw [← isUnit_iff_ne_zero, ← Matrix.isUnit_iff_isUnit_det]
    exact ⟨fun regular => regular.isUnit, fun unit => ⟨square, unit⟩⟩
  have found : m.invert?.isSome ↔ m.Regular n := by
    rw [Option.isSome_iff_exists]
    refine ⟨?_, fun regular => regular.exists_invert?⟩
    rintro ⟨w, run⟩
    exact (invert?_isInverse square run).regular square
  refine ⟨fun nonzero => ?_, fun zero => ?_, ?_⟩
  · obtain ⟨w, run⟩ := (regular.mpr nonzero).exists_invert?
    have inverse := invert?_isInverse square run
    exact ⟨w, run,
      mul_eq_identity inverse.shape square fun x i hi => inverse.image_image square x hi,
      mul_eq_identity square inverse.shape fun x i hi => inverse.image_image' square x hi⟩
  · rw [← Option.not_isSome_iff_eq_none, found, regular]
    exact not_not.mpr zero
  · obtain ⟨b, test, decided⟩ := square.exists_isInvertible
    rw [test, Bool.eq_iff_iff.mpr (decided.trans found.symm)]

/-- The first column of `((0, 2), (1, 3))` has its pivot in the second row; the rows of
`((1, 2), (2, 4))` depend on each other. -/
theorem inversion_decided_exchanged :
    HasShape [[0, 2], [1, 3]] 2 2 ∧ (toMatrix 2 [[0, 2], [1, 3]]).det ≠ 0 ∧
    invert? [[0, 2], [1, 3]] = some [[-3 / 2, 1], [1 / 2, 0]] ∧
    mul [[-3 / 2, 1], [1 / 2, 0]] [[0, 2], [1, 3]] = .ok (identity 2) ∧
    mul [[0, 2], [1, 3]] [[-3 / 2, 1], [1 / 2, 0]] = .ok (identity 2) ∧
    isInvertible [[0, 2], [1, 3]] = .ok true ∧
    HasShape [[1, 2], [2, 4]] 2 2 ∧ (toMatrix 2 [[1, 2], [2, 4]]).det = 0 ∧
    invert? [[1, 2], [2, 4]] = none ∧ isInvertible [[1, 2], [2, 4]] = .ok false := by
  have square : HasShape [[0, 2], [1, 3]] 2 2 := ⟨rfl, by simp⟩
  have square' : HasShape [[1, 2], [2, 4]] 2 2 := ⟨rfl, by simp⟩
  have nonzero : (toMatrix 2 [[0, 2], [1, 3]]).det ≠ 0 := by
    simp [Matrix.det_fin_two, toMatrix, entry]
  have zero : (toMatrix 2 [[1, 2], [2, 4]]).det = 0 := by
    norm_num [Matrix.det_fin_two, toMatrix, entry]
  have run : invert? [[0, 2], [1, 3]] = some [[-3 / 2, 1], [1 / 2, 0]] := by decide +kernel
  obtain ⟨regular, -, test⟩ := inversion_decided square
  obtain ⟨-, singular, test'⟩ := inversion_decided square'
  obtain ⟨w, run', left, right⟩ := regular nonzero
  obtain rfl := Option.some.inj (run'.symm.trans run)
  rw [run] at test
  rw [singular zero] at test'
  exact ⟨square, nonzero, run, left, right, test, square', zero, singular zero, test'⟩

end Mat

end SkewBox
