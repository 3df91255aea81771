import SkewBox.Proofs.Inverse
import SkewBox.Proofs.Outcome

/-!
# Echelon forms

The rows of an echelon form have a one in their own pivot column and zeros in the pivot columns
of the rows before them.  Where the rows that were added vanish, the collected rows vanish; a form
with as many rows as dimensions vanishes at zero only.

* `Echelon.Reduced`: the shape of an echelon form.
* `Mat.regular_of_isInvertible`, `Mat.regular_of_completion`: matrices that pass the test, or that
  unit vectors complete, are regular.
-/

namespace SkewBox

theorem Vec.getD_eq_eval {v : Vec} {j : ℕ} (inside : j < v.length) :
    v.getD j 0 = v.eval fun t => if t = j then (1 : ℚ) else 0 := by
  rw [eval_eq_sum le_rfl, Finset.sum_eq_single_of_mem j (Finset.mem_range.mpr inside)]
  · simp
  · intro t _ other
    simp [other]

theorem Vec.getD_map_div (c : ℚ) (v : Vec) (j : ℕ) :
    (v.map (· / c)).getD j 0 = v.getD j 0 / c := by
  by_cases inside : j < v.length
  · simp [inside]
  · rw [List.getD_eq_default _ _ (by simpa using inside), List.getD_eq_default _ _ (by omega),
      zero_div]

theorem Vec.pivot?_eq_some {v : Vec} {col : ℕ} (h : v.pivot? = some col) :
    col < v.length ∧ v.getD col 0 ≠ 0 := by
  obtain ⟨inside, nonzero, _⟩ := List.findIdx?_eq_some_iff_getElem.mp h
  refine ⟨inside, ?_⟩
  rw [List.getD_eq_getElem _ _ inside]
  simpa using nonzero

namespace Echelon

/-- The form's rows have a one in their pivot column and zeros in those of the rows before. -/
structure Reduced (e : Echelon) : Prop where
  length : ∀ d ∈ e.rows, d.1.length = e.size
  inside : ∀ d ∈ e.rows, d.2 < e.size
  pivot : ∀ d ∈ e.rows, d.1.getD d.2 0 = 1
  triangular : e.rows.Pairwise fun d d' => d'.1.getD d.2 0 = 0

/-- The form's rows vanish at `x`. -/
def Vanishes (e : Echelon) (x : ℕ → ℚ) : Prop := ∀ d ∈ e.rows, d.1.eval x = 0

theorem reduced_empty (n : ℕ) : (empty n).Reduced :=
  ⟨by simp [empty], by simp [empty], by simp [empty], List.Pairwise.nil⟩

theorem vanishes_empty (n : ℕ) (x : ℕ → ℚ) : (empty n).Vanishes x := by simp [Vanishes, empty]

/-! ## Reducing a row -/

/-- The row with its entry in one pivot column cleared. -/
def clear (v : Vec) (d : Vec × ℕ) : Vec :=
  if v.getD d.2 0 = 0 then v else Vec.addScaled (-v.getD d.2 0) v d.1

section Reduce

variable {rows : List (Vec × ℕ)} {v : Vec} {d : Vec × ℕ} {n : ℕ}

theorem length_clear (hv : v.length = n) (hd : d.1.length = n) : (clear v d).length = n := by
  unfold clear
  split
  · exact hv
  · rw [Vec.length_addScaled _ (hv.trans hd.symm), hv]

theorem eval_clear (hv : v.length = n) (hd : d.1.length = n) (x : ℕ → ℚ) :
    (clear v d).eval x = v.eval x - v.getD d.2 0 * d.1.eval x := by
  unfold clear
  split
  · rename_i zero
    rw [zero, zero_mul, sub_zero]
  · rw [Vec.eval_addScaled _ (hv.trans hd.symm), Rat.cast_id, neg_mul, ← sub_eq_add_neg]

theorem getD_clear (hv : v.length = n) (hd : d.1.length = n) {j : ℕ} (hj : j < n) :
    (clear v d).getD j 0 = v.getD j 0 - v.getD d.2 0 * d.1.getD j 0 := by
  rw [Vec.getD_eq_eval (by rwa [length_clear hv hd]), eval_clear hv hd,
    ← Vec.getD_eq_eval (by rwa [hv]), ← Vec.getD_eq_eval (by rwa [hd])]

theorem reduceBy_eq (length : ∀ d ∈ rows, d.1.length = n) (inside : ∀ d ∈ rows, d.2 < n)
    (hv : v.length = n) : reduceBy rows v = .ok (rows.foldl clear v) := by
  induction rows generalizing v with
  | nil => rfl
  | cons d rows ih =>
    have hd := length d (List.mem_cons_self ..)
    have entry : v[d.2]? = some (v.getD d.2 0) := by
      have bound : d.2 < v.length := hv ▸ inside d (List.mem_cons_self ..)
      rw [List.getD_eq_getElem _ _ bound, List.getElem?_eq_getElem bound]
    simp only [reduceBy, entry]
    exact ih (fun d hd => length d (List.mem_cons_of_mem _ hd))
      (fun d hd => inside d (List.mem_cons_of_mem _ hd)) (length_clear hv hd)

theorem length_foldl_clear (length : ∀ d ∈ rows, d.1.length = n) (hv : v.length = n) :
    (rows.foldl clear v).length = n := by
  induction rows generalizing v with
  | nil => exact hv
  | cons d rows ih =>
    exact ih (fun d hd => length d (List.mem_cons_of_mem _ hd))
      (length_clear hv (length d (List.mem_cons_self ..)))

theorem eval_foldl_clear (length : ∀ d ∈ rows, d.1.length = n) (hv : v.length = n) {x : ℕ → ℚ}
    (zero : ∀ d ∈ rows, d.1.eval x = 0) : (rows.foldl clear v).eval x = v.eval x := by
  induction rows generalizing v with
  | nil => rfl
  | cons d rows ih =>
    have hd := length d (List.mem_cons_self ..)
    rw [List.foldl_cons, ih (fun d hd => length d (List.mem_cons_of_mem _ hd))
      (length_clear hv hd) (fun d hd => zero d (List.mem_cons_of_mem _ hd)), eval_clear hv hd,
      zero d (List.mem_cons_self ..), mul_zero, sub_zero]

theorem getD_foldl_clear_of_zero (length : ∀ d ∈ rows, d.1.length = n) (hv : v.length = n)
    {j : ℕ} (hj : j < n) (zero : ∀ d ∈ rows, d.1.getD j 0 = 0) :
    (rows.foldl clear v).getD j 0 = v.getD j 0 := by
  rw [Vec.getD_eq_eval (by rwa [length_foldl_clear length hv]), Vec.getD_eq_eval (by rwa [hv])]
  refine eval_foldl_clear length hv fun d hd => ?_
  rw [← Vec.getD_eq_eval (by rwa [length d hd]), zero d hd]

end Reduce

namespace Reduced

variable {e : Echelon} {v : Vec}

theorem getD_reduce (reduced : e.Reduced) (hv : v.length = e.size) {d : Vec × ℕ}
    (hd : d ∈ e.rows) : (e.rows.foldl clear v).getD d.2 0 = 0 := by
  obtain ⟨n, rows⟩ := e
  obtain ⟨length, inside, pivot, triangular⟩ := reduced
  simp only at length inside pivot triangular hv hd ⊢
  induction rows generalizing v with
  | nil => exact absurd hd (List.not_mem_nil)
  | cons first rows ih =>
    have hfirst := length first (List.mem_cons_self ..)
    have hlength := fun d hd => length d (List.mem_cons_of_mem first hd)
    obtain ⟨later, triangular⟩ := List.pairwise_cons.mp triangular
    -- The first row clears its own column, and the rows behind it are zero there; the columns of
    -- those are cleared later.
    rcases List.mem_cons.mp hd with rfl | hd
    · have col := inside d (List.mem_cons_self ..)
      rw [List.foldl_cons, getD_foldl_clear_of_zero hlength (length_clear hv hfirst) col later,
        getD_clear hv hfirst col, pivot d (List.mem_cons_self ..), mul_one, sub_self]
    · exact ih (length_clear hv hfirst) hd hlength
        (fun d hd => inside d (List.mem_cons_of_mem _ hd))
        (fun d hd => pivot d (List.mem_cons_of_mem _ hd)) triangular

end Reduced

/-! ## Adding a row -/

/-- What adding a row to an echelon form gives. -/
structure Added (e : Echelon) (v : Vec) (independent : Bool) (e' : Echelon) : Prop where
  size : e'.size = e.size
  reduced : e'.Reduced
  count : e'.rows.length = e.rows.length + independent.toNat
  same : independent = false → e' = e
  vanishes : ∀ x, e.Vanishes x → v.eval x = 0 → e'.Vanishes x

theorem Reduced.exists_add {e : Echelon} {v : Vec} (reduced : e.Reduced) (hv : v.length = e.size) :
    ∃ independent e', e.add v = .ok (independent, e') ∧ Added e v independent e' := by
  have reduce : e.reduce v = .ok (e.rows.foldl clear v) :=
    reduceBy_eq reduced.length reduced.inside hv
  have length := length_foldl_clear reduced.length hv
  generalize rest : e.rows.foldl clear v = w at reduce length
  cases found : w.pivot? with
  | none =>
    refine ⟨false, e, ?_, rfl, reduced, rfl, fun _ => rfl, fun _ zero _ => zero⟩
    simp only [add, reduce, ok_bind, found]
    rfl
  | some col =>
    obtain ⟨inside, nonzero⟩ := Vec.pivot?_eq_some found
    have entry : ∀ j, (w.map (· / w.getD col 0)).getD j 0 = w.getD j 0 / w.getD col 0 :=
      Vec.getD_map_div _ w
    -- What is left of the row is divided by its first entry and put behind the others.
    refine ⟨true, { e with rows := e.rows ++ [(w.map (· / w.getD col 0), col)] }, ?_, rfl, ?_,
      by simp, nofun, fun x zero hx => ?_⟩
    · simp only [add, reduce, ok_bind, found]
      rfl
    · constructor
      · intro d hd
        rcases List.mem_append.mp hd with hd | hd
        · exact reduced.length d hd
        · rw [List.mem_singleton.mp hd, List.length_map, length]
      · intro d hd
        rcases List.mem_append.mp hd with hd | hd
        · exact reduced.inside d hd
        · rw [List.mem_singleton.mp hd]
          exact length ▸ inside
      · intro d hd
        rcases List.mem_append.mp hd with hd | hd
        · exact reduced.pivot d hd
        · rw [List.mem_singleton.mp hd, entry, div_self nonzero]
      · refine List.pairwise_append.mpr ⟨reduced.triangular, List.pairwise_singleton _ _, ?_⟩
        intro d hd d' hd'
        -- The new row was reduced by all others, so it is zero in their pivot columns.
        rw [List.mem_singleton.mp hd', entry, ← rest, reduced.getD_reduce hv hd, zero_div]
    · intro d hd
      rcases List.mem_append.mp hd with hd | hd
      · exact zero d hd
      · rw [List.mem_singleton.mp hd, Vec.eval_map_div, ← rest,
          eval_foldl_clear reduced.length hv zero, hx, zero_div]

/-! ## Full forms -/

namespace Reduced

variable {e : Echelon}

theorem nodup_pivots (reduced : e.Reduced) : (e.rows.map (·.2)).Nodup := by
  refine List.pairwise_map.mpr (reduced.triangular.imp_of_mem ?_)
  intro d d' _ hd' zero same
  rw [same, reduced.pivot d' hd'] at zero
  exact one_ne_zero zero

theorem card_pivots (reduced : e.Reduced) : (e.rows.map (·.2)).toFinset.card = e.rows.length := by
  rw [List.toFinset_card_of_nodup reduced.nodup_pivots, List.length_map]

theorem pivots_subset (reduced : e.Reduced) : (e.rows.map (·.2)).toFinset ⊆ Finset.range e.size := by
  intro i hi
  obtain ⟨d, hd, rfl⟩ := List.mem_map.mp (List.mem_toFinset.mp hi)
  exact Finset.mem_range.mpr (reduced.inside d hd)

theorem exists_pivot (reduced : e.Reduced) (full : e.rows.length = e.size) {j : ℕ}
    (inside : j < e.size) : ∃ d ∈ e.rows, d.2 = j := by
  have card : (Finset.range e.size).card ≤ (e.rows.map (·.2)).toFinset.card := by
    rw [Finset.card_range, reduced.card_pivots, full]
  -- As many different pivot columns as there are columns.
  have all := Finset.eq_of_subset_of_card_le reduced.pivots_subset card
  have mem : j ∈ (e.rows.map (·.2)).toFinset := all ▸ Finset.mem_range.mpr inside
  exact List.mem_map.mp (List.mem_toFinset.mp mem)

theorem kernel (reduced : e.Reduced) (full : e.rows.length = e.size) {x : ℕ → ℚ}
    (zero : e.Vanishes x) {j : ℕ} (inside : j < e.size) : x j = 0 := by
  -- From the last row on: a row reads its own pivot column and those of the rows behind it.
  have suffixes : ∀ before behind, before ++ behind = e.rows → ∀ d ∈ behind, x d.2 = 0 := by
    intro before behind
    induction behind generalizing before with
    | nil => intro _ d hd; exact absurd hd List.not_mem_nil
    | cons d behind ih =>
      intro all
      have later : ∀ d' ∈ behind, x d'.2 = 0 := ih (before ++ [d]) (by simp [all])
      have hd : d ∈ e.rows := all ▸ List.mem_append_right _ (List.mem_cons_self ..)
      have earlier : ∀ d' ∈ before, d.1.getD d'.2 0 = 0 := by
        intro d' hd'
        have triangular := reduced.triangular
        rw [← all, List.pairwise_append] at triangular
        exact triangular.2.2 d' hd' d (List.mem_cons_self ..)
      have value : d.1.eval x = x d.2 := by
        rw [Vec.eval_eq_sum (reduced.length d hd).le,
          Finset.sum_eq_single_of_mem d.2 (Finset.mem_range.mpr (reduced.inside d hd))]
        · rw [reduced.pivot d hd, Rat.cast_one, one_mul]
        · intro j hj other
          obtain ⟨d', hd', rfl⟩ := reduced.exists_pivot full (Finset.mem_range.mp hj)
          rw [← all, List.mem_append, List.mem_cons] at hd'
          -- The row is zero in the columns before it; behind it the point is zero.
          rcases hd' with hd' | rfl | hd'
          · rw [earlier d' hd', Rat.cast_zero, zero_mul]
          · exact absurd rfl other
          · rw [later d' hd', mul_zero]
      intro d' hd'
      rcases List.mem_cons.mp hd' with rfl | hd'
      · rw [← value]
        exact zero d' hd
      · exact later d' hd'
  obtain ⟨d, hd, rfl⟩ := reduced.exists_pivot full inside
  exact suffixes [] e.rows rfl d hd

end Reduced

/-! ## Adding several rows -/

theorem Reduced.exists_addAll {e : Echelon} {rows : List Vec} (reduced : e.Reduced)
    (length : ∀ v ∈ rows, v.length = e.size) :
    ∃ e', e.addAll rows = .ok e' ∧ e'.size = e.size ∧ e'.Reduced ∧
      ∀ x, e.Vanishes x → (∀ v ∈ rows, v.eval x = 0) → e'.Vanishes x := by
  induction rows generalizing e with
  | nil => exact ⟨e, rfl, rfl, reduced, fun x zero _ => zero⟩
  | cons v rows ih =>
    obtain ⟨independent, e₁, run, added⟩ := reduced.exists_add (length v (List.mem_cons_self ..))
    obtain ⟨e₂, runs, size, reduced₂, vanishes⟩ := ih added.reduced fun w hw => by
      rw [added.size]
      exact length w (List.mem_cons_of_mem _ hw)
    refine ⟨e₂, ?_, size.trans added.size, reduced₂, fun x zero all => ?_⟩
    · rw [addAll] at runs ⊢
      rw [List.foldlM_cons, run]
      exact runs
    · exact vanishes x (added.vanishes x zero (all v (List.mem_cons_self ..)))
        fun w hw => all w (List.mem_cons_of_mem _ hw)

end Echelon

/-! ## Regular matrices -/

namespace Mat

variable {m : Mat} {n : ℕ}

theorem HasShape.forall_eval_eq_zero {c : ℕ} (shape : m.HasShape n c) {x : ℕ → ℚ}
    (zero : ∀ i < n, m.image x i = 0) : ∀ row ∈ m, row.eval x = 0 := by
  intro row mem
  obtain ⟨i, hi, rfl⟩ := List.mem_iff_getElem.mp mem
  rw [← image_of_lt hi]
  exact zero i (shape.length ▸ hi)

theorem regular_of_isInvertible (shape : m.HasShape n n) (h : m.isInvertible = .ok true) :
    m.Regular n := by
  refine .of_kernel shape fun x zero j inside => ?_
  have nonempty : 0 < n := by omega
  have width := shape.width_eq nonempty
  have notEmpty : m.isEmpty = false := by
    cases m with
    | nil => exact absurd shape.length nonempty.ne
    | cons _ _ => rfl
  have lengths : ∀ v ∈ m, v.length = (Echelon.empty m.width).size := fun v hv =>
    (shape.width v hv).trans width.symm
  obtain ⟨e, run, size, reduced, vanishes⟩ := (Echelon.reduced_empty m.width).exists_addAll lengths
  -- The test compares the rank, which is the number of collected rows, with the number of rows.
  have full : e.rows.length = n := by
    rw [← shape.length]
    simpa [isInvertible, rank, run, notEmpty, pure, Except.pure] using h
  have rows : ∀ v ∈ m, v.eval x = 0 := shape.forall_eval_eq_zero zero
  have size' : e.size = n := size.trans width
  exact reduced.kernel (full.trans size'.symm) (vanishes x (Echelon.vanishes_empty _ x) rows)
    (size'.symm ▸ inside)

/-- The state of a completion: the form vanishes where the given form and the chosen unit vectors
do. -/
structure Completing (n : ℕ) (e₀ : Echelon) (state : Echelon × List ℕ) : Prop where
  size : state.1.size = n
  reduced : state.1.Reduced
  count : state.1.rows.length = e₀.rows.length + state.2.length
  inside : ∀ i ∈ state.2, i < n
  vanishes : ∀ x, e₀.Vanishes x → (∀ i ∈ state.2, x i = 0) → state.1.Vanishes x

theorem Completing.step {e₀ : Echelon} {state state' : Echelon × List ℕ} {i : ℕ} (hi : i < n)
    (completing : Completing n e₀ state) (h : completeStep n state i = .ok state') :
    Completing n e₀ state' := by
  obtain ⟨e, picked⟩ := state
  obtain ⟨size, reduced, count, inside, vanishes⟩ := completing
  simp only at size reduced count inside vanishes
  obtain ⟨independent, e', run, added⟩ :=
    reduced.exists_add (v := Vec.unit n i) (by rw [Vec.length_unit, size])
  simp only [completeStep, run, ok_bind] at h
  split at h
  · -- The form was full already.
    obtain rfl : (e, picked) = state' := Except.ok.inj h
    exact ⟨size, reduced, count, inside, vanishes⟩
  · obtain rfl : (e', if independent then picked ++ [i] else picked) = state' := Except.ok.inj h
    cases independent with
    | false =>
      -- The unit vector depends on what was collected, and nothing changes.
      obtain rfl := added.same rfl
      exact ⟨size, reduced, count, inside, vanishes⟩
    | true =>
      refine ⟨added.size.trans size, added.reduced, ?_, fun j hj => ?_, fun x zero units => ?_⟩
      · simp [added.count, count, add_assoc]
      · rcases List.mem_append.mp hj with hj | hj
        · exact inside j hj
        · rwa [List.mem_singleton.mp hj]
      · refine added.vanishes x
          (vanishes x zero fun j hj => units j (List.mem_append_left _ hj)) ?_
        rw [Vec.eval_unit hi]
        exact units i (List.mem_append_right _ (List.mem_singleton.mpr rfl))

theorem regular_of_completion {rows : Mat} (length : ∀ v ∈ rows, v.length = n) {e : Echelon}
    (collected : (Echelon.empty n).addAll rows = .ok e) (independent : e.rows.length = rows.length)
    {units : List ℕ} (h : completion rows n = .ok units) (total : rows.length + units.length = n) :
    Regular (rows ++ units.map (Vec.unit n)) n := by
  obtain ⟨e', run, size, reduced, vanishes⟩ := (Echelon.reduced_empty n).exists_addAll length
  obtain rfl : e = e' := Except.ok.inj (collected.symm.trans run)
  rw [completion, collected, ok_bind, bind_eq_ok] at h
  obtain ⟨⟨full, picked⟩, fold, h⟩ := h
  obtain rfl : picked = units := Except.ok.inj h
  have completing : Completing n e (full, picked) :=
    foldlM_ok_induction (Completing n e)
      ⟨size, reduced, rfl, fun _ hi => absurd hi List.not_mem_nil, fun _ zero _ => zero⟩
      (fun i hi state state' inv step => inv.step (List.mem_range.mp hi) step) fold
  have shape : HasShape (rows ++ picked.map (Vec.unit n)) n n := by
    refine ⟨by simp [total], fun row mem => ?_⟩
    rcases List.mem_append.mp mem with mem | mem
    · exact length row mem
    · obtain ⟨i, _, rfl⟩ := List.mem_map.mp mem
      exact Vec.length_unit n i
  refine .of_kernel shape fun x zero j inside => ?_
  have all := shape.forall_eval_eq_zero zero
  have vanish : full.Vanishes x := by
    refine completing.vanishes x ?_ fun i hi => ?_
    · exact vanishes x (Echelon.vanishes_empty n x) fun v hv => all v (List.mem_append_left _ hv)
    · rw [← Vec.eval_unit (completing.inside i hi) x]
      exact all _ (List.mem_append_right _ (List.mem_map_of_mem hi))
  -- The collected rows are the given ones and one for each unit vector: the form is full.
  have count : full.rows.length = full.size := by
    rw [completing.count, independent, completing.size]
    exact total
  exact completing.reduced.kernel count vanish (completing.size.symm ▸ inside)

end Mat

end SkewBox
