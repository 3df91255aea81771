import SkewBox.Proofs.Echelon

/-!
# The test for independence

An echelon form vanishes only where every row that was added vanishes, and it never collects more rows
than there are dimensions.  So a regular matrix fills the form, and the test decides regularity.

* `Mat.HasShape.exists_isInvertible`: the test of a square matrix decides whether it is regular.
* `Mat.exists_completion`: independent rows can be completed to as many as there are dimensions.
-/

namespace SkewBox

theorem Vec.eval_of_pivot?_eq_none {v : Vec} (h : v.pivot? = none) (x : ℕ → ℚ) : v.eval x = 0 := by
  have zero : ∀ c ∈ v, c = 0 := by simpa [Vec.pivot?] using h
  rw [List.eq_replicate_of_mem zero]
  exact eval_zeros v.length x

namespace Echelon

variable {e e' : Echelon} {x : ℕ → ℚ}

theorem Reduced.vanishes_of_add {v : Vec} {independent : Bool} (reduced : e.Reduced)
    (hv : v.length = e.size) (run : e.add v = .ok (independent, e')) (zero : e'.Vanishes x) :
    e.Vanishes x ∧ v.eval x = 0 := by
  have reduce : e.reduce v = .ok (e.rows.foldl clear v) :=
    reduceBy_eq reduced.length reduced.inside hv
  -- Where the collected rows vanish, the row and what is left of it have the same value.
  have left : e.Vanishes x → (e.rows.foldl clear v).eval x = v.eval x :=
    eval_foldl_clear reduced.length hv
  generalize e.rows.foldl clear v = w at reduce left
  simp only [add, reduce, ok_bind] at run
  cases found : w.pivot? with
  | none =>
    simp only [found] at run
    obtain ⟨-, rfl⟩ := Prod.mk.inj (Except.ok.inj run)
    exact ⟨zero, (left zero).symm.trans (Vec.eval_of_pivot?_eq_none found x)⟩
  | some col =>
    simp only [found] at run
    obtain ⟨-, rfl⟩ := Prod.mk.inj (Except.ok.inj run)
    have old : e.Vanishes x := fun d hd => zero d (List.mem_append_left _ hd)
    have new := zero _ (List.mem_append_right _ (List.mem_singleton.mpr rfl))
    rw [Vec.eval_map_div, div_eq_zero_iff, Rat.cast_id] at new
    exact ⟨old, (left old).symm.trans (new.resolve_right (Vec.pivot?_eq_some found).2)⟩

theorem Reduced.vanishes_of_addAll {rows : List Vec} (reduced : e.Reduced)
    (length : ∀ v ∈ rows, v.length = e.size) (run : e.addAll rows = .ok e') (zero : e'.Vanishes x) :
    e.Vanishes x ∧ ∀ v ∈ rows, v.eval x = 0 := by
  induction rows generalizing e with
  | nil =>
    obtain rfl := Except.ok.inj run
    exact ⟨zero, by simp⟩
  | cons v rows ih =>
    obtain ⟨hv, length⟩ := List.forall_mem_cons.mp length
    obtain ⟨independent, e₁, first, added⟩ := reduced.exists_add hv
    have rest : e₁.addAll rows = .ok e' := by
      rw [addAll, List.foldlM_cons, first] at run
      exact run
    obtain ⟨zero₁, all⟩ := ih added.reduced (fun w hw => (length w hw).trans added.size.symm) rest
    obtain ⟨zero₀, head⟩ := reduced.vanishes_of_add hv first zero₁
    exact ⟨zero₀, List.forall_mem_cons.mpr ⟨head, all⟩⟩

theorem Reduced.length_le (reduced : e.Reduced) : e.rows.length ≤ e.size := by
  have card := Finset.card_le_card reduced.pivots_subset
  rwa [reduced.card_pivots, Finset.card_range] at card

/-- The rows of the form with zero rows behind them, as many as make the matrix square. -/
def padded (e : Echelon) : Mat :=
  e.rows.map (·.1) ++ List.replicate (e.size - e.rows.length) (Vec.zeros e.size)

theorem Reduced.hasShape_padded (reduced : e.Reduced) : e.padded.HasShape e.size e.size := by
  have le := reduced.length_le
  refine ⟨by simp only [padded, List.length_append, List.length_map, List.length_replicate]; omega, ?_⟩
  intro v hv
  rcases List.mem_append.mp hv with hv | hv
  · obtain ⟨d, hd, rfl⟩ := List.mem_map.mp hv
    exact reduced.length d hd
  · rw [List.eq_of_mem_replicate hv, Vec.zeros, List.length_replicate]

theorem Reduced.full_of_kernel (reduced : e.Reduced)
    (kernel : ∀ x, e.Vanishes x → ∀ j < e.size, x j = 0) : e.rows.length = e.size := by
  by_contra short
  have short : e.rows.length < e.size := lt_of_le_of_ne reduced.length_le short
  -- With zero rows behind it the form would be a regular matrix, whose rows take any values.
  have shape := reduced.hasShape_padded
  have regular : e.padded.Regular e.size := by
    refine .of_kernel shape fun x zero => kernel x fun d hd => ?_
    exact shape.forall_eval_eq_zero zero d.1 (List.mem_append_left _ (List.mem_map_of_mem hd))
  obtain ⟨w, found⟩ := regular.exists_invert?
  have inverse := Mat.invert?_isInverse shape found
  have one := inverse.image_image' shape (fun _ => (1 : ℚ)) short
  have row : e.padded.getD e.rows.length [] = Vec.zeros e.size := by
    have inside : 0 < e.size - e.rows.length := by omega
    simp [padded, List.getD_eq_getElem?_getD, inside]
  rw [Mat.image, row, Vec.eval_zeros] at one
  exact zero_ne_one one

end Echelon

namespace Mat

variable {m : Mat} {n : ℕ}

theorem HasShape.exists_isInvertible (shape : m.HasShape n n) :
    ∃ b, m.isInvertible = .ok b ∧ (b = true ↔ m.Regular n) := by
  rcases Nat.eq_zero_or_pos n with rfl | nonempty
  · obtain rfl := List.length_eq_zero_iff.mp shape.length
    exact ⟨true, rfl, iff_of_true rfl (.of_kernel shape fun _ _ j hj => absurd hj (Nat.not_lt_zero j))⟩
  have width := shape.width_eq nonempty
  -- The test counts independent rows, which are all of them exactly if the matrix has no kernel.
  have notEmpty : m.isEmpty = false := by
    rw [List.isEmpty_eq_false_iff, ← List.length_pos_iff, shape.length]
    exact nonempty
  have lengths : ∀ v ∈ m, v.length = (Echelon.empty m.width).size := fun v hv =>
    (shape.width v hv).trans width.symm
  obtain ⟨e, run, size, reduced, -⟩ := (Echelon.reduced_empty m.width).exists_addAll lengths
  have test : m.isInvertible = .ok (decide (e.rows.length = m.length)) := by
    simp [isInvertible, rank, run, notEmpty, pure, Except.pure]
  refine ⟨_, test, fun yes => regular_of_isInvertible shape (test.trans (congrArg _ yes)),
    fun regular => ?_⟩
  have size' : e.size = n := size.trans width
  have full : e.rows.length = e.size := by
    refine reduced.full_of_kernel fun x zero j hj => regular.kernel (fun i hi => ?_) (size' ▸ hj)
    have rows := ((Echelon.reduced_empty m.width).vanishes_of_addAll lengths run zero).2
    have inside : i < m.length := shape.length ▸ hi
    rw [image_of_lt inside]
    exact rows _ (List.getElem_mem inside)
  simp [full, size', shape.length]

/-! ## Completion -/

/-- One unit vector is tried: wherever the form vanishes afterwards, it did before, and the coordinate
is zero. -/
theorem exists_completeStep {state : Echelon × List ℕ} {i : ℕ} (hi : i < n) (size : state.1.size = n)
    (reduced : state.1.Reduced) :
    ∃ state', completeStep n state i = .ok state' ∧ state'.1.size = n ∧ state'.1.Reduced ∧
      ∀ x, state'.1.Vanishes x → state.1.Vanishes x ∧ x i = 0 := by
  obtain ⟨e, picked⟩ := state
  simp only at size reduced
  by_cases full : e.full
  · refine ⟨(e, picked), by simp [completeStep, full, pure, Except.pure], size, reduced, fun x zero => ?_⟩
    have full : e.rows.length = e.size := by simpa [Echelon.full] using full
    exact ⟨zero, reduced.kernel full zero (size.symm ▸ hi)⟩
  · have length : (Vec.unit n i).length = e.size := by rw [Vec.length_unit, size]
    obtain ⟨independent, e', run, added⟩ := reduced.exists_add length
    refine ⟨(e', if independent then picked ++ [i] else picked), ?_, added.size.trans size,
      added.reduced, fun x zero => ?_⟩
    · simp [completeStep, full, run, pure, Except.pure]
    · obtain ⟨before, unit⟩ := reduced.vanishes_of_add length run zero
      exact ⟨before, by rwa [Vec.eval_unit hi] at unit⟩

theorem exists_completeSteps {is : List ℕ} (inside : ∀ i ∈ is, i < n) (state : Echelon × List ℕ)
    (size : state.1.size = n) (reduced : state.1.Reduced) :
    ∃ state', is.foldlM (completeStep n) state = .ok state' ∧ state'.1.size = n ∧ state'.1.Reduced ∧
      ∀ x, state'.1.Vanishes x → ∀ i ∈ is, x i = 0 := by
  -- What is known of the coordinates tried so far stays, since the form only grows.
  suffices run : ∃ state', is.foldlM (completeStep n) state = .ok state' ∧ state'.1.size = n ∧
      state'.1.Reduced ∧ ∀ x, state'.1.Vanishes x → state.1.Vanishes x ∧ ∀ i ∈ is, x i = 0 by
    obtain ⟨state', runs, size', reduced', zero⟩ := run
    exact ⟨state', runs, size', reduced', fun x vanishes => (zero x vanishes).2⟩
  induction is generalizing state with
  | nil => exact ⟨state, rfl, size, reduced, fun x zero => ⟨zero, by simp⟩⟩
  | cons i is ih =>
    obtain ⟨hi, inside⟩ := List.forall_mem_cons.mp inside
    obtain ⟨next, step, size₁, reduced₁, first⟩ := exists_completeStep hi size reduced
    obtain ⟨state', runs, size₂, reduced₂, rest⟩ := ih inside next size₁ reduced₁
    refine ⟨state', by rw [List.foldlM_cons, step]; exact runs, size₂, reduced₂, fun x zero => ?_⟩
    obtain ⟨later, coordinates⟩ := rest x zero
    obtain ⟨before, coordinate⟩ := first x later
    exact ⟨before, List.forall_mem_cons.mpr ⟨coordinate, coordinates⟩⟩

theorem exists_completion {rows : Mat} (length : ∀ v ∈ rows, v.length = n) {e : Echelon}
    (collected : (Echelon.empty n).addAll rows = .ok e) (independent : e.rows.length = rows.length) :
    ∃ units, completion rows n = .ok units ∧ rows.length + units.length = n := by
  obtain ⟨e', run, size, reduced, -⟩ := (Echelon.reduced_empty n).exists_addAll length
  obtain rfl : e = e' := Except.ok.inj (collected.symm.trans run)
  obtain ⟨⟨full, units⟩, fold, size', reduced', zero⟩ :=
    exists_completeSteps (n := n) (fun i hi => List.mem_range.mp hi) (e, []) size reduced
  refine ⟨units, by rw [completion, collected, ok_bind, fold]; rfl, ?_⟩
  have completing : Completing n e (full, units) :=
    foldlM_ok_induction (Completing n e)
      ⟨size, reduced, rfl, fun _ hi => absurd hi List.not_mem_nil, fun _ zero _ => zero⟩
      (fun i hi state state' inv step => inv.step (List.mem_range.mp hi) step) fold
  -- All unit vectors were tried, so the form vanishes at zero only.
  have filled : full.rows.length = full.size := reduced'.full_of_kernel fun x vanishes j hj =>
    zero x vanishes j (List.mem_range.mpr (size' ▸ hj))
  rw [← independent, ← completing.count, filled, size']

end Mat

end SkewBox
