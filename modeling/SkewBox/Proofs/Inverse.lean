import SkewBox.Proofs.Linear

/-!
# The inverse of a matrix

Gauss–Jordan elimination works on the matrix with the identity beside it.  Its steps keep the
points at which all rows vanish, and after `k` steps the first `k` columns are unit columns.

* `Mat.Stage`: the state of the elimination after some columns.
* `Mat.Regular.exists_invert?`: it returns a result on every regular matrix.
-/

namespace SkewBox

namespace Vec

theorem length_addScaled (c : ℚ) {v w : Vec} (same : v.length = w.length) :
    (addScaled c v w).length = v.length := by
  simp [addScaled, same]

@[simp] theorem length_unit (n i : ℕ) : (unit n i).length = n := by simp [unit, zeros]

end Vec

namespace Mat

/-! ## Row operations -/

variable {m work : Mat} {r c n k : ℕ}

theorem getD_swapRows {i j : ℕ} (hi : i < m.length) (hj : j < m.length) (t : ℕ) :
    (m.swapRows i j).getD t [] =
      if t = j then m.getD i [] else if t = i then m.getD j [] else m.getD t [] := by
  rw [swapRows, getD_set (by simpa using hj), getD_set hi]

theorem HasShape.swapRows (shape : m.HasShape r c) {i j : ℕ} (hi : i < r) (hj : j < r) :
    (m.swapRows i j).HasShape r c := by
  refine ⟨by simp [Mat.swapRows, shape.length], fun row mem => ?_⟩
  rcases List.mem_or_eq_of_mem_set mem with mem | rfl
  · rcases List.mem_or_eq_of_mem_set mem with mem | rfl
    · exact shape.width row mem
    · exact shape.getD_length hj
  · exact shape.getD_length hi

theorem image_swapRows {i j : ℕ} (hi : i < m.length) (hj : j < m.length) (x : ℕ → ℚ) (t : ℕ) :
    (m.swapRows i j).image x t =
      if t = j then m.image x i else if t = i then m.image x j else m.image x t := by
  rw [image, getD_swapRows hi hj]
  split_ifs <;> rfl

theorem getD_clearColumn {col t : ℕ} (inside : t < m.length) :
    (m.clearColumn col).getD t [] =
      if t = col then (m.getD col []).map (· / m.entry col col)
      else if m.entry t col = 0 then m.getD t []
      else Vec.addScaled (-m.entry t col) (m.getD t [])
        ((m.getD col []).map (· / m.entry col col)) := by
  have row : m.getD t [] = m[t] := List.getD_eq_getElem _ _ inside
  have entry : m.entry t col = m[t].getD col 0 := by rw [Mat.entry, row]
  rw [clearColumn, List.getD_eq_getElem _ _ (by simpa using inside), List.getElem_mapIdx, entry, row]

theorem HasShape.clearColumn (shape : m.HasShape r c) {col : ℕ} (hcol : col < r) :
    (m.clearColumn col).HasShape r c := by
  have length : (m.clearColumn col).length = r := by simp [Mat.clearColumn, shape.length]
  have pivot : ((m.getD col []).map (· / m.entry col col)).length = c := by
    rw [List.length_map, shape.getD_length hcol]
  refine ⟨length, fun row mem => ?_⟩
  obtain ⟨t, ht, rfl⟩ := List.mem_iff_getElem.mp mem
  have inside : t < r := length ▸ ht
  rw [← List.getD_eq_getElem _ [] ht, getD_clearColumn (shape.length ▸ inside)]
  split_ifs
  · exact pivot
  · exact shape.getD_length inside
  · rw [Vec.length_addScaled _ (by rw [pivot, shape.getD_length inside]), shape.getD_length inside]

theorem image_clearColumn (shape : m.HasShape r c) {col t : ℕ} (hcol : col < r) (ht : t < r)
    (x : ℕ → ℚ) :
    (m.clearColumn col).image x t =
      if t = col then m.image x col / m.entry col col
      else m.image x t - m.entry t col * (m.image x col / m.entry col col) := by
  rw [image, getD_clearColumn (shape.length ▸ ht)]
  have pivot : Vec.eval ((m.getD col []).map (· / m.entry col col)) x
      = m.image x col / m.entry col col := by
    rw [Vec.eval_map_div, Rat.cast_id, image]
  split_ifs with same zero
  · exact pivot
  · rw [zero, zero_mul, sub_zero, image]
  · have same : (m.getD t []).length = ((m.getD col []).map (· / m.entry col col)).length := by
      rw [List.length_map, shape.getD_length ht, shape.getD_length hcol]
    rw [Vec.eval_addScaled _ same, pivot, Rat.cast_id, neg_mul, ← sub_eq_add_neg]
    rfl

theorem HasShape.entry_eq_image (shape : m.HasShape r c) {i j : ℕ} (hi : i < r) (hj : j < c) :
    m.entry i j = m.image (fun t => if t = j then (1 : ℚ) else 0) i := by
  rw [shape.image_eq_sum hi, Finset.sum_eq_single_of_mem j (Finset.mem_range.mpr hj)]
  · simp
  · intro t _ other
    simp [other]

theorem HasShape.eq_of_entry {m' : Mat} (shape : m.HasShape r c) (shape' : m'.HasShape r c)
    (same : ∀ i < r, ∀ j < c, m.entry i j = m'.entry i j) : m = m' := by
  refine List.ext_getElem (shape.length.trans shape'.length.symm) fun i hi hi' => ?_
  have width := shape.width _ (List.getElem_mem hi)
  have width' := shape'.width _ (List.getElem_mem hi')
  refine List.ext_getElem (width.trans width'.symm) fun j hj hj' => ?_
  have entries := same i (shape.length ▸ hi) j (width ▸ hj)
  simpa [entry, hi, hi', hj, hj'] using entries

theorem entry_swapRows {i j : ℕ} (hi : i < m.length) (hj : j < m.length) (t s : ℕ) :
    (m.swapRows i j).entry t s =
      if t = j then m.entry i s else if t = i then m.entry j s else m.entry t s := by
  rw [entry, getD_swapRows hi hj]
  split_ifs <;> rfl

theorem entry_clearColumn (shape : m.HasShape r c) {col t s : ℕ} (hcol : col < r) (ht : t < r)
    (hs : s < c) :
    (m.clearColumn col).entry t s =
      if t = col then m.entry col s / m.entry col col
      else m.entry t s - m.entry t col * (m.entry col s / m.entry col col) := by
  rw [(shape.clearColumn hcol).entry_eq_image ht hs, image_clearColumn shape hcol ht,
    ← shape.entry_eq_image hcol hs, ← shape.entry_eq_image ht hs]

/-! ## The elimination -/

/-- All rows vanish at `z`. -/
def Vanishes (m : Mat) (n : ℕ) (z : ℕ → ℚ) : Prop := ∀ i < n, m.image z i = 0

theorem vanishes_swapRows (shape : m.HasShape n c) {i j : ℕ} (hi : i < n) (hj : j < n)
    (z : ℕ → ℚ) : (m.swapRows i j).Vanishes n z ↔ m.Vanishes n z := by
  have row := image_swapRows (shape.length ▸ hi) (shape.length ▸ hj) z
  constructor
  · intro zero t ht
    have at_i : m.image z i = 0 := by simpa [row] using zero j hj
    have at_j : m.image z j = 0 := by
      -- Row `i` now holds row `j`, unless the two are one row.
      have swapped := zero i hi
      rw [row, if_pos rfl] at swapped
      split_ifs at swapped with same
      · rwa [← same]
      · exact swapped
    have at_t := zero t ht
    rw [row] at at_t
    split_ifs at at_t with last first
    · rwa [last]
    · rwa [first]
    · exact at_t
  · intro zero t ht
    rw [row]
    split_ifs
    · exact zero i hi
    · exact zero j hj
    · exact zero t ht

theorem vanishes_clearColumn (shape : m.HasShape n c) {col : ℕ} (hcol : col < n)
    (pivot : m.entry col col ≠ 0) (z : ℕ → ℚ) :
    (m.clearColumn col).Vanishes n z ↔ m.Vanishes n z := by
  constructor
  · intro zero t ht
    have at_col := zero col hcol
    rw [image_clearColumn shape hcol hcol, if_pos rfl, div_eq_zero_iff] at at_col
    have at_col := at_col.resolve_right pivot
    have at_t := zero t ht
    rw [image_clearColumn shape hcol ht, at_col] at at_t
    split_ifs at at_t with same
    · rw [same, at_col]
    · simpa using at_t
  · intro zero t ht
    rw [image_clearColumn shape hcol ht, zero col hcol, zero t ht]
    simp

/-- The elimination of `m` after `k` columns. -/
structure Stage (m : Mat) (n k : ℕ) (work : Mat) : Prop where
  shape : work.HasShape n (n + n)
  vanishes : ∀ z, work.Vanishes n z ↔ m.augment.Vanishes n z
  units : ∀ i < n, ∀ j < k, work.entry i j = if i = j then 1 else 0

theorem pivotRow?_eq_some {col p : ℕ} (h : m.pivotRow? col = some p) :
    col ≤ p ∧ p < m.length ∧ m.entry p col ≠ 0 := by
  have found := List.find?_some h
  have mem := List.mem_of_find?_eq_some h
  rw [List.mem_range'_1] at mem
  refine ⟨mem.1, by omega, by simpa using found⟩

theorem pivotRow?_eq_none {col p : ℕ} (h : m.pivotRow? col = none) (low : col ≤ p)
    (high : p < m.length) : m.entry p col = 0 := by
  have missed := List.find?_eq_none.mp h p (List.mem_range'_1.mpr ⟨low, by omega⟩)
  simpa using missed

theorem Stage.step (stage : Stage m n k work) (inside : k < n) {next : Mat}
    (h : work.eliminate? k = some next) : Stage m n (k + 1) next := by
  obtain ⟨p, found, rfl⟩ := Option.map_eq_some_iff.mp h
  obtain ⟨low, high, pivot⟩ := pivotRow?_eq_some found
  rw [stage.shape.length] at high
  have swapped := stage.shape.swapRows inside high
  have hk : k < work.length := stage.shape.length ▸ inside
  have hp : p < work.length := stage.shape.length ▸ high
  have pivot' : (work.swapRows k p).entry k k ≠ 0 := by
    rw [entry_swapRows hk hp, if_pos rfl]
    split_ifs with same
    · rwa [same] at pivot ⊢
    · exact pivot
  have units' : ∀ i < n, ∀ j < k, (work.swapRows k p).entry i j = if i = j then 1 else 0 := by
    -- Rows `k` and `p` both have zeros in the earlier columns.
    intro i hi j hj
    have at_i := stage.units i hi j hj
    have at_k := stage.units k inside j hj
    have at_p := stage.units p high j hj
    rw [if_neg (by omega)] at at_k at_p
    rw [entry_swapRows hk hp]
    by_cases last : i = p
    · rw [if_pos last, at_k, if_neg (by omega)]
    · by_cases first : i = k
      · rw [if_neg last, if_pos first, at_p, if_neg (by omega)]
      · rw [if_neg last, if_neg first, at_i]
  -- The pivot row is zero in the earlier columns, so subtracting it leaves these as they are.
  refine ⟨swapped.clearColumn inside, fun z => ?_, fun i hi j hj => ?_⟩
  · rw [vanishes_clearColumn swapped inside pivot', vanishes_swapRows stage.shape inside high,
      stage.vanishes]
  · rw [entry_clearColumn swapped inside hi (by omega)]
    rcases Nat.lt_succ_iff_lt_or_eq.mp hj with earlier | rfl
    · rw [units' k inside j earlier, units' i hi j earlier, if_neg (by omega : k ≠ j)]
      by_cases same : i = k
      · rw [if_pos same, zero_div, if_neg (by omega)]
      · rw [if_neg same, zero_div, mul_zero, sub_zero]
    · by_cases same : i = j
      · rw [if_pos same, if_pos same, div_self pivot']
      · rw [if_neg same, if_neg same, div_self pivot']
        ring

theorem HasShape.augment (shape : m.HasShape n n) : m.augment.HasShape n (n + n) := by
  refine ⟨by simp [Mat.augment, shape.length], fun row mem => ?_⟩
  obtain ⟨i, hi, rfl⟩ := List.mem_mapIdx.mp mem
  simp [shape.width _ (List.getElem_mem hi), shape.length]

theorem image_augment (shape : m.HasShape n n) {i : ℕ} (inside : i < n) (z : ℕ → ℚ) :
    m.augment.image z i = m.image z i + z (n + i) := by
  have hi : i < m.length := shape.length ▸ inside
  have row : m.augment.getD i [] = m[i] ++ Vec.unit n i := by
    rw [Mat.augment, List.getD_eq_getElem _ _ (by simpa using hi), List.getElem_mapIdx]
    exact congrArg (m[i] ++ Vec.unit · i) shape.length
  rw [image, row, Vec.eval_append, Vec.eval_unit inside, shape.width _ (List.getElem_mem hi),
    image_of_lt hi]

/-- A regular matrix has a pivot in every column: otherwise its rows would vanish at a point
other than zero. -/
theorem Stage.exists_step (stage : Stage m n k work) (inside : k < n) (regular : m.Regular n) :
    ∃ next, work.eliminate? k = some next := by
  cases found : work.pivotRow? k with
  | some p => exact ⟨_, by rw [eliminate?, found, Option.map_some]⟩
  | none =>
    -- Without a pivot, column `k` is a combination of the unit columns before it; `z` is the point
    -- at which the combination cancels.
    let z : ℕ → ℚ := fun j => if j = k then 1 else if j < k then -work.entry j k else 0
    have zeros : work.Vanishes n z := by
      intro i hi
      rw [stage.shape.image_eq_sum hi]
      by_cases earlier : i < k
      · rw [Finset.sum_eq_add_of_mem i k (Finset.mem_range.mpr (by omega))
          (Finset.mem_range.mpr (by omega)) (by omega)]
        · simp [z, stage.units i hi i earlier, earlier, earlier.ne]
        · rintro j - ⟨other, last⟩
          by_cases early : j < k
          · simp [stage.units i hi j early, other.symm]
          · simp [z, last, early]
      · apply Finset.sum_eq_zero
        intro j _
        by_cases early : j < k
        · rw [stage.units i hi j early, if_neg (by omega), Rat.cast_zero, zero_mul]
        · by_cases last : j = k
          · have entry := pivotRow?_eq_none found (not_lt.mp earlier) (stage.shape.length ▸ hi)
            simp [last, entry]
          · simp [z, last, early]
    have kernel : ∀ i < n, m.image z i = 0 := by
      intro i hi
      have augmented := (stage.vanishes z).mp zeros i hi
      -- The unit vectors beside `m` do not read `z`, so the rows of `m` itself vanish there.
      have outside : z (n + i) = 0 := by
        simp only [z]
        rw [if_neg (by omega), if_neg (by omega)]
      rwa [image_augment regular.shape hi, outside, add_zero] at augmented
    have unit : z k = 0 := regular.kernel kernel inside
    simp [z] at unit

theorem stage_zero (shape : m.HasShape n n) : Stage m n 0 m.augment :=
  ⟨shape.augment, fun _ => Iff.rfl, fun _ _ _ hj => absurd hj (Nat.not_lt_zero _)⟩

theorem stage_of_foldlM (shape : m.HasShape n n) (le : k ≤ n)
    (h : (List.range k).foldlM eliminate? m.augment = some work) : Stage m n k work := by
  induction k generalizing work with
  | zero =>
    obtain rfl : m.augment = work := by simpa using h
    exact stage_zero shape
  | succ k ih =>
    rw [List.range_succ, List.foldlM_append, Option.bind_eq_bind, Option.bind_eq_some_iff] at h
    obtain ⟨before, run, last⟩ := h
    exact (ih (by omega) run).step (by omega) (by simpa using last)

theorem Regular.exists_foldlM (regular : m.Regular n) (le : k ≤ n) :
    ∃ work, (List.range k).foldlM eliminate? m.augment = some work := by
  induction k with
  | zero => exact ⟨_, rfl⟩
  | succ k ih =>
    obtain ⟨before, run⟩ := ih (by omega)
    obtain ⟨next, step⟩ :=
      (stage_of_foldlM regular.shape (by omega) run).exists_step (by omega) regular
    exact ⟨next, by simp [List.range_succ, List.foldlM_append, run, step]⟩

/-! ## The result -/

/-- `w` is the inverse of `m`. -/
structure IsInverse (w m : Mat) (n : ℕ) : Prop where
  shape : w.HasShape n n
  mul_eq_one : w.toMatrix n * m.toMatrix n = 1

namespace IsInverse

variable {w : Mat} {K : Type*} [Field K] [CharZero K]

theorem image_image (inverse : w.IsInverse m n) (shape : m.HasShape n n) (x : ℕ → K) {i : ℕ}
    (inside : i < n) : w.image (m.image x) i = x i :=
  image_image_of_mul_eq_one inverse.shape shape inverse.mul_eq_one x inside

theorem image_image' (inverse : w.IsInverse m n) (shape : m.HasShape n n) (y : ℕ → K) {i : ℕ}
    (inside : i < n) : m.image (w.image y) i = y i :=
  image_image_of_mul_eq_one shape inverse.shape (mul_eq_one_comm.mp inverse.mul_eq_one) y
    inside

theorem regular (inverse : w.IsInverse m n) (shape : m.HasShape n n) : m.Regular n :=
  ⟨shape, .of_mul_eq_one_right _ inverse.mul_eq_one⟩

theorem regular' (inverse : w.IsInverse m n) : w.Regular n :=
  ⟨inverse.shape, .of_mul_eq_one _ inverse.mul_eq_one⟩

theorem unique {w' : Mat} (inverse : w.IsInverse m n) (inverse' : w'.IsInverse m n) : w = w' := by
  have same : w.toMatrix n = w'.toMatrix n :=
    left_inv_eq_right_inv inverse.mul_eq_one (mul_eq_one_comm.mp inverse'.mul_eq_one)
  refine inverse.shape.eq_of_entry inverse'.shape fun i hi j hj => ?_
  exact congrFun (congrFun same ⟨i, hi⟩) ⟨j, hj⟩

end IsInverse

theorem Stage.isInverse (stage : Stage m n n work) (shape : m.HasShape n n) :
    IsInverse (work.map (·.drop n)) m n := by
  have shape' : HasShape (work.map (·.drop n)) n n := by
    refine ⟨by simp [stage.shape.length], fun row mem => ?_⟩
    obtain ⟨full, inWork, rfl⟩ := List.mem_map.mp mem
    simp [stage.shape.width _ inWork]
  refine ⟨shape', mul_eq_one_of_image_image shape' shape fun x i hi => ?_⟩
  have entry : ∀ j, Mat.entry (work.map (·.drop n)) i j = work.entry i (n + j) := by
    intro j
    have inside : i < work.length := stage.shape.length ▸ hi
    simp [Mat.entry, inside]
  -- The rows vanish where the second half holds the values of `m` with the opposite sign.
  let z : ℕ → ℚ := fun j => if j < n then x j else -m.image x (j - n)
  have zeros : work.image z i = 0 := by
    refine (stage.vanishes z).mpr (fun t ht => ?_) i hi
    have low : m.image z t = m.image x t := image_congr shape (fun j hj => by simp [z, hj]) t
    rw [image_augment shape ht, low]
    simp [z]
  -- The first half of the row is a unit vector, which reads `x i`; the second half is the result.
  rw [stage.shape.image_eq_sum hi, Finset.sum_range_add, Finset.sum_eq_single_of_mem i
    (Finset.mem_range.mpr hi)] at zeros
  · have second : ∀ j, z (n + j) = -m.image x j := fun j => by simp [z]
    have first : z i = x i := by simp [z, hi]
    simp only [stage.units i hi i hi, second, first, Rat.cast_id, if_true, one_mul, mul_neg,
      Finset.sum_neg_distrib] at zeros
    rw [shape'.image_eq_sum hi]
    simp only [entry, Rat.cast_id]
    linarith
  · intro j hj other
    simp [stage.units i hi j (Finset.mem_range.mp hj), other.symm]

theorem invert?_isInverse (shape : m.HasShape n n) {w : Mat} (h : m.invert? = some w) :
    w.IsInverse m n := by
  obtain ⟨work, run, rfl⟩ := Option.map_eq_some_iff.mp h
  rw [shape.length] at run ⊢
  exact (stage_of_foldlM shape le_rfl run).isInverse shape

theorem Regular.exists_invert? (regular : m.Regular n) : ∃ w, m.invert? = some w := by
  obtain ⟨work, run⟩ := regular.exists_foldlM le_rfl
  exact ⟨_, by rw [invert?, regular.shape.length, run, Option.map_some]⟩

end Mat

end SkewBox
