import Mathlib.Tactic
import Mathlib.Data.List.GetD
import Mathlib.LinearAlgebra.Matrix.ToLinearEquiv
import SkewBox.Algebra.Echelon

/-!
# Linear forms

A vector is the linear form that it defines on points, which assign a number of some field to
every dimension; a form of length `n` reads the first `n` dimensions only.

* `Vec.eval`: the value of a form at a point, and how it follows the operations on vectors.
* `Mat.image`: the values of all rows of a matrix.
* `Mat.HasShape`, `Mat.toMatrix`, `Mat.Regular`: sizes, the view as a matrix, and invertibility.
* `Mat.isUnit_iff_kernel`: a square matrix is invertible iff only zero makes all rows zero.
-/

namespace SkewBox

open Finset

theorem getD_set {α : Type} {l : List α} {k : ℕ} (inside : k < l.length) (a d : α) (i : ℕ) :
    (l.set k a).getD i d = if i = k then a else l.getD i d := by
  by_cases same : i = k
  · subst same
    rw [if_pos rfl, List.getD_eq_getElem _ _ (by simpa using inside), List.getElem_set_self]
  · rw [if_neg same, List.getD_eq_getElem?_getD, List.getElem?_set_ne (Ne.symm same),
      ← List.getD_eq_getElem?_getD]

variable {K : Type*} [Field K]

namespace Vec

/-! ## Values of a form -/

/-- The value of the linear form `v` at the point `x`. -/
def eval : Vec → (ℕ → K) → K
  | [], _ => 0
  | c :: v, x => c * x 0 + eval v fun i => x (i + 1)

@[simp] theorem eval_nil (x : ℕ → K) : eval [] x = 0 := rfl

@[simp] theorem eval_cons (c : ℚ) (v : Vec) (x : ℕ → K) :
    eval (c :: v) x = c * x 0 + eval v fun i => x (i + 1) := rfl

theorem eval_eq_sum {v : Vec} {n : ℕ} (fits : v.length ≤ n) (x : ℕ → K) :
    v.eval x = ∑ i ∈ range n, ((v.getD i 0 : ℚ) : K) * x i := by
  -- The induction reads the form from its first entry on, so the point is shifted with it.
  induction v generalizing n x with
  | nil => simp
  | cons c v ih =>
    obtain ⟨n, rfl⟩ : ∃ m, n = m + 1 := ⟨n - 1, by simp only [List.length_cons] at fits; omega⟩
    rw [sum_range_succ', eval_cons, ih (by simpa using fits), add_comm]
    simp

theorem eval_congr {v : Vec} {x y : ℕ → K} (h : ∀ i < v.length, x i = y i) :
    v.eval x = v.eval y := by
  induction v generalizing x y with
  | nil => rfl
  | cons c v ih =>
    rw [eval_cons, eval_cons, h 0 (by simp), ih fun i hi => h (i + 1) (by simpa using hi)]

theorem eval_append (v w : Vec) (x : ℕ → K) :
    (v ++ w).eval x = v.eval x + w.eval fun i => x (v.length + i) := by
  induction v generalizing x with
  | nil => simp
  | cons c v ih =>
    simp only [List.cons_append, eval_cons, ih, List.length_cons, add_assoc]
    congr 3
    funext i
    congr 1
    omega

theorem eval_add (v : Vec) (x y : ℕ → K) :
    (v.eval fun i => x i + y i) = v.eval x + v.eval y := by
  simp only [eval_eq_sum le_rfl, mul_add, sum_add_distrib]

theorem eval_zero (v : Vec) : v.eval (fun _ => (0 : K)) = 0 := by
  simp [eval_eq_sum le_rfl]

theorem eval_zeros (n : ℕ) (x : ℕ → K) : (zeros n).eval x = 0 := by
  induction n generalizing x with
  | zero => rfl
  | succ n ih => simpa [zeros, List.replicate_succ] using ih fun i => x (i + 1)

theorem eval_update {v : Vec} {d : ℕ} (inside : d < v.length) (x : ℕ → K) (t : K) :
    v.eval (Function.update x d t) = v.eval x + ((v.getD d 0 : ℚ) : K) * (t - x d) := by
  rw [eval_eq_sum le_rfl, eval_eq_sum le_rfl, ← sub_eq_iff_eq_add', ← sum_sub_distrib,
    sum_eq_single_of_mem d (mem_range.mpr inside)]
  · rw [Function.update_self]
    ring
  · intro i _ other
    rw [Function.update_of_ne other]
    ring

theorem eval_map_range (f : ℕ → ℚ) (n : ℕ) (x : ℕ → K) :
    eval ((List.range n).map f) x = ∑ j ∈ range n, ((f j : ℚ) : K) * x j := by
  rw [eval_eq_sum (n := n) (by simp)]
  refine sum_congr rfl fun j hj => ?_
  simp [mem_range.mp hj]

/-! ## Operations on forms -/

theorem eval_neg (v : Vec) (x : ℕ → K) : v.neg.eval x = -v.eval x := by
  induction v generalizing x with
  | nil => simp [neg]
  | cons a v ih =>
    have tails := ih fun i => x (i + 1)
    simp only [neg] at tails
    simp only [neg, List.map_cons, eval_cons, tails, Rat.cast_neg]
    ring

variable [CharZero K]

theorem eval_addScaled (c : ℚ) {v w : Vec} (same : v.length = w.length) (x : ℕ → K) :
    (addScaled c v w).eval x = v.eval x + c * w.eval x := by
  induction v generalizing w x with
  | nil =>
    obtain rfl : w = [] := List.length_eq_zero_iff.mp same.symm
    simp [addScaled]
  | cons a v ih =>
    cases w with
    | nil => simp at same
    | cons b w =>
      have tails := ih (by simpa using same) fun i => x (i + 1)
      simp only [addScaled, List.zipWith_cons_cons, eval_cons] at tails ⊢
      rw [tails]
      push_cast
      ring

theorem eval_map_div (c : ℚ) (v : Vec) (x : ℕ → K) :
    eval (v.map (· / c)) x = v.eval x / c := by
  induction v generalizing x with
  | nil => simp
  | cons a v ih =>
    simp only [List.map_cons, eval_cons, ih, Rat.cast_div]
    ring

theorem eval_set {v : Vec} {i : ℕ} (inside : i < v.length) (c : ℚ) (x : ℕ → K) :
    eval (v.set i c) x = v.eval x + ((c - v.getD i 0 : ℚ) : K) * x i := by
  induction v generalizing i x with
  | nil => simp at inside
  | cons a v ih =>
    cases i with
    | zero =>
      simp only [List.set_cons_zero, eval_cons, List.getD_cons_zero, Rat.cast_sub]
      ring
    | succ i =>
      simp only [List.set_cons_succ, eval_cons, List.getD_cons_succ]
      rw [ih (by simpa using inside)]
      ring

theorem eval_unit {n i : ℕ} (inside : i < n) (x : ℕ → K) : (unit n i).eval x = x i := by
  rw [unit, eval_set (by simpa [zeros] using inside), eval_zeros]
  simp [zeros, inside]

theorem getD_unit {n i j : ℕ} (inside : j < n) : (unit n i).getD j 0 = if i = j then 1 else 0 := by
  rw [unit, List.getD_eq_getElem _ _ (by simpa [zeros] using inside), List.getElem_set]
  simp [zeros]

theorem dot_eq_eval {v w : Vec} (fits : v.length ≤ w.length) :
    ((dot v w : ℚ) : K) = v.eval fun i => ((w.getD i 0 : ℚ) : K) := by
  induction v generalizing w with
  | nil => simp [dot]
  | cons a v ih =>
    cases w with
    | nil => simp at fits
    | cons b w =>
      have tails := ih (w := w) (by simpa using fits)
      simp only [dot, List.zipWith_cons_cons, List.foldr_cons, eval_cons, Rat.cast_add,
        Rat.cast_mul] at tails ⊢
      rw [tails]
      simp

end Vec

namespace Mat

/-! ## Rows of a matrix -/

/-- The matrix has `r` rows of length `c`. -/
structure HasShape (m : Mat) (r c : ℕ) : Prop where
  length : m.length = r
  width : ∀ row ∈ m, row.length = c

theorem HasShape.width_eq {m : Mat} {r c : ℕ} (shape : m.HasShape r c) (nonempty : 0 < r) :
    Mat.width m = c := by
  cases m with
  | nil => exact absurd shape.length nonempty.ne
  | cons row rows => exact shape.width row (by simp)

theorem length_vecMat (v : Vec) {m : Mat} {n : ℕ} (shape : m.HasShape n n) :
    (vecMat v m).length = n := by
  rcases Nat.eq_zero_or_pos n with rfl | nonempty
  · obtain rfl := List.length_eq_zero_iff.mp shape.length
    rfl
  · simp [vecMat, shape.width_eq nonempty]

theorem vecMatChecked_eq (v : Vec) {m : Mat} {r c : ℕ} (shape : m.HasShape r c) :
    vecMatChecked v m = .ok (vecMat v m) := by
  have wide : spans v m = true := by
    refine List.all_eq_true.mpr fun entry mem => ?_
    -- A row that takes part makes the matrix nonempty, and its width is that of the first row.
    obtain ⟨x, row⟩ := entry
    have inside := (List.of_mem_zip mem).2
    have nonempty : 0 < r := shape.length ▸ List.length_pos_of_mem inside
    simp [shape.width row inside, shape.width_eq nonempty]
  rw [vecMatChecked, if_pos wide]

theorem mul_eq {a b : Mat} {r c : ℕ} (hb : b.HasShape r c) :
    a.mul b = .ok (a.map (vecMat · b)) := by
  simp only [mul, vecMatChecked_eq _ hb]
  exact List.mapM_pure

theorem HasShape.mul {a b : Mat} {n : ℕ} (ha : a.HasShape n n) (hb : b.HasShape n n) :
    HasShape (a.map (vecMat · b)) n n := by
  refine ⟨by simp [ha.length], fun row mem => ?_⟩
  obtain ⟨v, _, rfl⟩ := List.mem_map.mp mem
  exact length_vecMat v hb

/-- The values of the rows at the point `x`, zero beyond the last row. -/
def image (m : Mat) (x : ℕ → K) (i : ℕ) : K := Vec.eval (m.getD i []) x

theorem image_of_lt {m : Mat} {i : ℕ} (inside : i < m.length) (x : ℕ → K) :
    m.image x i = Vec.eval m[i] x := by
  rw [image, List.getD_eq_getElem _ _ inside]

theorem image_congr {m : Mat} {r c : ℕ} (shape : m.HasShape r c) {x y : ℕ → K}
    (h : ∀ j < c, x j = y j) (i : ℕ) : m.image x i = m.image y i := by
  by_cases inside : i < m.length
  · rw [image_of_lt inside, image_of_lt inside]
    refine Vec.eval_congr fun j hj => h j ?_
    rwa [shape.width _ (List.getElem_mem inside)] at hj
  · rw [image, image, List.getD_eq_default _ _ (not_lt.mp inside), Vec.eval_nil, Vec.eval_nil]

theorem HasShape.getD_length {m : Mat} {r c i : ℕ} (shape : m.HasShape r c) (inside : i < r) :
    (m.getD i []).length = c := by
  have inside' : i < m.length := shape.length ▸ inside
  rw [List.getD_eq_getElem _ _ inside']
  exact shape.width _ (List.getElem_mem inside')

theorem HasShape.image_eq_sum {m : Mat} {r c i : ℕ} (shape : m.HasShape r c) (inside : i < r)
    (x : ℕ → K) : m.image x i = ∑ j ∈ range c, ((m.entry i j : ℚ) : K) * x j :=
  Vec.eval_eq_sum (shape.getD_length inside).le x

variable [CharZero K]

theorem HasShape.getD_mulVec {m : Mat} {r c i : ℕ} (shape : m.HasShape r c) (inside : i < r) {v : Vec}
    (length : v.length = c) :
    (((m.mulVec v).getD i 0 : ℚ) : K) = m.image (fun j => ((v.getD j 0 : ℚ) : K)) i := by
  have inside' : i < m.length := shape.length ▸ inside
  have width := shape.width _ (List.getElem_mem inside')
  rw [mulVec, List.getD_eq_getElem _ _ (by simpa using inside'), List.getElem_map,
    Vec.dot_eq_eval (by rw [width, length]), image_of_lt inside']

theorem eval_vecMat {v : Vec} {m : Mat} {r c : ℕ} (shape : m.HasShape r c)
    (length : v.length = r) (x : ℕ → K) : (vecMat v m).eval x = v.eval (m.image x) := by
  rcases Nat.eq_zero_or_pos r with rfl | nonempty
  · obtain rfl := List.length_eq_zero_iff.mp length
    obtain rfl := List.length_eq_zero_iff.mp shape.length
    rfl
  · have column : ∀ j, ((Vec.dot v (m.map (·.getD j 0)) : ℚ) : K)
        = ∑ i ∈ range r, ((v.getD i 0 : ℚ) : K) * ((m.entry i j : ℚ) : K) := by
      intro j
      rw [Vec.dot_eq_eval (by simp [length, shape.length]), Vec.eval_eq_sum length.le]
      refine sum_congr rfl fun i hi => ?_
      have inside : i < m.length := shape.length ▸ mem_range.mp hi
      simp [entry, inside]
    rw [vecMat, Vec.eval_map_range, shape.width_eq nonempty, Vec.eval_eq_sum length.le]
    -- Both sides are the double sum of `v i * m i j * x j`; only the order differs.
    simp only [column, sum_mul]
    rw [sum_comm]
    refine sum_congr rfl fun i hi => ?_
    rw [shape.image_eq_sum (mem_range.mp hi), mul_sum]
    exact sum_congr rfl fun j _ => by ring

theorem image_mul {a b : Mat} {n : ℕ} (ha : a.HasShape n n) (hb : b.HasShape n n) (x : ℕ → K)
    {i : ℕ} (inside : i < n) : image (a.map (vecMat · b)) x i = a.image (b.image x) i := by
  have hi : i < a.length := ha.length ▸ inside
  rw [image_of_lt (by simpa using hi), List.getElem_map,
    eval_vecMat hb (ha.width _ (List.getElem_mem hi)), image_of_lt hi]

theorem hasShape_identity (n : ℕ) : (identity n).HasShape n n := by
  refine ⟨by simp [identity], fun row hrow => ?_⟩
  obtain ⟨i, -, rfl⟩ := List.mem_map.mp hrow
  simp [Vec.unit, Vec.zeros]

theorem image_identity {n i : ℕ} (inside : i < n) (x : ℕ → K) : (identity n).image x i = x i := by
  rw [image_of_lt (by simpa [identity] using inside)]
  simpa [identity] using Vec.eval_unit inside x

/-! ## Invertible matrices -/

/-- The first `n` rows and columns as a square matrix. -/
def toMatrix (n : ℕ) (m : Mat) : Matrix (Fin n) (Fin n) ℚ := Matrix.of fun i j => m.entry i j

/-- The matrix is square of size `n` and invertible. -/
structure Regular (m : Mat) (n : ℕ) : Prop where
  shape : m.HasShape n n
  isUnit : IsUnit (m.toMatrix n)

theorem image_image {w m : Mat} {n : ℕ} (hw : w.HasShape n n) (hm : m.HasShape n n)
    (x : ℕ → K) (i : Fin n) :
    w.image (m.image x) i = ∑ k : Fin n, (((w.toMatrix n * m.toMatrix n) i k : ℚ) : K) * x k := by
  have inner : ∀ j : Fin n, m.image x j = ∑ k : Fin n, ((m.entry j k : ℚ) : K) * x k := by
    intro j
    rw [hm.image_eq_sum j.isLt, ← Fin.sum_univ_eq_sum_range fun k => ((m.entry j k : ℚ) : K) * x k]
  rw [hw.image_eq_sum i.isLt,
    ← Fin.sum_univ_eq_sum_range fun j => ((w.entry i j : ℚ) : K) * m.image x j]
  simp only [inner, mul_sum, Matrix.mul_apply, toMatrix, Matrix.of_apply, Rat.cast_sum,
    Rat.cast_mul, sum_mul]
  rw [sum_comm]
  exact sum_congr rfl fun k _ => sum_congr rfl fun j _ => by ring

theorem image_image_of_mul_eq_one {w m : Mat} {n : ℕ} (hw : w.HasShape n n)
    (hm : m.HasShape n n) (one : w.toMatrix n * m.toMatrix n = 1) (x : ℕ → K) {i : ℕ}
    (inside : i < n) : w.image (m.image x) i = x i := by
  have product := image_image hw hm x ⟨i, inside⟩
  rw [one, sum_eq_single_of_mem ⟨i, inside⟩ (mem_univ _)] at product
  · simpa using product
  · intro k _ other
    simp [Matrix.one_apply_ne other.symm]

theorem mul_eq_one_of_image_image {w m : Mat} {n : ℕ} (hw : w.HasShape n n)
    (hm : m.HasShape n n) (h : ∀ x : ℕ → ℚ, ∀ i < n, w.image (m.image x) i = x i) :
    w.toMatrix n * m.toMatrix n = 1 := by
  ext i k
  -- Reading the product at the unit points gives its columns.
  have column := image_image hw hm (fun j => if j = k then (1 : ℚ) else 0) i
  rw [h _ i i.isLt, sum_eq_single_of_mem k (mem_univ _)] at column
  · simpa [Matrix.one_apply, Fin.ext_iff] using column.symm
  · intro j _ other
    simp [Fin.val_ne_of_ne other]

theorem isUnit_iff_kernel {m : Mat} {n : ℕ} (shape : m.HasShape n n) :
    IsUnit (m.toMatrix n) ↔
      ∀ x : ℕ → ℚ, (∀ i < n, m.image x i = 0) → ∀ j < n, x j = 0 := by
  have rows : ∀ (x : ℕ → ℚ) (i : Fin n),
      (m.toMatrix n).mulVec (fun j => x j) i = m.image x i := by
    intro x i
    rw [shape.image_eq_sum i.isLt]
    simp only [Rat.cast_id]
    exact Fin.sum_univ_eq_sum_range (fun j => m.entry i j * x j) n
  rw [Matrix.isUnit_iff_isUnit_det, isUnit_iff_ne_zero, Ne, ← Matrix.exists_mulVec_eq_zero_iff]
  constructor
  · intro injective x zero j hj
    by_contra nonzero
    refine injective ⟨fun j => x j, fun h => nonzero (congrFun h ⟨j, hj⟩), ?_⟩
    funext i
    rw [rows, zero i i.isLt, Pi.zero_apply]
  · rintro kernel ⟨v, nonzero, zero⟩
    apply nonzero
    -- A vector of the library is a point that is zero from dimension `n` on.
    let x : ℕ → ℚ := fun j => if h : j < n then v ⟨j, h⟩ else 0
    have restrict : (fun j : Fin n => x j) = v := by
      funext j
      simp [x]
    have vanish : ∀ i < n, m.image x i = 0 := by
      intro i hi
      rw [← rows x ⟨i, hi⟩, restrict, zero, Pi.zero_apply]
    funext j
    rw [← restrict]
    exact kernel x vanish j j.isLt

theorem Regular.of_kernel {m : Mat} {n : ℕ} (shape : m.HasShape n n)
    (kernel : ∀ x : ℕ → ℚ, (∀ i < n, m.image x i = 0) → ∀ j < n, x j = 0) : m.Regular n :=
  ⟨shape, (isUnit_iff_kernel shape).mpr kernel⟩

theorem Regular.kernel {m : Mat} {n : ℕ} (regular : m.Regular n) {x : ℕ → ℚ}
    (zero : ∀ i < n, m.image x i = 0) {j : ℕ} (inside : j < n) : x j = 0 :=
  (isUnit_iff_kernel regular.shape).mp regular.isUnit x zero j inside

theorem regular_identity (n : ℕ) : (identity n).Regular n :=
  .of_kernel (hasShape_identity n) fun x zero j hj => (image_identity hj x).symm.trans (zero j hj)

theorem Regular.mul {a b : Mat} {n : ℕ} (ha : a.Regular n) (hb : b.Regular n) :
    Regular (a.map (vecMat · b)) n := by
  refine .of_kernel (ha.shape.mul hb.shape) fun x zero j hj => hb.kernel (fun i hi => ?_) hj
  refine ha.kernel (fun k hk => ?_) hi
  rw [← image_mul ha.shape hb.shape x hk]
  exact zero k hk

end Mat

end SkewBox
