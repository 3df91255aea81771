import SkewBox.Proofs.ExactResults
import SkewBox.Proofs.Iteration
import SkewBox.Proofs.Linearization
import SkewBox.Proofs.NormalForm

/-!
# Assignments that can be undone

A parallel assignment of expressions with rational coefficients and constants is an affine map.  When its
matrix is regular, assignment composes the rows with the inverse and moves the ranges one way, and
substitution composes them with the matrix and moves the ranges the other way.  Each undoes the other, row
by row and end by end.

* `Affine.row`, `Parallelotope.assignmentMap`: the affine map that a parallel assignment stands for.
* `Parallelotope.Reversible`: assignments whose matrix is regular.
* `Parallelotope.assignment_undone_by_substitution`: each operation takes the other back.
-/

namespace SkewBox

variable {K : Type*} [Field K] [LinearOrder K]

/-! ## Rows of coefficients -/

theorem Vec.getD_foldl_set {terms : List (ℕ × Interval)} (distinct : (terms.map (·.1)).Nodup) {v : Vec}
    {j : ℕ} (hj : j < v.length) :
    (terms.foldl (fun (v : Vec) (d, c) => v.set d c.midpoint) v).getD j 0 =
      ((terms.lookup j).map (·.midpoint)).getD (v.getD j 0) := by
  induction terms generalizing v with
  | nil => rfl
  | cons t terms ih =>
    obtain ⟨d, c⟩ := t
    obtain ⟨fresh, distinct⟩ := List.nodup_cons.mp distinct
    rw [List.foldl_cons, ih distinct (by simpa using hj), List.lookup_cons]
    by_cases here : j = d
    · subst here
      have absent : terms.lookup j = none := by
        rw [List.lookup_eq_none_iff]
        rintro ⟨d, c⟩ ht
        have other : j ≠ d := fun same => fresh (same ▸ List.mem_map_of_mem (f := (·.1)) ht)
        simpa using other
      simp [absent, hj]
    · have other : (j == d) = false := by simpa using here
      simp [other, Ne.symm here]

theorem Vec.cast_eval {K : Type*} [Field K] [CharZero K] (v : Vec) (x : ℕ → ℚ) :
    ((v.eval x : ℚ) : K) = v.eval fun i => (x i : K) := by
  rw [eval_eq_sum le_rfl, eval_eq_sum le_rfl]
  simp

namespace Affine

/-- The coefficients of the first `n` dimensions. -/
def row (e : Affine) (n : ℕ) : Vec := (List.range n).map fun j => (e.coeff j).midpoint

@[simp] theorem length_row (e : Affine) (n : ℕ) : (e.row n).length = n := by simp [row]

theorem getD_row (e : Affine) {n j : ℕ} (hj : j < n) : (e.row n).getD j 0 = (e.coeff j).midpoint := by
  simp [row, hj]

theorem dense_eq_row {e : Affine} {n : ℕ} (inside : ∀ t ∈ e.terms, t.1 < n) (scalar : e.isScalar) :
    e.dense n = .ok (e.row n) := by
  have small : ¬ (n : ℤ) ≤ e.maxDim := not_le.mpr (maxDim_lt inside)
  have found : e.dense n = .ok (e.terms.foldl (fun v (d, c) => v.set d c.midpoint) (Vec.zeros n)) := by
    simp [dense, scalar, small]
  have length := (dense_eq_ok (K := ℚ) found).1
  rw [found]
  apply congrArg
  apply List.ext_getElem (length.trans (e.length_row n).symm)
  intro j hj hj'
  have small : j < n := length ▸ hj
  rw [← List.getD_eq_getElem _ 0 hj, ← List.getD_eq_getElem _ 0 hj', getD_row e small,
    Vec.getD_foldl_set e.distinct (by simpa [Vec.zeros] using small), coeff, coeff?]
  cases e.terms.lookup j with
  | none => simp [Vec.zeros, small, Interval.zero, Interval.point, Interval.midpoint]
  | some c => rfl

end Affine

/-! ## Matrices -/

theorem Mat.HasShape.eq_of_image {m m' : Mat} {r c : ℕ} (shape : m.HasShape r c) (shape' : m'.HasShape r c)
    (same : ∀ (x : ℕ → ℚ), ∀ i < r, m.image x i = m'.image x i) : m = m' := by
  apply shape.eq_of_entry shape'
  intro i hi j hj
  rw [shape.entry_eq_image hi hj, shape'.entry_eq_image hi hj, same _ i hi]

namespace Mat.IsInverse

variable {a m w : Mat} {n : ℕ}

theorem mul_mul (inverse : w.IsInverse m n) (shape : m.HasShape n n) (ha : a.HasShape n n) :
    (a.map (vecMat · w)).map (vecMat · m) = a := by
  have half := ha.mul inverse.shape
  apply (half.mul shape).eq_of_image ha
  intro x i hi
  rw [image_mul half shape x hi, image_mul ha inverse.shape _ hi]
  exact image_congr ha (fun j hj => inverse.image_image shape x hj) i

theorem symm (inverse : w.IsInverse m n) (shape : m.HasShape n n) : m.IsInverse w n :=
  ⟨shape, mul_eq_one_comm.mp inverse.mul_eq_one⟩

end Mat.IsInverse

/-! ## Ranges moved by a number -/

namespace Interval

variable {I : Interval}

theorem isBottom_point (q : ℚ) : (point q).isBottom = false := by simp [isBottom, point]

theorem neg_point (q : ℚ) : (point q).neg = point (-q) := by
  rw [neg, isBottom_point]
  rfl

theorem add_point (ordered : I.lo ≤ I.hi) (q : ℚ) :
    I.add .exact (point q) =
      ⟨Precision.exact.add .down I.lo (.fin q), Precision.exact.add .up I.hi (.fin q)⟩ := by
  simp only [add, isBottom_eq_false_iff.mpr ordered, isBottom_point, Bool.or_false, Bool.false_eq_true,
    if_false]
  rfl

theorem sub_point (q : ℚ) : I.sub .exact (point q) = I.add .exact (point (-q)) := by
  rw [sub, neg_point]

theorem add_point_add_point (ordered : I.lo ≤ I.hi) (q : ℚ) :
    (I.add .exact (point q)).add .exact (point (-q)) = I := by
  rw [add_point (add_ordered ordered le_rfl), add_point ordered]
  obtain ⟨lo, hi⟩ := I
  cases lo <;> cases hi <;> simp [Precision.add, Precision.roundRat]

theorem add_point_sub_point (ordered : I.lo ≤ I.hi) (q : ℚ) :
    (I.add .exact (point q)).sub .exact (point q) = I := by
  rw [sub_point, add_point_add_point ordered]

theorem sub_point_add_point (ordered : I.lo ≤ I.hi) (q : ℚ) :
    (I.sub .exact (point q)).add .exact (point q) = I := by
  have back := add_point_add_point ordered (-q)
  rwa [neg_neg, ← sub_point] at back

theorem add_point_has_iff [IsStrictOrderedRing K] (ordered : I.lo ≤ I.hi) (q : ℚ) (v : K) :
    (I.add .exact (point q)).Has (v + q) ↔ I.Has v := by
  constructor
  · intro has
    have back := add_has (p := .exact) has (point_has.mpr (rfl : ((-q : ℚ) : K) = _))
    rw [add_point_add_point ordered] at back
    simpa using back
  · intro has
    exact add_has has (point_has.mpr rfl)

end Interval

theorem Frame.ordered_iff_getD {f : Frame} {n : ℕ} (length : f.ranges.length = n) :
    f.Ordered ↔ ∀ i < n, (f.ranges.getD i .top).lo ≤ (f.ranges.getD i .top).hi := by
  subst length
  rw [Ordered, List.forall_mem_iff_getElem]
  apply forall₂_congr
  intro i hi
  rw [List.getD_eq_getElem _ _ hi]

theorem Precision.exists_dot_eq_point (row : Vec) {Is : List Interval} (points : ∀ I ∈ Is, I.isPoint) :
    ∃ q, Precision.exact.dot row Is = .point q := by
  -- What has been added up so far is a number.
  apply List.foldlRecOn (motive := fun acc => ∃ q, acc = Interval.point q)
  · exact ⟨0, rfl⟩
  · rintro _ ⟨start, rfl⟩ ⟨c, I⟩ mem
    obtain ⟨q, rfl⟩ : ∃ q, I = .point q := ⟨_, Interval.eq_point (points I (List.of_mem_zip mem).2)⟩
    by_cases zero : c = 0
    · exact ⟨start, if_pos zero⟩
    · have scaled : (Interval.point q).scale .exact c = .point (c * q) := by
        rw [Interval.scale, Interval.isBottom_point]
        simp [zero, Interval.point, Precision.mul, Precision.roundRat]
      simp only [if_neg zero, scaled]
      exact ⟨start + c * q, rfl⟩

namespace Parallelotope

variable {cfg : Settings} {a : Parallelotope} {f : Frame} {n : ℕ} {dims : List ℕ} {exprs : List Affine}

/-! ## The map of an assignment -/

/-- The map with the row of one more dimension replaced. -/
def AffineMap.assign (n : ℕ) (m : AffineMap) (p : ℕ × Affine) : AffineMap :=
  ⟨m.matrix.set p.1 (p.2.row n), m.consts.set p.1 p.2.const, m.exprs ++ [p.2]⟩

/-- The identity with the rows of the assigned dimensions replaced. -/
def assignmentMap (n : ℕ) (dims : List ℕ) (exprs : List Affine) : AffineMap :=
  (dims.zip exprs).foldl (AffineMap.assign n) ⟨.identity n, List.replicate n .zero, []⟩

/-- The constant that the map adds in a dimension. -/
def AffineMap.offset (m : AffineMap) (i : ℕ) : ℚ := (m.consts.getD i .top).midpoint

/-- A parallel assignment to distinct dimensions among the first `n`, of expressions over these with
rational coefficients and constants, whose matrix is regular. -/
structure Reversible (n : ℕ) (dims : List ℕ) (exprs : List Affine) : Prop where
  distinct : dims.Nodup
  inside : ∀ d ∈ dims, d < n
  same : dims.length = exprs.length
  mentions : ∀ e ∈ exprs, ∀ t ∈ e.terms, t.1 < n
  scalar : ∀ e ∈ exprs, e.isScalar
  constants : ∀ e ∈ exprs, e.const.isPoint
  regular : (assignmentMap n dims exprs).matrix.Regular n

namespace Reversible

variable (h : Reversible n dims exprs)

include h

theorem represents [IsStrictOrderedRing K] : Represents (assignmentMap n dims exprs) n K dims exprs := by
  -- Each pair replaces the row of a dimension that no pair before it has.
  suffices general : ∀ pairs : List (ℕ × Affine), pairs <+: dims.zip exprs →
      Represents (pairs.foldl (AffineMap.assign n) ⟨.identity n, List.replicate n .zero, []⟩) n K
        (pairs.map (·.1)) (pairs.map (·.2)) by
    have whole := general _ (List.prefix_refl _)
    rwa [List.map_fst_zip h.same.le, List.map_snd_zip h.same.ge] at whole
  intro pairs
  induction pairs using List.reverseRecOn with
  | nil => exact fun _ => represents_identity n
  | append_singleton pairs p ih =>
    intro within
    obtain ⟨d, e⟩ := p
    have before := ih ((List.prefix_append _ _).trans within)
    have distinct : ((pairs ++ [(d, e)]).map (·.1)).Nodup := by
      have names := within.map (·.1)
      rw [List.map_fst_zip h.same.le] at names
      exact h.distinct.sublist names.sublist
    obtain ⟨hd, he⟩ := List.of_mem_zip (within.subset (by simp : (d, e) ∈ pairs ++ [(d, e)]))
    simp only [List.map_append, List.map_cons, List.map_nil, List.foldl_append, List.foldl_cons,
      List.foldl_nil] at distinct ⊢
    apply before.assignRow (h.inside d hd) _ (by simp) (Affine.dense_eq_row (h.mentions e he) (h.scalar e he))
    intro mem
    exact (List.nodup_append.mp distinct).2.2 d mem d (by simp) rfl

theorem length_consts : (assignmentMap n dims exprs).consts.length = n := (h.represents (K := ℚ)).consts

theorem points : ∀ I ∈ (assignmentMap n dims exprs).consts, I.isPoint := by
  intro I hI
  obtain ⟨i, hi, rfl⟩ := List.mem_iff_getElem.mp hI
  rw [← List.getD_eq_getElem _ .top hi]
  cases (h.represents (K := ℚ)).origin i (h.length_consts ▸ hi) with
  | inl zero =>
    rw [zero]
    rfl
  | inr assigned =>
    obtain ⟨p, hp, -, eq⟩ := assigned
    rw [eq]
    exact h.constants _ (List.of_mem_zip hp).2

/-- The map of the assignment is found as it stands, whatever the value. -/
theorem affineMap_eq {W : Parallelotope → Prop} {mayFail : Prop} (size : a.space.size = n) :
    Op.Meets W W mayFail (a.affineMap cfg dims exprs) (· = assignmentMap n dims exprs) := by
  subst size
  unfold affineMap
  apply Op.meets_foldlM (fun done m => m = done.foldl (AffineMap.assign a.space.size) _) rfl
  rintro done ⟨d, e⟩ m within rfl
  have mem : e ∈ exprs := (List.of_mem_zip (within.subset (by simp : (d, e) ∈ done ++ [(d, e)]))).2
  have linear : a.quasiLinearize cfg e = (pure e : Op Affine) := by
    rw [quasiLinearize, checkAffine_eq_ok (h.mentions e mem), h.scalar e mem]
    rfl
  unfold assignRow
  simp only [linear, pure_bind, Affine.dense_eq_row (h.mentions e mem) (h.scalar e mem)]
  apply Op.meets_pure
  rw [List.foldl_append]
  rfl

theorem dot_eq_point {row : Vec} (width : row.length = n) :
    Precision.exact.dot row (assignmentMap n dims exprs).consts =
      .point (row.eval (assignmentMap n dims exprs).offset) := by
  obtain ⟨q, number⟩ := Precision.exists_dot_eq_point row h.points
  have holds : (Precision.exact.dot row (assignmentMap n dims exprs).consts).Has
      (row.eval (assignmentMap n dims exprs).offset) :=
    dot_consts_has h.length_consts width
      (fun i hi => (constant_has_iff h.length_consts h.points hi).mpr rfl) .exact
  rw [number, Interval.point_has] at holds
  rw [number, holds]
  rfl

theorem becomes_eq [IsStrictOrderedRing K] {x y : ℕ → K} (becomes : Becomes n dims exprs x y) {i : ℕ}
    (hi : i < n) :
    y i = (assignmentMap n dims exprs).matrix.image x i + (assignmentMap n dims exprs).offset i := by
  have member := (h.represents.becomes_iff h.inside).mpr becomes i hi
  rw [constant_has_iff h.length_consts h.points hi, sub_eq_iff_eq_add'] at member
  exact member

/-- Between a point and the image of the point before, a row sees the constants alone. -/
theorem eval_sub_image [IsStrictOrderedRing K] {x y : ℕ → K} (becomes : Becomes n dims exprs x y) {row : Vec}
    (width : row.length = n) :
    row.eval (fun j => y j - (assignmentMap n dims exprs).matrix.image x j) =
      ((row.eval (assignmentMap n dims exprs).offset : ℚ) : K) := by
  rw [Vec.cast_eval]
  apply Vec.eval_congr
  intro j hj
  rw [h.becomes_eq becomes (width ▸ hj), add_sub_cancel_left]

end Reversible

/-! ## Frames -/

section Frames

variable {w : Mat} (h : Reversible n dims exprs) (inverse : w.IsInverse (assignmentMap n dims exprs).matrix n)
  (regular : f.Regular n) (ordered : f.Ordered)

include h inverse regular

theorem mapped_range_eq {i : ℕ} (hi : i < n) :
    (mapped .exact f w (assignmentMap n dims exprs).consts).ranges.getD i .top =
      (f.ranges.getD i .top).add .exact (.point (Vec.eval
        ((mapped .exact f w (assignmentMap n dims exprs).consts).axes.getD i [])
          (assignmentMap n dims exprs).offset)) := by
  have image := mapped_regular regular inverse .exact (assignmentMap n dims exprs).consts
  rw [mapped_range regular .exact w _ hi, h.dot_eq_point (image.axes.shape.getD_length hi)]

omit inverse in
theorem composed_range_eq {i : ℕ} (hi : i < n) :
    (composed .exact f (assignmentMap n dims exprs)).ranges.getD i .top =
      (f.ranges.getD i .top).sub .exact
        (.point (Vec.eval (f.axes.getD i []) (assignmentMap n dims exprs).offset)) := by
  rw [composed_range regular .exact hi, h.dot_eq_point (regular.axes.shape.getD_length hi)]

include ordered

theorem mapped_ordered : (mapped .exact f w (assignmentMap n dims exprs).consts).Ordered := by
  apply (Frame.ordered_iff_getD (mapped_regular regular inverse .exact _).ranges).mpr
  intro i hi
  rw [mapped_range_eq h inverse regular hi]
  exact Interval.add_ordered ((Frame.ordered_iff_getD regular.ranges).mp ordered i hi) le_rfl

omit inverse in
theorem composed_ordered : (composed .exact f (assignmentMap n dims exprs)).Ordered := by
  apply (Frame.ordered_iff_getD (composed_lengths regular h.regular.shape .exact).2).mpr
  intro i hi
  rw [composed_range_eq h regular hi]
  exact Interval.sub_ordered ((Frame.ordered_iff_getD regular.ranges).mp ordered i hi) le_rfl

omit h inverse ordered in
theorem composed_regular (h : Reversible n dims exprs) :
    (composed .exact f (assignmentMap n dims exprs)).Regular n :=
  Frame.regular_mk (regular.axes.mul h.regular) (composed_lengths regular h.regular.shape .exact).2

theorem composed_mapped :
    composed .exact (mapped .exact f w (assignmentMap n dims exprs).consts) (assignmentMap n dims exprs) =
      ⟨f.axes, f.ranges, none⟩ := by
  have image := mapped_regular regular inverse .exact (assignmentMap n dims exprs).consts
  have lengths := (composed_lengths image h.regular.shape .exact).2
  have axes := inverse.mul_mul h.regular.shape regular.axes.shape
  have ranges : (composed .exact (mapped .exact f w (assignmentMap n dims exprs).consts)
      (assignmentMap n dims exprs)).ranges = f.ranges := by
    apply List.ext_getElem (lengths.trans regular.ranges.symm)
    intro i hi hi'
    have small : i < n := lengths ▸ hi
    rw [← List.getD_eq_getElem _ .top hi, ← List.getD_eq_getElem _ .top hi', composed_range_eq h image small,
      mapped_range_eq h inverse regular small]
    exact Interval.add_point_sub_point ((Frame.ordered_iff_getD regular.ranges).mp ordered i small) _
  exact congrArg₂ (Frame.mk · · none) axes ranges

theorem mapped_composed :
    mapped .exact (composed .exact f (assignmentMap n dims exprs)) w (assignmentMap n dims exprs).consts =
      ⟨f.axes, f.ranges, none⟩ := by
  have before := composed_regular regular h
  have lengths := (mapped_regular before inverse .exact (assignmentMap n dims exprs).consts).ranges
  have axes : (mapped .exact (composed .exact f (assignmentMap n dims exprs)) w
      (assignmentMap n dims exprs).consts).axes = f.axes :=
    (inverse.symm h.regular.shape).mul_mul inverse.shape regular.axes.shape
  have ranges : (mapped .exact (composed .exact f (assignmentMap n dims exprs)) w
      (assignmentMap n dims exprs).consts).ranges = f.ranges := by
    apply List.ext_getElem (lengths.trans regular.ranges.symm)
    intro i hi hi'
    have small : i < n := lengths ▸ hi
    rw [← List.getD_eq_getElem _ .top hi, ← List.getD_eq_getElem _ .top hi',
      mapped_range_eq h inverse before small, axes, composed_range_eq h regular small]
    exact Interval.sub_point_add_point ((Frame.ordered_iff_getD regular.ranges).mp ordered i small) _
  exact congrArg₂ (Frame.mk · · none) axes ranges

variable [IsStrictOrderedRing K] {x y : ℕ → K}

theorem mapped_has_iff (becomes : Becomes n dims exprs x y) :
    (mapped .exact f w (assignmentMap n dims exprs).consts).Has y ↔ f.Has x := by
  have image := mapped_regular regular inverse .exact (assignmentMap n dims exprs).consts
  rw [image.has_iff_lt, regular.has_iff_lt]
  apply forall₂_congr
  intro i hi
  rw [mapped_range_eq h inverse regular hi, mapped_image regular inverse h.regular.shape .exact _ x y hi,
    Mat.image, Mat.image, h.eval_sub_image becomes (image.axes.shape.getD_length hi)]
  exact Interval.add_point_has_iff ((Frame.ordered_iff_getD regular.ranges).mp ordered i hi) _ _

omit inverse in
theorem composed_has_iff (becomes : Becomes n dims exprs x y) :
    (composed .exact f (assignmentMap n dims exprs)).Has x ↔ f.Has y := by
  rw [(composed_regular regular h).has_iff_lt, regular.has_iff_lt]
  apply forall₂_congr
  intro i hi
  rw [composed_range_eq h regular hi, composed_image regular h.regular.shape .exact hi,
    h.eval_sub_image becomes (regular.axes.shape.getD_length hi), Interval.sub_point, sub_eq_add_neg,
    ← Rat.cast_neg]
  exact Interval.add_point_has_iff ((Frame.ordered_iff_getD regular.ranges).mp ordered i hi) _ _

end Frames

/-! ## The operations -/

section Operations

variable {mayFail : Prop}

theorem finish_none_eq (real : a.space.ints = 0) (ha : a.WellFormed) :
    Op.Meets (fun _ => True) (fun _ => True) mayFail (a.finish cfg .none) (· = a) := by
  have normal : a.normalize cfg = a := by
    obtain ⟨s, frame⟩ := a
    cases frame with
    | none => rfl
    | some f =>
      obtain ⟨regular, ordered⟩ := ha f rfl
      simp only [normalize, regular.normalize_of_real (ordered trivial) real]
      rfl
  have tidied : Op.Meets (fun _ => True) (fun _ => True) mayFail (a.tidy cfg) (· = a.normalize cfg) :=
    tidy_eq (fun _ _ _ => trivial) trivial
  rwa [normal] at tidied

theorem Reversible.checkTransfer_eq (h : Reversible a.space.size dims exprs) :
    Op.Meets (fun _ => True) (fun _ => True) mayFail
      (a.checkTransfer (dims.map fun d : ℕ => .int d) exprs Affine.maxDim Affine.render .none)
      (· = dims) := by
  have listed : exprs.find? (fun e => decide ((a.space.size : ℤ) ≤ e.maxDim)) = none := by
    rw [List.find?_eq_none]
    intro e he
    simpa using Affine.maxDim_lt (h.mentions e he)
  unfold checkTransfer
  simp only [List.length_map, h.same, ne_eq, not_true_eq_false, if_false, listed,
    Space.checkDistinct_eq_ok.mpr ⟨rfl, h.distinct, h.inside⟩]
  exact Op.meets_pure rfl

variable {s : Space} (exact : cfg.precision = .exact) (real : s.ints = 0) (regular : f.Regular s.size)
  (ordered : f.Ordered) (h : Reversible s.size dims exprs) (assigns : dims ≠ [])

include exact real regular ordered h assigns

theorem assignAffine_eq {w : Mat} (found : (assignmentMap s.size dims exprs).matrix.invert? = some w) :
    Op.Meets (fun _ => True) (fun _ => True) mayFail
      (assignAffine cfg ⟨s, some f⟩ (dims.map fun d : ℕ => .int d) exprs .none)
      (· = ⟨s, some (mapped .exact f w (assignmentMap s.size dims exprs).consts)⟩) := by
  have inverse := Mat.invert?_isInverse h.regular.shape found
  have points : (assignmentMap s.size dims exprs).consts.all (·.isPoint) := List.all_eq_true.mpr h.points
  have image : assignInvertible cfg f w (assignmentMap s.size dims exprs).consts =
      pure (mapped .exact f w (assignmentMap s.size dims exprs).consts) := by
    rw [assignInvertible, Mat.mul_eq inverse.shape, points, exact]
    rfl
  unfold assignAffine
  apply (Reversible.checkTransfer_eq h).bind
  intro named same
  simp only [same, List.isEmpty_iff, if_neg assigns]
  apply (h.affineMap_eq rfl).bind
  rintro _ rfl
  simp only [found, image, pure_bind]
  apply (Op.move_meets (P := (· = _)) trivial rfl).bind
  rintro _ rfl
  exact finish_none_eq real (shaped_mk (mapped_regular regular inverse .exact _)
    fun _ => mapped_ordered h inverse regular ordered)

theorem substituteAffine_eq :
    Op.Meets (fun _ => True) (fun _ => True) mayFail
      (substituteAffine cfg ⟨s, some f⟩ (dims.map fun d : ℕ => .int d) exprs .none)
      (· = ⟨s, some (composed .exact f (assignmentMap s.size dims exprs))⟩) := by
  have before := composed_regular regular h
  have scalar : exprs.all (·.isScalar) := List.all_eq_true.mpr h.scalar
  unfold substituteAffine
  apply (Reversible.checkTransfer_eq h).bind
  intro named same
  simp only [same, List.isEmpty_iff, if_neg assigns, mapBefore, if_pos scalar, pure_bind]
  apply (Op.aside_meets (h.affineMap_eq (W := fun _ => True) rfl)).bind
  rintro _ rfl
  apply (Op.meets_lift_ok (P := (· = _)) (Mat.mul_eq h.regular.shape) rfl).bind
  rintro _ rfl
  -- A product of regular matrices is regular, so it becomes the new rows as it is.
  obtain ⟨found, run, iff⟩ := before.axes.shape.exists_isInvertible
  obtain rfl : found = true := iff.mpr before.axes
  apply (Op.meets_lift_ok (P := (· = true)) run rfl).bind
  rintro _ rfl
  simp only [if_true, exact]
  apply (Op.move_meets (P := (· = _)) trivial rfl).bind
  rintro _ rfl
  exact finish_none_eq real (shaped_mk before fun _ => composed_ordered h regular ordered)

end Operations

/-! ## Back again -/

section Idle

variable {mayFail : Prop}

theorem Reversible.finish_meets (cfg : Settings) (h : Reversible a.space.size dims exprs)
    (real : a.space.ints = 0) (ha : a.WellFormed) {rest : List ℕ → Op Parallelotope}
    (stops : rest dims = a.finish cfg .none) :
    Op.Meets (fun _ => True) (fun _ => True) mayFail (a.checkTransfer (dims.map fun d : ℕ => .int d) exprs
      Affine.maxDim Affine.render .none >>= rest) (· = a) := by
  apply h.checkTransfer_eq.bind
  intro named same
  rw [same, stops]
  exact finish_none_eq real ha

theorem assignAffine_idle (real : a.space.ints = 0) (ha : a.WellFormed)
    (h : Reversible a.space.size dims exprs) (idle : a.frame? = none ∨ dims = []) :
    Op.Meets (fun _ => True) (fun _ => True) mayFail
      (a.assignAffine cfg (dims.map fun d : ℕ => .int d) exprs .none) (· = a) := by
  apply h.finish_meets cfg real ha
  cases idle with
  | inl empty => simp only [empty]
  | inr nothing => cases a.frame? <;> simp [nothing]

theorem substituteAffine_idle (real : a.space.ints = 0) (ha : a.WellFormed)
    (h : Reversible a.space.size dims exprs) (idle : a.frame? = none ∨ dims = []) :
    Op.Meets (fun _ => True) (fun _ => True) mayFail
      (a.substituteAffine cfg (dims.map fun d : ℕ => .int d) exprs .none) (· = a) := by
  apply h.finish_meets cfg real ha
  cases idle with
  | inl empty => simp only [empty]
  | inr nothing => cases a.frame? <;> simp [nothing]

theorem has_iff_of_idle [IsStrictOrderedRing K] (ha : a.WellFormed) (idle : a.frame? = none ∨ dims = [])
    {x y : ℕ → K} (becomes : Becomes a.space.size dims exprs x y) : a.Has y ↔ a.Has x := by
  cases idle with
  | inl empty => exact iff_of_false (not_has_of_none empty y) (not_has_of_none empty x)
  | inr nothing =>
    subst nothing
    have same := becomes_nil.mp becomes
    cases hf : a.frame? with
    | none => exact iff_of_false (not_has_of_none hf y) (not_has_of_none hf x)
    | some f =>
      have regular := (ha f hf).1
      rw [has_iff_of_frame hf, has_iff_of_frame hf]
      exact ⟨regular.has_congr same, regular.has_congr fun i hi => (same i hi).symm⟩

end Idle

/-- Without rounding and over real dimensions, assigning expressions whose matrix is regular takes the
points of a well-formed value to their images, and substituting them takes the images back; each of the two
operations restores the axes and the ranges that the other has changed. -/
theorem assignment_undone_by_substitution [IsStrictOrderedRing K] (exact : cfg.precision = .exact)
    (real : a.space.ints = 0) (ha : a.WellFormed) (h : Reversible a.space.size dims exprs) :
    Op.Yields (a.assignAffine cfg (dims.map fun d : ℕ => .int d) exprs .none) (fun b =>
      (∀ x y : ℕ → K, Becomes a.space.size dims exprs x y → (b.Has y ↔ a.Has x)) ∧
        Op.Yields (b.substituteAffine cfg (dims.map fun d : ℕ => .int d) exprs .none) fun c =>
          c.space = a.space ∧ c.content = a.content) ∧
      Op.Yields (a.substituteAffine cfg (dims.map fun d : ℕ => .int d) exprs .none) fun b =>
        (∀ x y : ℕ → K, Becomes a.space.size dims exprs x y → (b.Has x ↔ a.Has y)) ∧
          Op.Yields (b.assignAffine cfg (dims.map fun d : ℕ => .int d) exprs .none) fun c =>
            c.space = a.space ∧ c.content = a.content := by
  -- Either nothing is done at all, or each way multiplies by the map or by its inverse.
  by_cases idle : a.frame? = none ∨ dims = []
  · constructor
    · apply ((assignAffine_idle real ha h idle).imp _).yields
      rintro _ rfl
      refine ⟨fun x y becomes => has_iff_of_idle ha idle becomes, ?_⟩
      apply ((substituteAffine_idle real ha h idle).imp _).yields
      rintro _ rfl
      exact ⟨rfl, rfl⟩
    · apply ((substituteAffine_idle real ha h idle).imp _).yields
      rintro _ rfl
      refine ⟨fun x y becomes => (has_iff_of_idle ha idle becomes).symm, ?_⟩
      apply ((assignAffine_idle real ha h idle).imp _).yields
      rintro _ rfl
      exact ⟨rfl, rfl⟩
  · obtain ⟨nonempty, assigns⟩ := not_or.mp idle
    obtain ⟨s, frame⟩ := a
    obtain ⟨f, rfl⟩ := Option.ne_none_iff_exists'.mp nonempty
    obtain ⟨regular, ordered⟩ := ha f rfl
    obtain ⟨w, found⟩ := h.regular.exists_invert?
    have inverse := Mat.invert?_isInverse h.regular.shape found
    have after := mapped_regular regular inverse .exact (assignmentMap s.size dims exprs).consts
    have after' := mapped_ordered h inverse regular (ordered trivial)
    have before := composed_regular regular h
    have before' := composed_ordered h regular (ordered trivial)
    constructor
    · apply ((assignAffine_eq exact real regular (ordered trivial) h assigns found).imp _).yields
      rintro _ rfl
      refine ⟨fun x y becomes => ?_, ?_⟩
      · rw [has_mk, has_mk]
        exact mapped_has_iff h inverse regular (ordered trivial) becomes
      · apply ((substituteAffine_eq exact real after after' h assigns).imp _).yields
        rintro _ rfl
        rw [composed_mapped h inverse regular (ordered trivial)]
        exact ⟨rfl, rfl⟩
    · apply ((substituteAffine_eq exact real regular (ordered trivial) h assigns).imp _).yields
      rintro _ rfl
      refine ⟨fun x y becomes => ?_, ?_⟩
      · rw [has_mk, has_mk]
        exact composed_has_iff h regular (ordered trivial) becomes
      · apply ((assignAffine_eq exact real before before' h assigns found).imp _).yields
        rintro _ rfl
        rw [mapped_composed h inverse regular (ordered trivial)]
        exact ⟨rfl, rfl⟩

/-- Both dimensions at once, each read before the other is written. -/
def turnSample : List Affine :=
  [.make [(0, .point (-1)), (1, .point 1)] (.point (1 / 2)), .make [(0, .point 1), (1, .point 1)] (.point 1)]

theorem turnSample_reversible : Reversible 2 [1, 0] turnSample where
  distinct := by decide
  inside := by decide
  same := rfl
  mentions := by decide +kernel
  scalar := by decide +kernel
  constants := by decide +kernel
  regular := by
    have shape : (assignmentMap 2 [1, 0] turnSample).matrix.HasShape 2 2 := ⟨rfl, by decide +kernel⟩
    have found : (assignmentMap 2 [1, 0] turnSample).matrix.invert?.isSome := by decide +kernel
    obtain ⟨w, found⟩ := Option.isSome_iff_exists.mp found
    exact (Mat.invert?_isInverse shape found).regular shape

/-- The assignment turns a strip that is open above. -/
theorem assignment_undone_by_substitution_sample :
    leaningSample.WellFormed ∧ Reversible 2 [1, 0] turnSample ∧
    Op.Yields (leaningSample.assignAffine {} ([1, 0].map fun d : ℕ => .int d) turnSample .none) (fun b =>
      (∀ x y : ℕ → ℚ, Becomes 2 [1, 0] turnSample x y → (b.Has y ↔ leaningSample.Has x)) ∧
        Op.Yields (b.substituteAffine {} ([1, 0].map fun d : ℕ => .int d) turnSample .none) fun c =>
          c.space = leaningSample.space ∧ c.content = leaningSample.content) ∧
      Op.Yields (leaningSample.substituteAffine {} ([1, 0].map fun d : ℕ => .int d) turnSample .none) fun b =>
        (∀ x y : ℕ → ℚ, Becomes 2 [1, 0] turnSample x y → (b.Has x ↔ leaningSample.Has y)) ∧
          Op.Yields (b.assignAffine {} ([1, 0].map fun d : ℕ => .int d) turnSample .none) fun c =>
            c.space = leaningSample.space ∧ c.content = leaningSample.content :=
  ⟨leaningSample_solid.wellFormed, turnSample_reversible, assignment_undone_by_substitution (K := ℚ) rfl rfl
    leaningSample_solid.wellFormed turnSample_reversible⟩

end Parallelotope

end SkewBox
