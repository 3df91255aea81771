import Mathlib
import SkewBox.Proofs.Transfer

/-!
# Soundness of assignment

Each of the three ways in which an assignment is carried out keeps the images of all points of the
value: the change of axes by the inverse matrix, forgetting the dimensions and intersecting with
equations, and new dimensions that hold the values for a while.

* `Parallelotope.assignAffine_keeps`, `assignTerm_keeps`: the operations.
* `Parallelotope.assignment_keeps_images`: no image of a point is lost.
-/

namespace SkewBox

namespace Parallelotope

variable {K : Type*} [Field K] [LinearOrder K] [IsStrictOrderedRing K] {a : Parallelotope}
  {cfg : Settings} {W : Parallelotope → Prop} {mayFail : Prop}

/-- The value `b` keeps the images of the points of `a` under an assignment that the target has, where
these have integers at the integer dimensions. -/
structure Assigns (a : Parallelotope) (dims : List ℕ) (target : Target)
    (takes : (ℕ → K) → List K → Prop) (b : Parallelotope) : Prop where
  space : b.space = a.space
  wellFormed : b.WellFormed
  has : ∀ x vs, a.space.Admits x → a.Has x → takes x vs → a.space.Admits (assigned x dims vs) →
    target.Permits (assigned x dims vs) → b.Has (assigned x dims vs)

/-! ## Invertible maps -/

/-- The frame whose rows are read after an invertible map, with ranges moved by the constants. -/
def mapped (P : Precision) (f : Frame) (w : Mat) (consts : List Interval) : Frame :=
  ⟨f.axes.map (Mat.vecMat · w), List.zipWith (fun row I => I.add P (P.dot row consts))
    (f.axes.map (Mat.vecMat · w)) f.ranges, none⟩

theorem mapped_regular {f : Frame} {n : ℕ} {m w : Mat} (regular : f.Regular n)
    (inverse : w.IsInverse m n) (P : Precision) (consts : List Interval) :
    (mapped P f w consts).Regular n :=
  Frame.regular_mk (regular.axes.mul inverse.regular')
    (by simp [regular.axes.shape.length, regular.ranges])

theorem mapped_range {f : Frame} {n i : ℕ} (regular : f.Regular n) (P : Precision) (w : Mat)
    (consts : List Interval) (hi : i < n) :
    (mapped P f w consts).ranges.getD i .top =
      (f.ranges.getD i .top).add P (P.dot ((mapped P f w consts).axes.getD i []) consts) :=
  getD_zipWith_rows (by simpa using regular.axes.shape.length) regular.ranges hi

theorem mapped_image {f : Frame} {n i : ℕ} {m w : Mat} (regular : f.Regular n)
    (inverse : w.IsInverse m n) (shape : m.HasShape n n) (P : Precision) (consts : List Interval)
    (x y : ℕ → K) (hi : i < n) :
    (mapped P f w consts).axes.image y i = f.axes.image x i +
      (mapped P f w consts).axes.image (fun j => y j - m.image x j) i := by
  have back : f.axes.image x i = Mat.image (f.axes.map (Mat.vecMat · w)) (m.image x) i := by
    rw [Mat.image_mul regular.axes.shape inverse.shape _ hi]
    exact Mat.image_congr regular.axes.shape (fun j hj => (inverse.image_image shape x hj).symm) i
  rw [back, mapped, Mat.image, Mat.image, Mat.image, ← Vec.eval_add]
  simp

theorem mapped_has {f : Frame} {n : ℕ} {m w : Mat} {consts : List Interval} (regular : f.Regular n)
    (inverse : w.IsInverse m n) (shape : m.HasShape n n) (length : consts.length = n) (P : Precision)
    {x y : ℕ → K} (has : f.Has x) (members : ∀ i < n, (consts.getD i .top).Has (y i - m.image x i)) :
    (mapped P f w consts).Has y := by
  have image := mapped_regular regular inverse P consts
  rw [regular.has_iff_lt] at has
  refine image.has_iff_lt.mpr fun i hi => ?_
  rw [mapped_range regular P w consts hi, mapped_image regular inverse shape P consts x y hi]
  exact Interval.add_has (has i hi) (dot_consts_has length (image.axes.shape.getD_length hi) members P)

theorem assignInvertible_meets {f : Frame} {n : ℕ} {m w : Mat} {consts : List Interval}
    (regular : f.Regular n) (shape : m.HasShape n n) (found : m.invert? = some w)
    (length : consts.length = n) :
    Op.Meets W W mayFail (assignInvertible cfg f w consts) fun g =>
      g.Regular n ∧ ∀ x y : ℕ → K, f.Has x →
        (∀ i < n, (consts.getD i .top).Has (y i - m.image x i)) → g.Has y := by
  have inverse := Mat.invert?_isInverse shape found
  unfold assignInvertible
  refine (Op.meets_lift_ok (Mat.mul_eq inverse.shape) rfl).bind ?_
  rintro _ rfl
  have image := mapped_regular regular inverse cfg.precision consts
  have points := fun (x y : ℕ → K) => mapped_has regular inverse shape length cfg.precision (x := x) (y := y)
  split
  · exact Op.inexact_meets.bind fun _ _ => Op.meets_pure ⟨image, points⟩
  · exact Op.meets_pure ⟨image, points⟩

/-! ## Equations -/

theorem meetEquations_keeps {ordered : Prop} {ds : List Direction} (shaped : a.Shaped ordered)
    (length : ∀ d ∈ ds, d.1.length = a.space.size) :
    Op.Keeps ordered False (meetEquations cfg ds a)
      (a.Narrows ordered fun x : ℕ → K => ∀ d ∈ ds, d.2.Has (d.1.eval x)) := by
  induction ds generalizing a with
  | nil => exact Op.meets_pure (narrows_self shaped)
  | cons d ds ih =>
    obtain ⟨first, rest⟩ := List.forall_mem_cons.mp length
    unfold meetEquations
    refine (meetDirection_keeps (K := K) shaped first d.2).bind fun b narrows => ?_
    refine (ih narrows.shaped (by rwa [narrows.space])).imp fun c later => ?_
    have both := narrows.trans later
    exact ⟨both.space, both.shaped, fun x admits has all => both.keeps x admits has
      (List.forall_mem_cons.mp all), both.within⟩

/-- The direction and its range say that the expression, over the first `n` dimensions, takes the value
of dimension `d` of a space of the given size. -/
structure Equates (n d size : ℕ) (e : Affine) (K : Type*) [Field K] [LinearOrder K] (dir : Direction) :
    Prop where
  length : dir.1.length = size
  const : dir.2 = e.const
  inside : ∀ t ∈ e.terms, t.1 < n
  has : ∀ z : ℕ → K, dir.2.Has (dir.1.eval z) ↔ e.Takes z (z d)

theorem equation_eq_ok {n d : ℕ} {e : Affine} {dir : Direction} (hd : d < n)
    (h : equation n d e = .ok dir) : Equates n d n e K dir := by
  obtain ⟨row, dense, rest⟩ := bind_eq_ok.mp h
  obtain rfl := Except.ok.inj rest
  have width : row.neg.length = n := by simpa [Vec.neg] using (Affine.dense_eq_ok (K := K) dense).1
  refine ⟨by simpa using width, rfl, (Affine.dense_spec dense).2.1, fun z => ?_⟩
  have value : Vec.eval (row.neg.set d (row.neg.getD d 0 + 1)) z = z d - row.eval z := by
    rw [Vec.eval_set (width.symm ▸ hd), Vec.eval_neg]
    push_cast
    ring
  rw [value, Affine.takes_iff_of_dense dense]

/-! ## Forgetting -/

omit [Field K] [LinearOrder K] [IsStrictOrderedRing K] in
theorem dense_of_equation {n d : ℕ} {e : Affine} {cause : Error} (h : equation n d e = .error cause) :
    e.dense n = .error cause := by
  unfold equation at h
  cases dense : e.dense n with
  | ok row =>
    rw [dense] at h
    cases h
  | error cause' =>
    rw [dense] at h
    cases h
    rfl

theorem not_mem_of_coeff?_eq_none {e : Affine} {d : ℕ} (h : e.coeff? d = none) :
    ∀ t ∈ e.terms, t.1 ≠ d := by
  rw [Affine.coeff?, List.lookup_eq_none_iff] at h
  rintro t ht rfl
  simpa using h t ht

/-- Forgetting the assigned dimensions fails only for an expression without a row of coefficients. -/
theorem assignForgetting_meets {dims : List ℕ} {exprs : List Affine} (ha : a.WellFormed)
    (distinct : dims.Nodup) (inside : ∀ d ∈ dims, d < a.space.size)
    (free : ∀ e ∈ exprs, ∀ d ∈ dims, e.coeff? d = none)
    (fails : ∀ e ∈ exprs, ∀ cause, e.dense a.space.size = .error cause → mayFail) :
    Op.Keeps True mayFail (a.assignForgetting cfg dims exprs)
      (a.Assigns dims .none fun (x : ℕ → K) vs => List.Forall₂ (fun e v => e.Takes x v) exprs vs) := by
  have named := Space.checkDistinct_eq_ok.mpr ⟨rfl, distinct, inside⟩
  unfold assignForgetting
  refine (forget_keeps (K := K) ha fun e refused => ?_).bind ?_
  · rw [named] at refused
    cases refused
  rintro b ⟨ds, checked, forgets⟩
  obtain ⟨named, -, -⟩ := Space.checkDistinct_eq_ok.mp checked
  obtain rfl := Datum.map_int_injective named
  refine (Op.meets_mapM (R := fun pair dir => equation b.space.size pair.1 pair.2 = .ok dir)
    ?_).bind fun equations solved => ?_
  · rintro ⟨d, e⟩ mem
    refine Op.meets_lift (fun _ ok => ok) fun cause error => ?_
    rw [forgets.space] at error
    exact fails e (List.of_mem_zip mem).2 cause (dense_of_equation error)
  have holds : ∀ dir ∈ equations, ∃ pair ∈ dims.zip exprs,
      Equates b.space.size pair.1 b.space.size pair.2 K dir := by
    intro dir hdir
    obtain ⟨pair, mem, ok⟩ := exists_of_mem_right solved hdir
    have small : pair.1 < b.space.size := forgets.space ▸ inside _ (List.of_mem_zip mem).1
    exact ⟨pair, mem, equation_eq_ok small ok⟩
  refine ((meetEquations_keeps (K := K) forgets.wellFormed fun dir hdir => ?_).of_total).imp ?_
  · obtain ⟨_, _, equates⟩ := holds dir hdir
    exact equates.length
  · intro c narrows
    refine ⟨narrows.space.trans forgets.space, narrows.shaped, fun x vs _ has takes admits _ => ?_⟩
    have kept := forgets.has x _ has admits (fun j hj => assigned_of_not_mem hj) (by simp)
    refine narrows.keeps _ (forgets.space ▸ admits) kept fun dir hdir => ?_
    obtain ⟨⟨d, e⟩, mem, equates⟩ := holds dir hdir
    -- The equation is read at the image, where the expression still sees the point: it mentions no assigned
    -- dimension.
    refine (equates.has _).mpr ((assigned_related distinct takes mem).congr fun t ht => ?_)
    refine assigned_of_not_mem fun hd => ?_
    exact not_mem_of_coeff?_eq_none (free e (List.of_mem_zip mem).2 t.1 hd) t ht rfl

theorem assignForgetting_keeps {dims : List ℕ} {exprs : List Affine} (ha : a.WellFormed)
    (distinct : dims.Nodup) (inside : ∀ d ∈ dims, d < a.space.size)
    (free : ∀ e ∈ exprs, ∀ d ∈ dims, e.coeff? d = none) :
    Op.Keeps True True (a.assignForgetting cfg dims exprs)
      (a.Assigns dims .none fun (x : ℕ → K) vs => List.Forall₂ (fun e v => e.Takes x v) exprs vs) :=
  assignForgetting_meets ha distinct inside free fun _ _ _ _ => trivial

/-! ## New dimensions -/

theorem freshEquation_eq_ok {n k j : ℕ} {e : Affine} {dir : Direction} (hj : j < k)
    (h : freshEquation n k j e = .ok dir) : Equates n (n + j) (n + k) e K dir := by
  obtain ⟨row, dense, rest⟩ := bind_eq_ok.mp h
  obtain rfl := Except.ok.inj rest
  have width : row.neg.length = n := by simpa [Vec.neg] using (Affine.dense_eq_ok (K := K) dense).1
  refine ⟨by simp [width, Vec.zeros], rfl, (Affine.dense_spec dense).2.1, fun z => ?_⟩
  have value : Vec.eval ((row.neg ++ Vec.zeros k).set (n + j) 1) z = z (n + j) - row.eval z := by
    have fresh : (row.neg ++ Vec.zeros k).getD (n + j) 0 = 0 := by
      rw [List.getD_append_right _ _ _ _ (by omega), width, Nat.add_sub_cancel_left]
      simp [Vec.zeros, hj]
    rw [Vec.eval_set (by simpa [width, Vec.zeros] using hj), Vec.eval_append, Vec.eval_zeros, fresh,
      Vec.eval_neg]
    push_cast
    ring
  rw [value, Affine.takes_iff_of_dense dense]

omit [Field K] [LinearOrder K] [IsStrictOrderedRing K] in
theorem dense_of_freshEquation {n k j : ℕ} {e : Affine} {cause : Error}
    (h : freshEquation n k j e = .error cause) : e.dense n = .error cause := by
  unfold freshEquation at h
  cases dense : e.dense n with
  | ok row =>
    rw [dense] at h
    cases h
  | error cause' =>
    rw [dense] at h
    cases h
    rfl

theorem freshEquations_eq_ok {n k : ℕ} {exprs : List Affine} {equations : List Direction}
    (same : k = exprs.length) (solved : List.Forall₂ (fun (pair : Affine × ℕ) dir =>
      freshEquation n k pair.2 pair.1 = .ok dir) exprs.zipIdx equations) :
    ∀ dir ∈ equations, ∃ e j, exprs[j]? = some e ∧ Equates n (n + j) (n + k) e K dir := by
  intro dir hdir
  obtain ⟨⟨e, j⟩, mem, ok⟩ := exists_of_mem_right solved hdir
  have entry : exprs[j]? = some e := List.mem_zipIdx_iff_getElem?.mp mem
  obtain ⟨hj, -⟩ := List.getElem?_eq_some_iff.mp entry
  exact ⟨e, j, entry, freshEquation_eq_ok (same ▸ hj) ok⟩

omit [IsStrictOrderedRing K] in
theorem Equates.appended_has {n k j : ℕ} {e : Affine} {dir : Direction} {exprs : List Affine}
    (equates : Equates n (n + j) (n + k) e K dir) (entry : exprs[j]? = some e) {x : ℕ → K} {vs : List K}
    (takes : List.Forall₂ (fun e v => e.Takes x v) exprs vs) :
    dir.2.Has (dir.1.eval (appended n x vs)) := by
  obtain ⟨hj, rfl⟩ := List.getElem?_eq_some_iff.mp entry
  have each := (List.forall₂_iff_get.mp takes).2 j hj (takes.length_eq ▸ hj)
  rw [equates.has, show appended n x vs (n + j) = vs.getD j 0 by simp [appended],
    List.getD_eq_getElem _ _ (takes.length_eq ▸ hj)]
  exact each.congr fun t ht => if_pos (equates.inside t ht)

omit [LinearOrder K] [IsStrictOrderedRing K] in
theorem admits_appended {s : Space} {x : ℕ → K} (admits : s.Admits x) (k : ℕ) (vs : List K) :
    Space.Admits ⟨s.ints, s.reals + k⟩ (appended s.size x vs) := by
  intro i hi
  have small : i < s.size := Nat.lt_add_right _ hi
  rw [appended, if_pos small]
  exact admits i hi

omit [IsStrictOrderedRing K] in
/-- With real dimensions added at its end, the value has its points with any values appended. -/
theorem Extends.appended_has {k : ℕ} {b : Parallelotope} {ordered : Prop} (ha : a.Shaped ordered)
    (extended : a.Extends ordered (.repeated a.space.size k false) false K b) {x : ℕ → K}
    (admits : a.space.Admits x) (has : a.Has x) (vs : List K) : b.Has (appended a.space.size x vs) := by
  obtain ⟨f, hf, hx⟩ := has
  have admits' : b.space.Admits (appended a.space.size x vs) := by
    rw [extended.space]
    exact admits_appended admits k vs
  refine extended.has _ admits' ⟨f, hf, (ha f hf).1.has_congr (fun j hj => ?_) hx⟩ (by simp)
  rw [(places_repeated a.space.size a.space.size k false).2 j hj hj, appended, if_pos hj]

omit [IsStrictOrderedRing K] in
theorem Extends.repeated_size {k : ℕ} {b : Parallelotope} {ordered : Prop}
    (extended : a.Extends ordered (.repeated a.space.size k false) false K b) :
    b.space.size = a.space.size + k := by
  have space : b.space = ⟨a.space.ints, a.space.reals + k⟩ := extended.space
  rw [space, Space.size_addReals]

/-- With the values of the expressions in new dimensions and without the assigned ones, the value has the
images of its points, up to the order of the dimensions. -/
theorem removed_has {dims ds : List ℕ} {exprs : List Affine} {equations : List Direction}
    {b c d : Parallelotope} (ha : a.WellFormed) (distinct : dims.Nodup)
    (inside : ∀ d ∈ dims, d < a.space.size) (same : dims.length = exprs.length)
    (extended : a.Extends True (.repeated a.space.size dims.length false) false K b)
    (solved : List.Forall₂ (fun (pair : Affine × ℕ) dir =>
      freshEquation a.space.size dims.length pair.2 pair.1 = .ok dir) exprs.zipIdx equations)
    (narrows : b.Narrows True (fun x : ℕ → K => ∀ dir ∈ equations, dir.2.Has (dir.1.eval x)) c)
    (restricted : c.Restricts True (.listing a.space dims) K ds d) :
    d.space.size = a.space.size ∧ ∀ (x : ℕ → K) vs, a.space.Admits x → a.Has x →
      List.Forall₂ (fun e v => e.Takes x v) exprs vs →
      d.Has fun i => assigned x dims vs ((kept a.space.size dims ++ dims).getD i 0) := by
  -- The old values of the assigned dimensions are gone; the new ones stand behind what is left.
  have listed : ds = dims.mergeSort :=
    (Nat.cast_injective (R := ℤ)).list_map restricted.dims.symm
  have places : kept c.space.size ds = kept a.space.size dims ++ List.range' a.space.size dims.length := by
    rw [narrows.space, extended.repeated_size, listed, kept_congr fun _ => List.mem_mergeSort,
      kept_add _ inside]
  have total := length_kept distinct inside
  constructor
  · rw [restricted.size, places, List.length_append, List.length_range', total]
  · intro x vs admits has takes
    have admits' : b.space.Admits (appended a.space.size x vs) := by
      rw [extended.space]
      exact admits_appended admits dims.length vs
    have cut : c.Has (appended a.space.size x vs) := by
      refine narrows.keeps _ admits' (extended.appended_has ha admits has vs) fun dir hdir => ?_
      obtain ⟨e, j, entry, equates⟩ := freshEquations_eq_ok (K := K) same solved dir hdir
      exact equates.appended_has entry takes
    refine restricted.has _ _ (narrows.space ▸ admits') cut fun i hi => ?_
    rw [places] at hi ⊢
    refine assigned_targets distinct inside (same.trans takes.length_eq) ?_
    simp only [List.length_append, List.length_range'] at hi
    omega

/-- New dimensions fail to hold the values only for an expression without a row of coefficients. -/
theorem assignThroughFresh_meets {dims : List ℕ} {exprs : List Affine} (ha : a.WellFormed)
    (distinct : dims.Nodup) (inside : ∀ d ∈ dims, d < a.space.size)
    (same : dims.length = exprs.length)
    (fails : ∀ e ∈ exprs, ∀ cause, e.dense a.space.size = .error cause → mayFail) :
    Op.Keeps True mayFail (a.assignThroughFresh cfg dims exprs)
      (a.Assigns dims .none fun (x : ℕ → K) vs => List.Forall₂ (fun e v => e.Takes x v) exprs vs) := by
  unfold assignThroughFresh
  refine (addDimensions_meets (K := K) ha _ false fun entry mem e refused => ?_).bind
    fun b extended => ?_
  · rw [checkInsertion_end a.space dims.length entry mem] at refused
    cases refused
  refine (Op.meets_mapM (R := fun pair dir =>
    freshEquation a.space.size dims.length pair.2 pair.1 = .ok dir) ?_).bind
      fun equations solved => ?_
  · rintro ⟨e, j⟩ mem
    refine Op.meets_lift (fun _ ok => ok) fun cause error => ?_
    have found : exprs[j]? = some e := List.mem_zipIdx_iff_getElem?.mp mem
    exact fails e (List.mem_of_getElem? found) cause (dense_of_freshEquation error)
  have size := extended.repeated_size
  refine ((meetEquations_keeps (K := K) extended.shaped fun dir hdir => ?_).of_total).bind ?_
  · obtain ⟨_, _, _, equates⟩ := freshEquations_eq_ok (K := K) same solved dir hdir
    exact equates.length.trans size.symm
  intro c narrows
  have small : ∀ d ∈ dims, d < c.space.size := fun d hd => by
    rw [narrows.space, size]
    exact Nat.lt_add_right _ (inside d hd)
  have ints : c.space.ints = a.space.ints := by rw [narrows.space, extended.space]; rfl
  have named := checked_listing (s := a.space) distinct small ints
  refine (removeDimensions_total (K := K) narrows.shaped named.1 named.2).bind ?_
  rintro d ⟨ds, restricted⟩
  obtain ⟨dsize, images⟩ := removed_has ha distinct inside same extended solved narrows restricted
  -- What is left is moved back to the places of the dimensions that it stands for.
  have perm := kept_append_perm distinct inside
  cases hf : d.frame? with
  | none =>
    refine Op.move_meets (shaped_bottom _) ⟨rfl, shaped_bottom _, fun x vs admits has takes _ _ => ?_⟩
    exact absurd (images x vs admits has takes) (not_has_of_none hf _)
  | some f =>
    obtain ⟨regular, ordered⟩ := restricted.shaped f hf
    rw [dsize] at regular
    refine (moveRows_keeps (K := K) regular ordered perm).imp ?_
    rintro b ⟨space, shaped, points⟩
    refine ⟨space, shaped, fun x vs admits has takes _ _ => points _ ?_⟩
    exact (has_iff_of_frame hf).mp (images x vs admits has takes)

theorem assignThroughFresh_keeps {dims : List ℕ} {exprs : List Affine} (ha : a.WellFormed)
    (distinct : dims.Nodup) (inside : ∀ d ∈ dims, d < a.space.size)
    (same : dims.length = exprs.length) :
    Op.Keeps True True (a.assignThroughFresh cfg dims exprs)
      (a.Assigns dims .none fun (x : ℕ → K) vs => List.Forall₂ (fun e v => e.Takes x v) exprs vs) :=
  assignThroughFresh_meets ha distinct inside same fun _ _ _ _ => trivial

/-! ## The operations -/

variable {target : Target}

omit [IsStrictOrderedRing K] in
theorem Assigns.finish {dims : List ℕ} {takes : (ℕ → K) → List K → Prop} {b c : Parallelotope}
    (assigns : a.Assigns dims .none takes b) (finishes : b.Finishes target K c) :
    a.Assigns dims target takes c where
  space := finishes.space.trans assigns.space
  wellFormed := finishes.wellFormed
  has x vs admits has takes admits' permits :=
    finishes.keeps _ (assigns.space ▸ admits') (assigns.has x vs admits has takes admits' trivial)
      permits

omit [IsStrictOrderedRing K] in
theorem Assigns.replace {dims : List ℕ} {takes takes' : (ℕ → K) → List K → Prop}
    {b : Parallelotope} (assigns : a.Assigns dims target takes b)
    (h : ∀ x vs, a.Points x → takes' x vs → takes x vs) : a.Assigns dims target takes' b where
  space := assigns.space
  wellFormed := assigns.wellFormed
  has x vs admits has takes := assigns.has x vs admits has (h x vs ⟨admits, has⟩ takes)

theorem assignAffine_keeps {data : List Datum} {exprs : List Affine} (ha : a.WellFormed)
    (ht : target.WellFormed) :
    Op.Keeps True True (a.assignAffine cfg data exprs target) fun c =>
      ∃ dims : List ℕ, data = dims.map (fun d => .int d) ∧ a.Assigns dims target
        (fun (x : ℕ → K) vs => List.Forall₂ (fun e v => e.Takes x v) exprs vs) c := by
  unfold assignAffine
  refine (checkTransfer_meets ht).bind ?_
  rintro dims ⟨rfl, distinct, inside, same, space⟩
  cases hf : a.frame? with
  | none =>
    refine ((finish_keeps (K := K) ha ht space).of_total).imp fun c finishes => ?_
    refine ⟨dims, rfl, finishes.space, finishes.wellFormed, fun x vs _ has => ?_⟩
    exact absurd has (not_has_of_none hf x)
  | some f =>
    by_cases none : dims.isEmpty
    · simp only [if_pos none]
      obtain rfl := List.isEmpty_iff.mp none
      refine ((finish_keeps (K := K) ha ht space).of_total).imp fun c finishes => ?_
      refine ⟨[], rfl, Assigns.finish ⟨rfl, ha, fun x vs _ has _ _ _ => has⟩ finishes⟩
    · simp only [if_neg none]
      have regular := (ha f hf).1
      refine (affineMap_meets (S := fun x : ℕ → K => a.Points x) distinct inside same
        fun e _ => (quasiLinearize_meets ha.weaken).imp fun e' => And.right).bind fun m maps => ?_
      cases found : m.matrix.invert? with
      | some w =>
        refine (assignInvertible_meets (K := K) regular maps.shape found maps.consts).bind ?_
        rintro g ⟨regular', has⟩
        -- The image may have its ranges in any order; only finishing puts the value in shape.
        have shaped : Shaped False ⟨a.space, some g⟩ := shaped_mk regular' False.elim
        have moved : Op.Meets (·.Shaped True) (·.Shaped False) False
            (Op.move ⟨a.space, some g⟩) (· = ⟨a.space, some g⟩) := Op.move_meets shaped rfl
        refine moved.bind_total ?_
        rintro _ rfl
        refine ((finish_meets (K := K) shaped rfl ht space).of_total).imp fun c finishes => ?_
        refine ⟨dims, rfl, finishes.space, finishes.wellFormed, ?_⟩
        intro x vs admits hx takes admits' permits
        refine finishes.keeps _ admits' (has_mk.mpr ?_) permits
        exact has x _ ((has_iff_of_frame hf).mp hx) (maps.values x ⟨admits, hx⟩ vs takes)
      | none =>
        -- The expressions of the map stand for the given ones on the points of the value.
        have replaced : ∀ (x : ℕ → K) vs, a.Points x →
            List.Forall₂ (fun e v => e.Takes x v) exprs vs →
            List.Forall₂ (fun e v => e.Takes x v) m.exprs vs :=
          fun x vs points takes => maps.takes x points vs takes
        simp only
        split
        · refine (assignThroughFresh_keeps (K := K) ha distinct inside
            (same.trans maps.count.symm)).bind fun b assigns => ?_
          refine ((finish_keeps (K := K) assigns.wellFormed ht
            (assigns.space ▸ space)).of_total).imp fun c finishes => ?_
          exact ⟨dims, rfl, (assigns.finish finishes).replace replaced⟩
        · rename_i mentioned
          have free : ∀ e ∈ m.exprs, ∀ d ∈ dims, e.coeff? d = Option.none := by
            simpa using mentioned
          refine (assignForgetting_keeps (K := K) ha distinct inside free).bind fun b assigns => ?_
          refine ((finish_keeps (K := K) assigns.wellFormed ht
            (assigns.space ▸ space)).of_total).imp fun c finishes => ?_
          exact ⟨dims, rfl, (assigns.finish finishes).replace replaced⟩

theorem assignTerm_keeps {data : List Datum} {terms : List Term} (ha : a.WellFormed)
    (ht : target.WellFormed) :
    Op.Keeps True True (a.assignTerm cfg data terms target) fun c =>
      ∃ dims : List ℕ, data = dims.map (fun d => .int d) ∧ a.Assigns dims target
        (fun (x : ℕ → K) vs => List.Forall₂ (fun t v => t.Takes x v) terms vs) c := by
  unfold assignTerm
  refine (checkTransfer_meets ht).bind ?_
  rintro dims ⟨rfl, distinct, inside, same, space⟩
  by_cases bottom : a.isBottom
  · simp only [if_pos bottom]
    refine ((finish_keeps (K := K) ha ht space).of_total).imp fun c finishes => ?_
    refine ⟨dims, rfl, finishes.space, finishes.wellFormed, ?_⟩
    rintro x vs - ⟨f, hf, -⟩
    simp [isBottom, hf] at bottom
  · simp only [if_neg bottom]
    refine (Op.meets_mapM (R := fun t e => t.LinearizedBy (fun x : ℕ → K => a.Points x) e)
      fun t _ => linearize_meets ha.weaken t).bind fun exprs linear => ?_
    refine (assignAffine_keeps (K := K) ha ht).imp ?_
    rintro c ⟨dims', named, assigns⟩
    refine ⟨dims', named, assigns.replace fun x vs points takes => ?_⟩
    exact forall₂_compose (fun t e v linear takes => linear x points v takes) linear takes

/-- Whenever an assignment returns a result, be it of affine expressions or of terms, the result has
the image of every point of integers of the value, for every choice of values that the expressions
take there, as long as the image is again a point of integers and the target has it. -/
theorem assignment_keeps_images (cfg : Settings) {a b : Parallelotope} {target : Target}
    {dims : List ℕ} {report : Report} {x : ℕ → K} {vs : List K} (ha : a.WellFormed)
    (ht : target.WellFormed) (hx : a.space.Admits x ∧ a.Has x)
    (hy : a.space.Admits (assigned x dims vs) ∧ target.Permits (assigned x dims vs)) :
    (∀ exprs : List Affine, List.Forall₂ (fun e v => e.Takes x v) exprs vs →
      (a.assignAffine cfg (dims.map fun d : ℕ => .int d) exprs target).start = (.ok b, report) →
      b.Has (assigned x dims vs)) ∧
    ∀ terms : List Term, List.Forall₂ (fun t v => t.Takes x v) terms vs →
      (a.assignTerm cfg (dims.map fun d : ℕ => .int d) terms target).start = (.ok b, report) →
      b.Has (assigned x dims vs) := by
  constructor
  · intro exprs takes returns
    obtain ⟨dims', named, assigns⟩ := (assignAffine_keeps (K := K) ha ht).of_start returns
    obtain rfl := Datum.map_int_injective named
    exact assigns.has x vs hx.1 hx.2 takes hy.1 hy.2
  · intro terms takes returns
    obtain ⟨dims', named, assigns⟩ := (assignTerm_keeps (K := K) ha ht).of_start returns
    obtain rfl := Datum.map_int_injective named
    exact assigns.has x vs hx.1 hx.2 takes hy.1 hy.2

/-- The point `(1, 1)` goes to `(3, 13 / 8)` when `i` becomes `2 i + y` and `y` becomes `i + y / 2`
with up to a quarter more, and to `(1, 1 / 2)` when `y` becomes the root of `y - 3 / 4`. -/
theorem assignment_keeps_images_sample :
    (∃ b report, (slantedSample.assignAffine {} [.int 0, .int 1]
        [.make [(0, .point 2), (1, .point 1)] .zero,
          .make [(0, .point 1), (1, .point (1 / 2))] ⟨.fin 0, .fin (1 / 4)⟩]
        (.value crossingSample {})).start = (.ok b, report) ∧
      b.Has (assigned (fun _ => (1 : ℚ)) [0, 1] [3, 13 / 8])) ∧
    ∃ b report, (slantedSample.assignTerm {} [.int 1]
        [.un .sqrt (.bin .sub (.var 1) (.const ⟨.fin 0, .fin (3 / 4)⟩))]
        (.value crossingSample {})).start = (.ok b, report) ∧
      b.Has (assigned (fun _ => (1 : ℚ)) [1] [1 / 2]) := by
  have point : slantedSample.space.Admits (fun _ => (1 : ℚ)) ∧ slantedSample.Has fun _ => (1 : ℚ) := by
    refine ⟨fun _ _ => ⟨1, by simp⟩, _, rfl, ?_⟩
    norm_num [Frame.Has, Frame.rows, Interval.Has]
  have target : Target.WellFormed (.value crossingSample {}) := ⟨crossingSample_wellFormed, rfl⟩
  constructor
  · obtain ⟨b, report, returns⟩ := Op.exists_start_eq (x := slantedSample.assignAffine {}
      [.int 0, .int 1] [.make [(0, .point 2), (1, .point 1)] .zero,
        .make [(0, .point 1), (1, .point (1 / 2))] ⟨.fin 0, .fin (1 / 4)⟩]
      (.value crossingSample {})) (by cbv)
    have image : slantedSample.space.Admits (assigned (fun _ => (1 : ℚ)) [0, 1] [3, 13 / 8]) ∧
        Target.Permits (assigned (fun _ => (1 : ℚ)) [0, 1] [3, 13 / 8]) (.value crossingSample {}) := by
      refine ⟨fun d hd => ⟨3, ?_⟩, _, rfl, ?_⟩
      · obtain rfl : d = 0 := Nat.lt_one_iff.mp hd
        rfl
      · norm_num [Frame.Has, Frame.rows, Interval.Has, assigned_cons]
    refine ⟨b, report, returns, (assignment_keeps_images {}
      slantedSample_wellFormed target point image).1 _ ?_ returns⟩
    have double : TermsTake [(0, .point 2), (1, .point 1)] (fun _ => (1 : ℚ)) 3 :=
      ⟨2, 1, by simp, ⟨1, 0, by simp, rfl, by norm_num⟩, by norm_num⟩
    have half : TermsTake [(0, .point 1), (1, .point (1 / 2))] (fun _ => (1 : ℚ)) (3 / 2) :=
      ⟨1, 1 / 2, by simp, ⟨1 / 2, 0, by simp, rfl, by norm_num⟩, by norm_num⟩
    refine .cons ?_ (.cons ?_ .nil)
    · simpa using Affine.make_takes (by decide) double (Interval.zero_has (K := ℚ))
    · have quarter : (⟨.fin 0, .fin (1 / 4)⟩ : Interval).Has (1 / 8 : ℚ) := by norm_num [Interval.Has]
      convert Affine.make_takes (by decide) half quarter using 1
      norm_num
  · obtain ⟨b, report, returns⟩ := Op.exists_start_eq (x := slantedSample.assignTerm {} [.int 1]
      [.un .sqrt (.bin .sub (.var 1) (.const ⟨.fin 0, .fin (3 / 4)⟩))] (.value crossingSample {}))
      (by decide +kernel)
    have image : slantedSample.space.Admits (assigned (fun _ => (1 : ℚ)) [1] [1 / 2]) ∧
        Target.Permits (assigned (fun _ => (1 : ℚ)) [1] [1 / 2]) (.value crossingSample {}) := by
      refine ⟨fun d hd => ⟨1, ?_⟩, _, rfl, ?_⟩
      · obtain rfl : d = 0 := Nat.lt_one_iff.mp hd
        rfl
      · norm_num [Frame.Has, Frame.rows, Interval.Has, assigned_cons, assigned_of_not_mem]
    refine ⟨b, report, returns, (assignment_keeps_images {}
      slantedSample_wellFormed target point image).2 _ ?_ returns⟩
    exact .cons ⟨1 / 4, ⟨1, 3 / 4, rfl, by norm_num [Term.Takes, Interval.Has], by norm_num [BinOp.Takes]⟩,
      by norm_num [UnOp.Takes]⟩ .nil

end Parallelotope

end SkewBox
