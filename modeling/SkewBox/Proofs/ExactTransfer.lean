import SkewBox.Proofs.Assignment
import SkewBox.Proofs.ExactConstraints
import SkewBox.Proofs.ExactReshape

/-!
# Assignments that lose nothing

An assignment relates the points before it to the points after it.  Each of the three ways in which
it is carried out gives exactly the points after it, as long as no constant is an infinity alone.

* `Becomes`: the points before and after a parallel assignment.
* `Parallelotope.assignScalar_lossless`, `assignAffine_lossless`: the operation.
-/

namespace SkewBox

variable {K : Type*} [Field K] [LinearOrder K]

/-! ## Points before and after -/

/-- The assignment may take `x` to `y`: other dimensions keep their values, and each assigned one gets
a value that its expression takes at `x`. -/
structure Becomes (n : ℕ) (dims : List ℕ) (exprs : List Affine) (x y : ℕ → K) : Prop where
  kept : ∀ i < n, i ∉ dims → y i = x i
  takes : ∀ p ∈ dims.zip exprs, p.2.Takes x (y p.1)

theorem becomes_nil {n : ℕ} {exprs : List Affine} {x y : ℕ → K} :
    Becomes n [] exprs x y ↔ ∀ i < n, y i = x i := by
  refine ⟨fun h i hi => h.kept i hi List.not_mem_nil, fun same => ⟨fun i hi _ => same i hi, ?_⟩⟩
  simp

omit [Field K] [LinearOrder K] in
theorem assigned_map {x y : ℕ → K} {dims : List ℕ} {i : ℕ} :
    assigned x dims (dims.map y) i = if i ∈ dims then y i else x i := by
  induction dims with
  | nil => simp [assigned]
  | cons d dims ih =>
    rw [List.map_cons, assigned_cons, ih]
    by_cases here : i = d
    · simp [here]
    · simp [here]

theorem becomes_iff {n : ℕ} {dims : List ℕ} {exprs : List Affine} {x y : ℕ → K} (distinct : dims.Nodup)
    (inside : ∀ d ∈ dims, d < n) (same : dims.length = exprs.length) :
    Becomes n dims exprs x y ↔ ∃ vs, List.Forall₂ (fun e v => e.Takes x v) exprs vs ∧
      ∀ i < n, y i = assigned x dims vs i := by
  constructor
  · intro becomes
    refine ⟨dims.map y, ?_, fun i hi => ?_⟩
    · rw [List.forall₂_map_right_iff]
      exact (List.forall₂_iff_zip.mpr ⟨same, fun mem => becomes.takes _ mem⟩).flip
    · rw [assigned_map]
      split_ifs with mem
      · rfl
      · exact becomes.kept i hi mem
  · rintro ⟨vs, takes, values⟩
    constructor
    · intro i hi out
      rw [values i hi, assigned_of_not_mem out]
    · intro p hp
      rw [values _ (inside _ (List.of_mem_zip hp).1)]
      exact assigned_related distinct takes hp

/-- A value that is given as the target is solid. -/
def Target.Solid : Target → Prop
  | .value b _ => b.Solid
  | _ => True

namespace Parallelotope

variable [IsStrictOrderedRing K] {cfg : Settings}

/-! ## Arguments -/

theorem targetValue?_lossless (a : Parallelotope) (target : Target) :
    Op.Lossless (a.targetValue? target) fun found => target.WellFormed → found = target.valueFor a := by
  refine Op.Lossless.of_meets ?_ targetValue?_meets
  cases target with
  | none => exact Op.lossless_pure trivial
  | operand => exact Op.lossless_pure trivial
  | value b sharing =>
    have current : Op.Lossless (Op.current sharing b) fun _ => True :=
      Op.get_lossless.bind fun _ => Op.lossless_pure fun _ => trivial
    exact current.bind fun _ => Op.lossless_pure fun _ => trivial

theorem checkTransfer_lossless {ε : Type} (a : Parallelotope) (data : List Datum) (exprs : List ε)
    (maxDim : ε → ℤ) (render : ε → String) (target : Target) :
    Op.Lossless (a.checkTransfer data exprs maxDim render target) fun dims => target.WellFormed →
      data = dims.map (fun d : ℕ => .int d) ∧ dims.Nodup ∧ (∀ d ∈ dims, d < a.space.size) ∧
        dims.length = exprs.length ∧ target.InSpace a.space := by
  refine Op.Lossless.of_meets ?_ checkTransfer_meets
  unfold checkTransfer
  by_cases same : data.length = exprs.length
  · simp only [ne_eq, same, not_true_eq_false, if_false]
    refine (Op.lossless_lift _).bind fun dims => ?_
    split
    · exact Op.lossless_throw_bind _
    · refine (targetValue?_lossless a target).bind fun found => ?_
      cases found with
      | none => exact Op.lossless_pure fun _ _ => trivial
      | some b => exact (Op.lossless_lift _).bind fun _ => Op.lossless_pure fun _ _ _ => trivial
  · simp only [ne_eq, same, not_false_eq_true, if_true]
    exact Op.lossless_throw_bind _

theorem finish_lossless (exact : cfg.precision = .exact) (a : Parallelotope) (target : Target) :
    Op.Lossless (a.finish cfg target) fun b => a.Solid → target.WellFormed → target.Solid →
      target.InSpace a.space → b.Denotes a.space fun x : ℕ → K => a.Has x ∧ target.Permits x := by
  unfold finish
  refine (targetValue?_lossless a target).bind fun found => ?_
  cases found with
  | none =>
    refine (tidy_lossless (K := K) cfg a).imp fun b tidied found ha ht _ _ => ?_
    refine (tidied ha).congr fun x => ?_
    have none := found ht
    cases target with
    | none => simp [Target.Permits]
    | operand => simp [Target.valueFor] at none
    | value c sharing => simp [Target.valueFor] at none
  | some b =>
    refine (meet_lossless (K := K) exact a b).bind fun c => ?_
    refine (tidy_lossless (K := K) cfg c).imp fun d tidied met found ha ht hb space => ?_
    have denotes : c.Denotes a.space fun x : ℕ → K => a.Has x ∧ target.Permits x := by
      have value := found ht
      cases target with
      | none => contradiction
      | operand =>
        obtain rfl := Option.some.inj value
        exact (met ha ha).congr fun x => by simp [Target.Permits]
      | value b' sharing =>
        obtain rfl := Option.some.inj value
        exact met ha hb
    refine ((denotes.space ▸ tidied denotes.solid).congr denotes.has)

/-! ## The affine map -/

/-- The map has the rows of the assignment: up to its constants, it gives a dimension the values that
this may get.  The coefficients are rational, and a constant is that of an expression or zero. -/
structure Represents (m : AffineMap) (n : ℕ) (K : Type*) [Field K] [LinearOrder K] (dims : List ℕ)
    (exprs : List Affine) : Prop where
  shape : m.matrix.HasShape n n
  consts : m.consts.length = n
  same : m.exprs = exprs
  scalar : ∀ e ∈ exprs, e.isScalar
  origin : ∀ i < n, m.consts.getD i .top = .zero ∨
    ∃ p ∈ dims.zip exprs, p.1 = i ∧ m.consts.getD i .top = p.2.const
  row : ∀ i < n, ∀ (x : ℕ → K) v, (m.consts.getD i .top).Has (v - m.matrix.image x i) ↔
    (i ∉ dims → v = x i) ∧ ∀ p ∈ dims.zip exprs, p.1 = i → p.2.Takes x v

theorem represents_identity (n : ℕ) :
    Represents ⟨.identity n, List.replicate n .zero, []⟩ n K [] [] where
  shape := Mat.hasShape_identity n
  consts := List.length_replicate ..
  same := rfl
  scalar := by simp
  origin i hi := .inl (by simp [hi])
  row i hi x v := by
    rw [Mat.image_identity hi, List.getD_eq_getElem _ _ (by simpa using hi), List.getElem_replicate,
      Interval.zero, Interval.point_has, Rat.cast_zero, sub_eq_zero]
    simp

theorem Represents.assignRow {m : AffineMap} {n d : ℕ} {dims : List ℕ} {exprs : List Affine}
    {e : Affine} {row : Vec} (represents : Represents m n K dims exprs) (hd : d < n)
    (fresh : d ∉ dims) (lengths : dims.length = exprs.length) (dense : e.dense n = .ok row) :
    Represents ⟨m.matrix.set d row, m.consts.set d e.const, m.exprs ++ [e]⟩ n K (dims ++ [d])
      (exprs ++ [e]) where
  shape := by
    refine ⟨by simp [represents.shape.length], fun v hv => ?_⟩
    cases List.mem_or_eq_of_mem_set hv with
    | inl old => exact represents.shape.width v old
    | inr new => rw [new, (Affine.dense_eq_ok (K := K) dense).1]
  consts := by simp [represents.consts]
  same := by rw [represents.same]
  scalar := by
    rw [List.forall_mem_append, List.forall_mem_singleton]
    exact ⟨represents.scalar, (Affine.dense_spec dense).1⟩
  origin i hi := by
    rw [getD_set (represents.consts.symm ▸ hd), List.zip_append lengths]
    by_cases here : i = d
    · exact .inr ⟨(d, e), by simp, here.symm, if_pos here⟩
    · rw [if_neg here]
      exact (represents.origin i hi).imp id fun ⟨p, hp, rest⟩ => ⟨p, List.mem_append_left _ hp, rest⟩
  row i hi x v := by
    -- The dimension was not assigned before, so no earlier expression speaks of its row.
    have elsewhere : ∀ p ∈ dims.zip exprs, p.1 ≠ d := fun p hp same =>
      fresh (same ▸ (List.of_mem_zip hp).1)
    rw [getD_set (represents.consts.symm ▸ hd), Frame.image_set (represents.shape.length.symm ▸ hd),
      List.zip_append lengths]
    by_cases here : i = d
    · subst here
      simp only [if_true, ← Affine.takes_iff_of_dense dense]
      refine ⟨fun takes => ⟨fun out => absurd (by simp) out, ?_⟩, fun h => h.2 (i, e) (by simp) rfl⟩
      intro p hp same
      cases List.mem_append.mp hp with
      | inl old => exact absurd same (elsewhere p old)
      | inr last =>
        obtain rfl : p = (i, e) := by simpa using last
        exact takes
    · simp only [if_neg here, represents.row i hi x v, List.forall_mem_append]
      simp [here, Ne.symm here]

theorem affineMap_lossless (cfg : Settings) (a : Parallelotope) (dims : List ℕ) (exprs : List Affine) :
    Op.Lossless (a.affineMap cfg dims exprs) fun m => dims.Nodup → (∀ d ∈ dims, d < a.space.size) →
      dims.length = exprs.length → Represents m a.space.size K dims exprs := by
  unfold affineMap
  refine (Op.lossless_foldlM (fun done m => (done.map (·.1)).Nodup →
    (∀ d ∈ done.map (·.1), d < a.space.size) →
      Represents m a.space.size K (done.map (·.1)) (done.map (·.2))) _ _ ?_).imp ?_
  · rintro done ⟨d, e⟩ m
    refine (quasiLinearize_lossless cfg a e).bind fun e' => (Op.lossless_lift _).bind fun row => ?_
    refine Op.lossless_pure ?_
    rintro dense rfl represents distinct inside
    simp only [List.map_append, List.map_cons, List.map_nil] at distinct inside ⊢
    obtain ⟨before, hd⟩ := List.forall_mem_append.mp inside
    obtain ⟨distinct, -, apart⟩ := List.nodup_append.mp distinct
    refine (represents distinct before).assignRow (hd d (by simp)) (fun mem => ?_) (by simp) dense
    exact apart d mem d (by simp) rfl
  · intro m represents distinct inside same
    rw [List.map_fst_zip same.le, List.map_snd_zip same.ge] at represents
    exact represents (fun _ _ => represents_identity _) distinct inside

omit [IsStrictOrderedRing K] in
theorem Represents.becomes_iff {m : AffineMap} {n : ℕ} {dims : List ℕ} {exprs : List Affine}
    (represents : Represents m n K dims exprs) (inside : ∀ d ∈ dims, d < n) {x y : ℕ → K} :
    (∀ i < n, (m.consts.getD i .top).Has (y i - m.matrix.image x i)) ↔ Becomes n dims exprs x y := by
  constructor
  · intro members
    have rows : ∀ i < n, _ := fun i hi => (represents.row i hi x (y i)).mp (members i hi)
    exact ⟨fun i hi => (rows i hi).1, fun p hp => (rows _ (inside _ (List.of_mem_zip hp).1)).2 p hp rfl⟩
  · intro becomes i hi
    refine (represents.row i hi x (y i)).mpr ⟨becomes.kept i hi, ?_⟩
    rintro p hp rfl
    exact becomes.takes p hp

/-! ## Invertible maps -/

section Mapped

variable {f : Frame} {n : ℕ} {m w : Mat} {consts : List Interval}

omit [IsStrictOrderedRing K] in
theorem constant_has_iff (length : consts.length = n) (points : ∀ I ∈ consts, I.isPoint) {i : ℕ} (hi : i < n)
    {v : K} : (consts.getD i .top).Has v ↔ v = (((consts.getD i .top).midpoint : ℚ) : K) := by
  have inside : i < consts.length := length ▸ hi
  have point : (consts.getD i .top).isPoint := by
    rw [List.getD_eq_getElem _ _ inside]
    exact points _ (List.getElem_mem inside)
  exact ⟨fun has => has.eq_midpoint point, fun same => same ▸ Interval.midpoint_has point⟩

theorem dot_filled (length : consts.length = n) (points : ∀ I ∈ consts, I.isPoint) {row : Vec}
    (width : row.length = n) : (Precision.exact.dot row consts).Filled :=
  ⟨_, dot_consts_has length width (fun _ hi => (constant_has_iff (K := ℚ) length points hi).mpr rfl) _⟩

theorem mapped_filled (regular : f.Regular n) (filled : f.Filled) (inverse : w.IsInverse m n)
    (length : consts.length = n) (points : ∀ I ∈ consts, I.isPoint) :
    (mapped .exact f w consts).Filled := by
  have image := mapped_regular regular inverse .exact consts
  intro I hI
  obtain ⟨i, hi, rfl⟩ := List.mem_iff_getElem.mp hI
  have small : i < n := image.ranges ▸ hi
  rw [← List.getD_eq_getElem _ .top hi, mapped_range regular .exact w consts small]
  exact (Interval.filled_getD filled i).add
    (dot_filled length points (image.axes.shape.getD_length small))

/-- Under an invertible map with constants that are numbers, a point after it tells the point before. -/
theorem exists_of_mapped_has (regular : f.Regular n) (filled : f.Filled) (inverse : w.IsInverse m n)
    (shape : m.HasShape n n) (length : consts.length = n) (points : ∀ I ∈ consts, I.isPoint)
    {y : ℕ → K} (has : (mapped .exact f w consts).Has y) :
    ∃ x, f.Has x ∧ ∀ i < n, (consts.getD i .top).Has (y i - m.image x i) := by
  have image := mapped_regular regular inverse .exact consts
  obtain ⟨x, before⟩ : ∃ x : ℕ → K, ∀ i < n, (consts.getD i .top).Has (y i - m.image x i) := by
    refine ⟨w.image fun j => y j - ((consts.getD j .top).midpoint : ℚ), fun i hi => ?_⟩
    rw [constant_has_iff length points hi, inverse.image_image' shape _ hi, sub_sub_cancel]
  refine ⟨x, regular.has_iff_lt.mpr fun i hi => ?_, before⟩
  have width := image.axes.shape.getD_length hi
  have row := image.has_iff_lt.mp has i hi
  rw [mapped_range regular .exact w consts hi, mapped_image regular inverse shape .exact consts x y hi,
    Interval.add_has_iff (Interval.filled_getD filled i) (dot_filled length points width)] at row
  obtain ⟨u, v, hu, hv, sum⟩ := row
  -- The constants add one number to the row, so that the rest is the row before.
  have added : v = (mapped .exact f w consts).axes.image (fun j => y j - m.image x j) i := by
    obtain ⟨c, members, rfl⟩ := Precision.exists_of_dot_has (width.trans length.symm).le
      (fun I hI => ⟨_, Interval.midpoint_has (K := ℚ) (points I hI)⟩) hv
    refine Vec.eval_congr fun j hj => ?_
    have small : j < n := width ▸ hj
    rw [(constant_has_iff length points small).mp (members j),
      (constant_has_iff length points small).mp (before j small)]
  rw [added] at sum
  rwa [add_right_cancel sum]

end Mapped

theorem assignInvertible_lossless (exact : cfg.precision = .exact) (f : Frame) (w : Mat)
    (consts : List Interval) (s : Space) :
    Op.Lossless (assignInvertible cfg f w consts) fun g => f.Solid s → ∀ m : Mat,
      m.HasShape s.size s.size → m.invert? = some w → consts.length = s.size →
        g.Solid s ∧ ∀ y : ℕ → K, g.Has y ↔
          ∃ x, f.Has x ∧ ∀ i < s.size, (consts.getD i .top).Has (y i - m.image x i) := by
  unfold assignInvertible
  refine (Op.lossless_lift _).bind fun rows => ?_
  by_cases points : consts.all (·.isPoint)
  · simp only [points, Bool.not_true, Bool.false_eq_true, if_false]
    refine Op.lossless_pure fun product solid m shape found length => ?_
    have inverse := Mat.invert?_isInverse shape found
    obtain rfl := Except.ok.inj (product.symm.trans (Mat.mul_eq inverse.shape))
    have numbers : ∀ I ∈ consts, I.isPoint := List.all_eq_true.mp points
    rw [exact]
    show (mapped .exact f w consts).Solid s ∧ ∀ y : ℕ → K, (mapped .exact f w consts).Has y ↔ _
    refine ⟨⟨solid.real, mapped_regular solid.regular inverse .exact consts,
      mapped_filled solid.regular solid.filled inverse length numbers⟩, fun y => ⟨?_, ?_⟩⟩
    · exact exists_of_mapped_has solid.regular solid.filled inverse shape length numbers
    · rintro ⟨x, has, members⟩
      exact mapped_has solid.regular inverse shape length .exact has members
  · simp only [points, Bool.not_false, if_true]
    -- Constants that are no numbers clear the mark.
    exact Op.inexact_lossless.bind fun _ => Op.lossless_pure False.elim

/-! ## Equations -/

theorem meetEquations_lossless (exact : cfg.precision = .exact) (dirs : List Direction)
    (a : Parallelotope) :
    Op.Lossless (meetEquations cfg dirs a) fun b => a.Solid →
      (∀ d ∈ dirs, d.1.length = a.space.size ∧ d.2.Proper) →
        b.Denotes a.space fun x : ℕ → K => a.Has x ∧ ∀ d ∈ dirs, d.2.Has (d.1.eval x) := by
  induction dirs generalizing a with
  | nil => exact Op.lossless_pure fun ha _ => (denotes_self ha).congr fun x => by simp
  | cons d dirs ih =>
    unfold meetEquations
    refine (meetDirection_lossless (K := K) exact a d.1 d.2).bind fun b => (ih b).imp ?_
    intro c later first ha fits
    obtain ⟨fit, fits⟩ := List.forall_mem_cons.mp fits
    have met := first ha fit.1 fit.2
    have rest := later met.solid (by rwa [met.space])
    rw [met.space] at rest
    refine rest.congr fun x => ?_
    rw [met.has x, List.forall_mem_cons, and_assoc]

/-! ## Forgetting -/

omit [IsStrictOrderedRing K] in
/-- A point that agrees with one of the value matters only inside the space. -/
theorem Solid.exists_agreeing {a : Parallelotope} (solid : a.Solid) {ds : List ℕ} {z : ℕ → K} :
    (∃ x, a.Has x ∧ ∀ j, j ∉ ds → x j = z j) ↔
      ∃ x, a.Has x ∧ ∀ j < a.space.size, j ∉ ds → z j = x j := by
  constructor
  · rintro ⟨x, has, agrees⟩
    exact ⟨x, has, fun j _ out => (agrees j out).symm⟩
  · rintro ⟨x, has, agrees⟩
    refine ⟨fun j => if j < a.space.size then x j else z j, ?_, fun j out => ?_⟩
    · exact solid.has_congr (fun j hj => (if_pos hj).symm) has
    · by_cases hj : j < a.space.size
      · exact (if_pos hj).trans (agrees j hj out).symm
      · exact if_neg hj

theorem assignForgetting_lossless (exact : cfg.precision = .exact) (a : Parallelotope) (dims : List ℕ)
    (exprs : List Affine) :
    Op.Lossless (a.assignForgetting cfg dims exprs) fun b => a.Solid → (∀ d ∈ dims, d < a.space.size) →
      (∀ e ∈ exprs, e.const.Proper) → (∀ e ∈ exprs, ∀ d ∈ dims, e.coeff? d = none) →
        b.Denotes a.space fun y : ℕ → K => ∃ x, a.Has x ∧ Becomes a.space.size dims exprs x y := by
  unfold assignForgetting
  refine (forget_lossless (K := K) exact a _ false).bind fun v => ?_
  refine (Op.lossless_mapM (R := fun p dir => equation v.space.size p.1 p.2 = .ok dir) _ ?_).bind
    fun equations => (meetEquations_lossless (K := K) exact equations v).imp ?_
  · rintro ⟨d, e⟩
    exact Op.lossless_lift _
  intro b met solved forgotten ha inside proper free
  obtain ⟨ds, named, space, solid, forgets⟩ := forgotten ha
  obtain rfl := Datum.map_int_injective (Space.checkDistinct_eq_ok.mp named).1
  rw [space] at met solved
  have equates : ∀ p ∈ dims.zip exprs, ∀ dir, equation a.space.size p.1 p.2 = .ok dir →
      Equates a.space.size p.1 a.space.size p.2 K dir := fun p hp dir ok =>
    equation_eq_ok (inside _ (List.of_mem_zip hp).1) ok
  refine (met solid fun dir hdir => ?_).congr fun y => ?_
  · obtain ⟨p, hp, ok⟩ := exists_of_mem_right solved hdir
    exact ⟨(equates p hp dir ok).length, (equates p hp dir ok).const ▸ proper _ (List.of_mem_zip hp).2⟩
  rw [(forgets y).trans ((and_iff_right nofun).trans ha.exists_agreeing)]
  -- The expressions do not see the difference between the points before and after.
  have holds : ∀ x : ℕ → K, (∀ i < a.space.size, i ∉ dims → y i = x i) →
      ((∀ dir ∈ equations, dir.2.Has (dir.1.eval y)) ↔ ∀ p ∈ dims.zip exprs, p.2.Takes x (y p.1)) := by
    intro x agrees
    refine forall_mem_iff_of_forall₂ solved fun p hp dir ok => ((equates p hp dir ok).has y).trans ?_
    have same : ∀ t ∈ p.2.terms, y t.1 = x t.1 := fun t ht =>
      agrees t.1 ((equates p hp dir ok).inside t ht) fun hd =>
        not_mem_of_coeff?_eq_none (free p.2 (List.of_mem_zip hp).2 t.1 hd) t ht rfl
    exact ⟨fun takes => takes.congr fun t ht => (same t ht).symm, fun takes => takes.congr same⟩
  constructor
  · rintro ⟨⟨x, has, agrees⟩, all⟩
    exact ⟨x, has, agrees, (holds x agrees).mp all⟩
  · rintro ⟨x, has, agrees, takes⟩
    exact ⟨⟨x, has, agrees⟩, (holds x agrees).mpr takes⟩

/-! ## New dimensions -/

omit [LinearOrder K] [IsStrictOrderedRing K] in
theorem appended_self {n k i : ℕ} {z : ℕ → K} (hi : i < n + k) :
    appended n z ((List.range k).map fun j => z (n + j)) i = z i := by
  by_cases early : i < n
  · simp [appended, early]
  · simp [appended, early, show i - n < k by omega, show n + (i - n) = i by omega]

/-- With dimensions behind it that hold the values of the expressions, a point shows the assignment at
the places that are left. -/
theorem fresh_has_iff {dims : List ℕ} {exprs : List Affine} {n : ℕ} {equations : List Direction}
    (distinct : dims.Nodup) (inside : ∀ d ∈ dims, d < n) (same : dims.length = exprs.length)
    (solved : List.Forall₂ (fun (p : Affine × ℕ) dir => freshEquation n dims.length p.2 p.1 = .ok dir)
      exprs.zipIdx equations) {S : (ℕ → K) → Prop} (near : ∀ x z, (∀ j < n, x j = z j) → S x → S z)
    {y : ℕ → K} :
    (∃ z, (S z ∧ ∀ dir ∈ equations, dir.2.Has (dir.1.eval z)) ∧ ∀ i < n,
      y ((kept n dims ++ dims).getD i 0) = z ((kept n dims ++ List.range' n dims.length).getD i 0)) ↔
    ∃ x, S x ∧ Becomes n dims exprs x y := by
  have perm := kept_append_perm distinct inside
  have total := length_kept distinct inside
  simp only [becomes_iff distinct inside same]
  constructor
  · rintro ⟨z, ⟨hz, holds⟩, agrees⟩
    -- The values of the assignment are what the point has behind the first `n` places.
    refine ⟨z, hz, (List.range dims.length).map fun j => z (n + j), ?_, fun i hi => ?_⟩
    · have all : ∀ p ∈ exprs.zipIdx, p.1.Takes z (z (n + p.2)) := by
        refine (forall_mem_iff_of_forall₂ solved fun p hp dir ok => ?_).mp holds
        obtain ⟨hj, -⟩ := List.getElem?_eq_some_iff.mp (List.mem_zipIdx_iff_getElem?.mp hp)
        exact (freshEquation_eq_ok (same ▸ hj) ok).has z
      refine List.forall₂_iff_get.mpr ⟨by simp [same], fun j hj _ => ?_⟩
      have takes := all (exprs[j], j) (List.mem_zipIdx_iff_getElem?.mpr (List.getElem?_eq_getElem hj))
      simpa using takes
    · obtain ⟨i', hi', rfl⟩ := List.mem_iff_getElem.mp (perm.mem_iff.mpr (List.mem_range.mpr hi))
      have small : i' < n := by simpa [total] using hi'
      rw [← List.getD_eq_getElem _ 0 hi', agrees i' small, assigned_targets distinct inside (by simp) small]
      have place : (kept n dims ++ List.range' n dims.length).getD i' 0 < n + dims.length := by
        cases List.mem_append.mp (getD_mem (l := kept n dims ++ List.range' n dims.length) (i := i')
          (by simpa [total] using small)) with
        | inl early => exact Nat.lt_add_right _ (mem_kept.mp early).1
        | inr late => exact (List.mem_range'_1.mp late).2
      exact (appended_self place).symm
  · rintro ⟨x, hx, vs, takes, values⟩
    have lengths : dims.length = vs.length := same.trans takes.length_eq
    refine ⟨appended n x vs, ⟨near x _ (fun j hj => (if_pos hj).symm) hx, fun dir hdir => ?_⟩, ?_⟩
    · obtain ⟨e, j, entry, equates⟩ := freshEquations_eq_ok (K := K) same solved dir hdir
      exact equates.appended_has entry takes
    · intro i hi
      have small : (kept n dims ++ dims).getD i 0 < n :=
        List.mem_range.mp (perm.mem_iff.mp (getD_mem (by simpa [total] using hi)))
      rw [values _ small, assigned_targets distinct inside lengths hi]

omit [IsStrictOrderedRing K] in
theorem ExtendsOnly.repeated_size {a b : Parallelotope} {k : ℕ}
    (extended : a.ExtendsOnly (.repeated a.space.size k false) false K b) :
    b.space.size = a.space.size + k := by
  have space : b.space = ⟨a.space.ints, a.space.reals + k⟩ := extended.space
  rw [space, Space.size_addReals]

/-- What is left of the value after its new dimensions got the values of the expressions and the
assigned ones were removed. -/
theorem removed_has_iff {a b c d : Parallelotope} {dims ds : List ℕ} {exprs : List Affine}
    {equations : List Direction} (ha : a.Solid) (distinct : dims.Nodup)
    (inside : ∀ d ∈ dims, d < a.space.size) (same : dims.length = exprs.length)
    (extended : a.ExtendsOnly (.repeated a.space.size dims.length false) false K b)
    (solved : List.Forall₂ (fun (p : Affine × ℕ) dir =>
      freshEquation a.space.size dims.length p.2 p.1 = .ok dir) exprs.zipIdx equations)
    (met : c.Denotes b.space fun z : ℕ → K => b.Has z ∧ ∀ dir ∈ equations, dir.2.Has (dir.1.eval z))
    (restricts : c.RestrictsOnly (.listing a.space dims) K ds d) :
    d.space.size = a.space.size ∧ ∀ y : ℕ → K,
      (d.Has fun i => y ((kept a.space.size dims ++ dims).getD i 0)) ↔
        ∃ x, a.Has x ∧ Becomes a.space.size dims exprs x y := by
  -- What is left are the dimensions that were not assigned, and behind them the new ones.
  have places : kept c.space.size ds = kept a.space.size dims ++ List.range' a.space.size dims.length := by
    rw [met.space, extended.repeated_size, listed_of_checked restricts.checked,
      kept_congr fun _ => List.mem_mergeSort, kept_add _ inside]
  have total : (kept a.space.size dims ++ List.range' a.space.size dims.length).length = a.space.size := by
    rw [List.length_append, List.length_range', length_kept distinct inside]
  refine ⟨by rw [restricts.size, places, total], fun y => ?_⟩
  have near : ∀ x z : ℕ → K, (∀ j < a.space.size, x j = z j) → a.Has x → a.Has z := fun x z =>
    ha.has_congr
  -- The old dimensions stay where they are, so the value reads the same point.
  have old : ∀ z : ℕ → K, b.Has z ↔ a.Has z := by
    intro z
    rw [extended.has z, and_iff_left nofun]
    have stays := (places_repeated a.space.size a.space.size dims.length false).2
    exact ⟨near _ _ fun j hj => by rw [stays j hj hj], near _ _ fun j hj => by rw [stays j hj hj]⟩
  rw [restricts.has, ← fresh_has_iff distinct inside same solved near]
  simp only [places, total, met.has, old]

/-- The equations of the new dimensions fit the value that has them. -/
theorem meetFresh_lossless (exact : cfg.precision = .exact) (a b : Parallelotope) (dims : List ℕ)
    (exprs : List Affine) (equations : List Direction) :
    Op.Lossless (meetEquations cfg equations b) fun c =>
      List.Forall₂ (fun (p : Affine × ℕ) dir =>
        freshEquation a.space.size dims.length p.2 p.1 = .ok dir) exprs.zipIdx equations →
      a.ExtendsOnly (.repeated a.space.size dims.length false) false K b → dims.length = exprs.length →
      (∀ e ∈ exprs, e.const.Proper) →
        c.Denotes b.space fun z : ℕ → K => b.Has z ∧ ∀ dir ∈ equations, dir.2.Has (dir.1.eval z) := by
  refine (meetEquations_lossless (K := K) exact equations b).imp ?_
  intro c met solved extended same proper
  refine met (extended.solid rfl) fun dir hdir => ?_
  obtain ⟨e, j, entry, equates⟩ := freshEquations_eq_ok (K := K) same solved dir hdir
  rw [extended.repeated_size, equates.const]
  exact ⟨equates.length, proper e (List.mem_of_getElem? entry)⟩

theorem assignThroughFresh_lossless (exact : cfg.precision = .exact) (a : Parallelotope)
    (dims : List ℕ) (exprs : List Affine) :
    Op.Lossless (a.assignThroughFresh cfg dims exprs) fun b => a.Solid → a.space.ints = 0 → dims.Nodup →
      (∀ d ∈ dims, d < a.space.size) → dims.length = exprs.length → (∀ e ∈ exprs, e.const.Proper) →
        b.Denotes a.space fun y : ℕ → K => ∃ x, a.Has x ∧ Becomes a.space.size dims exprs x y := by
  unfold assignThroughFresh
  refine (addDimensions_lossless (K := K) cfg a _ false).bind fun b => ?_
  refine (Op.lossless_mapM (R := fun p dir =>
    freshEquation a.space.size dims.length p.2 p.1 = .ok dir) _ ?_).bind fun equations => ?_
  · rintro ⟨e, j⟩
    exact Op.lossless_lift _
  refine (meetFresh_lossless (K := K) exact a b dims exprs equations).bind fun c => ?_
  refine (removeDimensions_lossless (K := K) exact c _).bind fun d => ?_
  cases hf : d.frame? with
  | none =>
    refine Op.move_lossless fun restricts met solved extends' ha real distinct inside same proper => ?_
    have met := met solved (extends' ha) same proper
    obtain ⟨ds, restricts⟩ := restricts met.solid
    obtain ⟨-, has⟩ := removed_has_iff ha distinct inside same (extends' ha) solved met restricts
    exact denotes_none rfl rfl fun y image => not_has_of_none hf _ ((has y).mpr image)
  | some f =>
    refine (moveRows_lossless (K := K) f a.space _).imp ?_
    intro e moved restricts met solved extends' ha real distinct inside same proper
    have met := met solved (extends' ha) same proper
    obtain ⟨ds, restricts⟩ := restricts met.solid
    obtain ⟨size, has⟩ := removed_has_iff ha distinct inside same (extends' ha) solved met restricts
    have solid := restricts.solid f hf
    refine (moved ⟨real, size ▸ solid.regular, solid.filled⟩ (kept_append_perm distinct inside)).congr ?_
    intro y
    rw [← has y, has_iff_of_frame hf]
    rfl

/-! ## The operation -/

theorem finishImage_lossless (exact : cfg.precision = .exact) (a b : Parallelotope)
    (data : List Datum) (dims : List ℕ) (exprs : List Affine) (target : Target) :
    Op.Lossless (b.finish cfg target) fun c =>
      b.Denotes a.space (fun y : ℕ → K => ∃ x, a.Has x ∧ Becomes a.space.size dims exprs x y) →
      (target.WellFormed → data = dims.map (fun d : ℕ => .int d) ∧ dims.Nodup ∧
        (∀ d ∈ dims, d < a.space.size) ∧ dims.length = exprs.length ∧ target.InSpace a.space) →
      target.WellFormed → target.Solid → ∃ dims : List ℕ,
        data = dims.map (fun d : ℕ => .int d) ∧ ∀ y : ℕ → K, c.Has y ↔
          (∃ x vs, a.Has x ∧ List.Forall₂ (fun e v => e.Takes x v) exprs vs ∧
            ∀ i < a.space.size, y i = assigned x dims vs i) ∧ target.Permits y := by
  refine (finish_lossless (K := K) exact b target).imp fun c finished image checked ht solid => ?_
  obtain ⟨named, distinct, inside, same, space⟩ := checked ht
  refine ⟨dims, named, fun y => ?_⟩
  rw [(finished image.solid ht solid (image.space ▸ space)).has y, image.has y]
  simp only [becomes_iff distinct inside same, exists_and_left]

/-- The image of a value under a parallel assignment, as far as the target permits it; unless the value
is empty, the expressions have rational coefficients. -/
theorem assignScalar_lossless (exact : cfg.precision = .exact) (a : Parallelotope) (data : List Datum)
    (exprs : List Affine) (target : Target) :
    Op.Lossless (a.assignAffine cfg data exprs target) fun b => a.Solid → target.WellFormed →
      target.Solid → (∀ e ∈ exprs, e.const.Proper) → (a.isBottom = false → ∀ e ∈ exprs, e.isScalar) ∧
        ∃ dims : List ℕ, data = dims.map (fun d : ℕ => .int d) ∧ ∀ y : ℕ → K, b.Has y ↔
          (∃ x vs, a.Has x ∧ List.Forall₂ (fun e v => e.Takes x v) exprs vs ∧
            ∀ i < a.space.size, y i = assigned x dims vs i) ∧ target.Permits y := by
  unfold assignAffine
  refine (checkTransfer_lossless a data exprs _ _ target).bind fun dims => ?_
  have finishes : ∀ b, _ := fun b => finishImage_lossless (K := K) exact a b data dims exprs target
  cases hf : a.frame? with
  | none =>
    refine (finishes a).imp fun c finished checked ha ht solid proper => ?_
    refine ⟨by simp [isBottom, hf], finished (denotes_none rfl hf ?_) checked ht solid⟩
    rintro y ⟨x, has, -⟩
    exact not_has_of_none hf x has
  | some f =>
    by_cases none : dims.isEmpty
    · simp only [if_pos none]
      obtain rfl := List.isEmpty_iff.mp none
      refine (finishes a).imp fun c finished checked ha ht solid proper => ?_
      obtain ⟨-, -, -, same, -⟩ := checked ht
      have nothing : exprs = [] := List.eq_nil_of_length_eq_zero same.symm
      refine ⟨by simp [nothing], finished ((denotes_self ha).congr fun y => ?_) checked ht solid⟩
      simp only [becomes_nil]
      refine ⟨fun has => ⟨y, has, fun _ _ => rfl⟩, ?_⟩
      rintro ⟨x, has, same⟩
      exact ha.has_congr (fun i hi => (same i hi).symm) has
    · simp only [if_neg none]
      refine (affineMap_lossless (K := K) cfg a dims exprs).bind fun m => ?_
      -- Each of the three ways of assigning has its own lemma; what follows them is shared.
      cases found : m.matrix.invert? with
      | some w =>
        refine (assignInvertible_lossless (K := K) exact f w m.consts a.space).bind fun g => ?_
        refine Op.move_bind_lossless ((finishes ⟨a.space, some g⟩).imp ?_)
        intro c finished image represents checked ha ht solid proper
        obtain ⟨-, distinct, inside, same, -⟩ := checked ht
        have represents := represents distinct inside same
        obtain ⟨solid', has⟩ := image (ha f hf) m.matrix represents.shape found represents.consts
        refine ⟨fun _ => represents.scalar,
          finished (denotes_mk solid' fun y => (has y).trans ?_) checked ht solid⟩
        simp only [represents.becomes_iff inside, has_iff_of_frame hf]
      | none =>
        simp only
        split
        · refine (assignThroughFresh_lossless (K := K) exact a dims m.exprs).bind fun b => ?_
          refine (finishes b).imp fun c finished image represents checked ha ht solid proper => ?_
          obtain ⟨-, distinct, inside, same, -⟩ := checked ht
          have represents := represents distinct inside same
          rw [represents.same] at image
          exact ⟨fun _ => represents.scalar,
            finished (image ha (ha f hf).real distinct inside same proper) checked ht solid⟩
        · rename_i mentioned
          refine (assignForgetting_lossless (K := K) exact a dims m.exprs).bind fun b => ?_
          refine (finishes b).imp fun c finished image represents checked ha ht solid proper => ?_
          obtain ⟨-, distinct, inside, same, -⟩ := checked ht
          have free : ∀ e ∈ m.exprs, ∀ d ∈ dims, e.coeff? d = Option.none := by
            simpa using mentioned
          have represents := represents distinct inside same
          rw [represents.same] at image free
          exact ⟨fun _ => represents.scalar, finished (image ha inside proper free) checked ht solid⟩

theorem assignAffine_lossless (exact : cfg.precision = .exact) (a : Parallelotope) (data : List Datum)
    (exprs : List Affine) (target : Target) :
    Op.Lossless (a.assignAffine cfg data exprs target) fun b => a.Solid → target.WellFormed →
      target.Solid → (∀ e ∈ exprs, e.const.Proper) → ∃ dims : List ℕ,
        data = dims.map (fun d : ℕ => .int d) ∧ ∀ y : ℕ → K, b.Has y ↔
          (∃ x vs, a.Has x ∧ List.Forall₂ (fun e v => e.Takes x v) exprs vs ∧
            ∀ i < a.space.size, y i = assigned x dims vs i) ∧ target.Permits y :=
  (assignScalar_lossless exact a data exprs target).imp fun _ image ha ht solid proper =>
    (image ha ht solid proper).2

end Parallelotope

end SkewBox
