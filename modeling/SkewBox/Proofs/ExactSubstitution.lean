import SkewBox.Proofs.ExactTransfer
import SkewBox.Proofs.Substitution

/-!
# Substitutions that lose nothing

The rows of an inverse image are checked one by one, each with a choice of the constants of its own.
One choice serves them all if a constant that is not a number reaches no more than one of the rows that
restrict anything.

* `Frame.Restricts`, `Frame.Separates`: the rows that a dimension reaches.
* `Parallelotope.substituteAffine_lossless`: the operation.
-/

namespace SkewBox

variable {K : Type*} [Field K] [LinearOrder K]

/-! ## Rows and dimensions -/

theorem Vec.eval_congr_of_ne_zero {K : Type*} [Field K] {v : Vec} {x y : ℕ → K}
    (h : ∀ i, v.getD i 0 ≠ 0 → x i = y i) : v.eval x = v.eval y := by
  rw [eval_eq_sum le_rfl, eval_eq_sum le_rfl]
  refine Finset.sum_congr rfl fun i _ => ?_
  by_cases zero : v.getD i 0 = 0
  · rw [zero, Rat.cast_zero, zero_mul, zero_mul]
  · rw [h i zero]

namespace Frame

/-- Row `i` mentions the dimension and does not allow every value. -/
def Restricts (f : Frame) (d i : ℕ) : Prop :=
  f.axes.entry i d ≠ 0 ∧ (f.ranges.getD i .top).isTop = false

/-- Every constant may be a number, and one that may be several reaches one row at most. -/
def Separates (f : Frame) (dims : List ℕ) (exprs : List Affine) : Prop :=
  ∀ p ∈ dims.zip exprs, p.2.const.Filled ∧
    (p.2.const.isPoint ∨ ∀ i j, f.Restricts p.1 i → f.Restricts p.1 j → i = j)

theorem Regular.not_restricts {f : Frame} {n d i : ℕ} (regular : f.Regular n) (outside : n ≤ d) :
    ¬ f.Restricts d i := by
  rintro ⟨mentioned, -⟩
  apply mentioned
  by_cases hi : i < n
  · exact List.getD_eq_default _ _ (by rwa [regular.axes.shape.getD_length hi])
  · have missing : f.axes.getD i [] = [] :=
      List.getD_eq_default _ _ (by rw [regular.axes.shape.length]; omega)
    rw [Mat.entry, missing]
    rfl

end Frame

namespace Parallelotope

variable [IsStrictOrderedRing K] {cfg : Settings}

/-! ## One choice for all rows -/

section Composed

variable {f : Frame} {n : ℕ} {m : AffineMap} {x : ℕ → K}

theorem dot_consts_filled {consts : List Interval} {row : Vec} (length : consts.length = n)
    (width : row.length = n) (filled : ∀ I ∈ consts, I.Filled) :
    (Precision.exact.dot row consts).Filled := by
  have members : ∀ i, ∃ q : ℚ, (consts.getD i .top).Has q := Interval.filled_getD filled
  choose c hc using members
  exact ⟨_, dot_consts_has length width (fun i _ => hc i) .exact⟩

/-- Each row comes with a choice of the constants that takes it into its range. -/
theorem exists_row_choice (regular : f.Regular n) (filled : f.Filled) (shape : m.matrix.HasShape n n)
    (length : m.consts.length = n) (consts : ∀ I ∈ m.consts, I.Filled)
    (has : (composed .exact f m).Has x) (i : ℕ) :
    ∃ c : ℕ → K, (∀ j, (m.consts.getD j .top).Has (c j)) ∧ (f.ranges.getD i .top).Has
      (f.axes.image (m.matrix.image x) i + Vec.eval (f.axes.getD i []) c) := by
  obtain ⟨shape', lengths⟩ := composed_lengths regular shape .exact
  by_cases hi : i < n
  · have width := regular.axes.shape.getD_length hi
    have row := (Frame.has_iff (lengths.trans shape'.length.symm)).mp has i
    rw [composed_range regular .exact hi, Interval.sub_has_iff (Interval.filled_getD filled i)
      (dot_consts_filled length width consts)] at row
    -- Subtracting the constants from the range picks a member for each of them.
    obtain ⟨u, v, hu, hv, difference⟩ := row
    obtain ⟨c, members, rfl⟩ := Precision.exists_of_dot_has (width.trans length.symm).le consts hv
    refine ⟨c, members, ?_⟩
    have image : (composed .exact f m).axes.image x i = f.axes.image (m.matrix.image x) i := by
      simpa [Vec.eval_zero] using composed_image regular shape .exact (x := x) (y := m.matrix.image x) hi
    rw [← image, difference, sub_add_cancel]
    exact hu
  · have members : ∀ j, ∃ c : K, (m.consts.getD j .top).Has c := fun j =>
      (Interval.filled_getD consts j).exists_has
    choose c hc using members
    refine ⟨c, hc, ?_⟩
    rw [List.getD_eq_default _ _ (by rw [regular.ranges]; omega)]
    exact Interval.top_has

/-- A point of the composed frame is taken into the old one by one choice of the constants. -/
theorem exists_of_composed_has (regular : f.Regular n) (filled : f.Filled)
    (shape : m.matrix.HasShape n n) (length : m.consts.length = n) (consts : ∀ I ∈ m.consts, I.Filled)
    (separate : ∀ d < n, (m.consts.getD d .top).isPoint ∨
      ∀ i j, f.Restricts d i → f.Restricts d j → i = j)
    (has : (composed .exact f m).Has x) :
    ∃ y, f.Has y ∧ ∀ i < n, (m.consts.getD i .top).Has (y i - m.matrix.image x i) := by
  choose c members rows using exists_row_choice regular filled shape length consts has
  -- The number for a dimension is the choice of the row that it restricts, if there is one.
  have chosen : ∀ d, ∃ t : K, (m.consts.getD d .top).Has t ∧ ∀ i, f.Restricts d i → t = c i d := by
    intro d
    by_cases reached : ∃ i, f.Restricts d i
    · obtain ⟨i, hi⟩ := reached
      have inside : d < n := not_le.mp fun outside => regular.not_restricts outside hi
      refine ⟨c i d, members i d, fun j hj => ?_⟩
      cases separate d inside with
      | inl point => rw [(members i d).eq_midpoint point, (members j d).eq_midpoint point]
      | inr alone => rw [alone i j hi hj]
    · exact ⟨c 0 d, members 0 d, fun i hi => absurd ⟨i, hi⟩ reached⟩
  choose t ht same using chosen
  refine ⟨fun j => m.matrix.image x j + t j, regular.has_iff_lt.mpr fun i _ => ?_, fun i _ => ?_⟩
  · by_cases free : (f.ranges.getD i .top).isTop
    · exact Interval.has_of_isTop free
    · have agrees : Vec.eval (f.axes.getD i []) t = Vec.eval (f.axes.getD i []) (c i) :=
        Vec.eval_congr_of_ne_zero fun d mentioned => same d i ⟨mentioned, by simpa using free⟩
      rw [Mat.image, Vec.eval_add, agrees]
      exact rows i
  · rw [add_sub_cancel_left]
    exact ht i

end Composed

/-! ## The map before an assignment -/

theorem before_lossless (cfg : Settings) (a : Parallelotope) (dims : List ℕ) :
    Op.Lossless (a.before cfg dims) fun source => a.WellFormed → source.space = a.space :=
  (Op.scratch_lossless _).of_meets fun ha => (before_meets (K := ℚ) ha).imp fun _ known => known.1

theorem mapBefore_lossless (cfg : Settings) (a : Parallelotope) (dims : List ℕ) (exprs : List Affine) :
    Op.Lossless (a.mapBefore cfg dims exprs) fun m => a.WellFormed → dims.Nodup →
      (∀ d ∈ dims, d < a.space.size) → dims.length = exprs.length →
        Represents m a.space.size K dims exprs := by
  unfold mapBefore
  by_cases scalar : (exprs.all (·.isScalar)) = true
  · simp only [if_pos scalar, pure_bind]
    exact Op.aside_lossless ((affineMap_lossless (K := K) cfg a dims exprs).imp fun m represents _ => represents)
  · simp only [if_neg scalar]
    refine (before_lossless cfg a dims).bind fun source => ?_
    refine Op.aside_lossless ((affineMap_lossless (K := K) cfg source dims exprs).imp ?_)
    intro m represents space ha
    rw [← space ha]
    exact represents

/-! ## The operation -/

/-- The inverse image of a frame under an assignment whose constants it separates. -/
theorem composed_denotes {f : Frame} {s : Space} {m : AffineMap} {dims : List ℕ} {exprs : List Affine}
    (solid : f.Solid s) (inside : ∀ d ∈ dims, d < s.size) (represents : Represents m s.size K dims exprs)
    (separates : f.Separates dims exprs) (invertible : (composed .exact f m).axes.isInvertible = .ok true) :
    Denotes s (fun x : ℕ → K => ∃ y, Becomes s.size dims exprs x y ∧ f.Has y)
      ⟨s, some (composed .exact f m)⟩ := by
  obtain ⟨real, regular, filled⟩ := solid
  obtain ⟨shape, lengths⟩ := composed_lengths regular represents.shape .exact
  -- A row of the map has the constant of one of the expressions, or none.
  have constants : ∀ I ∈ m.consts, I.Filled := by
    intro I hI
    obtain ⟨i, hi, rfl⟩ := List.mem_iff_getElem.mp hI
    rw [← List.getD_eq_getElem _ .top hi]
    cases represents.origin i (represents.consts ▸ hi) with
    | inl zero => exact zero ▸ ⟨0, Interval.zero_has⟩
    | inr assigned =>
      obtain ⟨p, hp, -, eq⟩ := assigned
      exact eq ▸ (separates p hp).1
  have separate : ∀ d < s.size, (m.consts.getD d .top).isPoint ∨
      ∀ i j, f.Restricts d i → f.Restricts d j → i = j := by
    intro d hd
    cases represents.origin d hd with
    | inl zero => exact .inl (zero ▸ rfl)
    | inr assigned =>
      obtain ⟨p, hp, rfl, eq⟩ := assigned
      exact eq ▸ (separates p hp).2
  refine denotes_mk ⟨real, ?_, fun I hI => ?_⟩ fun x => ?_
  · exact Frame.regular_mk (Mat.regular_of_isInvertible shape invertible) lengths
  · obtain ⟨i, hi, rfl⟩ := List.mem_iff_getElem.mp hI
    have small : i < s.size := lengths ▸ hi
    rw [← List.getD_eq_getElem _ .top hi, composed_range regular .exact small]
    exact (Interval.filled_getD filled i).add (dot_consts_filled represents.consts
      (regular.axes.shape.getD_length small) constants).neg
  · simp only [← represents.becomes_iff inside]
    constructor
    · intro has
      obtain ⟨y, there, members⟩ := exists_of_composed_has regular filled represents.shape
        represents.consts constants separate has
      exact ⟨y, members, there⟩
    · rintro ⟨y, members, there⟩
      exact composed_has regular represents.shape represents.consts .exact members there

theorem finishSource_lossless (exact : cfg.precision = .exact) (a b : Parallelotope)
    (dims : List ℕ) (exprs : List Affine) (target : Target) :
    Op.Lossless (b.finish cfg target) fun c => a.Solid →
      b.Denotes a.space (fun x : ℕ → K => ∃ y, Becomes a.space.size dims exprs x y ∧ a.Has y) →
      dims.Nodup → (∀ d ∈ dims, d < a.space.size) → dims.length = exprs.length →
      target.InSpace a.space → target.WellFormed → target.Solid → ∀ x : ℕ → K, c.Has x ↔
        (∃ vs, List.Forall₂ (fun e v => e.Takes x v) exprs vs ∧ a.Has (assigned x dims vs)) ∧
          target.Permits x := by
  refine (finish_lossless (K := K) exact b target).imp ?_
  intro c finished ha source distinct inside same space ht solid x
  rw [(finished source.solid ht solid (source.space ▸ space)).has x, source.has x]
  simp only [becomes_iff distinct inside same]
  refine and_congr_left fun _ => ⟨?_, ?_⟩
  · rintro ⟨y, ⟨vs, takes, values⟩, has⟩
    exact ⟨vs, takes, ha.has_congr values has⟩
  · rintro ⟨vs, takes, has⟩
    exact ⟨_, ⟨vs, takes, fun _ _ => rfl⟩, has⟩

/-- The points that some values of the expressions take into the value, as far as the target permits
them; unless the value is empty, the expressions have rational coefficients. -/
theorem substituteAffine_lossless (exact : cfg.precision = .exact) (a : Parallelotope)
    (dims : List ℕ) (exprs : List Affine) (target : Target) :
    Op.Lossless (a.substituteAffine cfg (dims.map fun d : ℕ => .int d) exprs target) fun b => a.Solid →
      target.WellFormed → target.Solid → (∀ f, a.frame? = some f → f.Separates dims exprs) →
        (a.isBottom = false → ∀ e ∈ exprs, e.isScalar) ∧ ∀ x : ℕ → K, b.Has x ↔
          (∃ vs, List.Forall₂ (fun e v => e.Takes x v) exprs vs ∧ a.Has (assigned x dims vs)) ∧
            target.Permits x := by
  unfold substituteAffine
  refine (checkTransfer_lossless a _ exprs _ _ target).bind fun named => ?_
  have finishes : ∀ b, _ := fun b => finishSource_lossless (K := K) exact a b named exprs target
  cases hf : a.frame? with
  | none =>
    refine (finishes a).imp fun c finished checked ha ht solid _ => ?_
    obtain ⟨names, distinct, inside, same, space⟩ := checked ht
    obtain rfl := Datum.map_int_injective names
    refine ⟨by simp [isBottom, hf], ?_⟩
    refine finished ha (denotes_none rfl hf ?_) distinct inside same space ht solid
    rintro x ⟨y, -, has⟩
    exact not_has_of_none hf y has
  | some f =>
    by_cases none : named.isEmpty
    · simp only [if_pos none]
      obtain rfl := List.isEmpty_iff.mp none
      refine (finishes a).imp fun c finished checked ha ht solid _ => ?_
      obtain ⟨names, distinct, inside, same, space⟩ := checked ht
      obtain rfl := Datum.map_int_injective names
      have nothing : exprs = [] := List.eq_nil_of_length_eq_zero same.symm
      refine ⟨by simp [nothing], ?_⟩
      refine finished ha ((denotes_self ha).congr fun x => ?_) distinct inside same space ht solid
      simp only [becomes_nil]
      refine ⟨fun has => ⟨x, fun _ _ => rfl, has⟩, ?_⟩
      rintro ⟨y, agrees, has⟩
      exact ha.has_congr agrees has
    · simp only [if_neg none]
      refine (mapBefore_lossless (K := K) cfg a named exprs).bind fun m => ?_
      refine (Op.lossless_lift _).bind fun rows => (Op.lossless_lift _).bind fun invertible => ?_
      cases invertible with
      | true =>
        simp only [if_true]
        refine Op.move_bind_lossless ((finishes _).imp ?_)
        intro c finished tested product mapped checked ha ht solid separates
        obtain ⟨names, distinct, inside, same, space⟩ := checked ht
        obtain rfl := Datum.map_int_injective names
        have represents := mapped ha.wellFormed distinct inside same
        obtain rfl := Except.ok.inj (product.symm.trans (Mat.mul_eq represents.shape))
        rw [exact] at finished
        refine ⟨fun _ => represents.scalar, finished ha ?_ distinct inside same space ht solid⟩
        refine (composed_denotes (ha f hf) inside represents (separates f rfl) tested).congr ?_
        simp only [has_iff_of_frame hf, implies_true]
      | false =>
        -- A singular product is rebuilt from directions, and the mark is cleared first.
        simp only [Bool.false_eq_true, if_false]
        refine Op.inexact_lossless.bind fun _ => ?_
        refine (seed_lossless exact a.space _ fun _ : ℕ → K => True).bind fun b => ?_
        exact Op.move_bind_lossless ((finishes b).imp fun _ _ _ lost => lost.elim)

end Parallelotope

end SkewBox
