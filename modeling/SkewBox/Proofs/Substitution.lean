import SkewBox.Proofs.Seed
import SkewBox.Proofs.Transfer

/-!
# Substitution

The inverse image of a value under a parallel assignment: the rows are composed with the map of the
assignment, and when they become dependent a new frame is seeded from them.

* `Parallelotope.Substitutes`: what the result of a substitution satisfies.
* `Parallelotope.composed`: the rows of a frame, read at the points before an assignment.
* `Parallelotope.substitution_keeps_sources`: every point whose image is in the value stays.
-/

namespace SkewBox

namespace Parallelotope

variable {K : Type*} [Field K] [LinearOrder K] {a : Parallelotope} {cfg : Settings} {target : Target}
  {W : Parallelotope → Prop}

/-- What a substitution for the dimensions gives: a well-formed value of the same space that has
every point of the target that an assignment of values can take into the operand. -/
structure Substitutes (a : Parallelotope) (dims : List ℕ) (target : Target)
    (takes : (ℕ → K) → List K → Prop) (b : Parallelotope) : Prop where
  space : b.space = a.space
  wellFormed : b.WellFormed
  has : ∀ x vs, a.space.Admits x → takes x vs → a.Has (assigned x dims vs) → target.Permits x → b.Has x

/-- The points of integers that some values for the dimensions take into the operand. -/
def Reaches (a : Parallelotope) (dims : List ℕ) (x : ℕ → K) : Prop :=
  a.space.Admits x ∧ ∃ vs, a.Has (assigned x dims vs)

variable [IsStrictOrderedRing K]

theorem before_meets {dims : List ℕ} (ha : a.WellFormed) :
    Op.Meets W W True (a.before cfg dims) fun b =>
      b.space = a.space ∧ b.WellFormed ∧ ∀ x : ℕ → K, a.Reaches dims x → b.Points x := by
  refine Op.scratch_meets ((forget_keeps (K := K) ha fun _ _ => trivial).imp ?_)
  rintro b ⟨ds, checked, forgets⟩
  obtain rfl := Datum.map_int_injective (Space.checkDistinct_eq_ok.mp checked).1
  refine ⟨forgets.space, forgets.wellFormed, fun x reaches => ⟨forgets.space ▸ reaches.1, ?_⟩⟩
  obtain ⟨admits, vs, has⟩ := reaches
  exact forgets.has _ x has admits (fun j hj => (assigned_of_not_mem hj).symm) nofun

/-- The map describes the assignment at every point that it takes into the operand. -/
theorem mapBefore_meets {dims : List ℕ} {exprs : List Affine} (ha : a.WellFormed)
    (distinct : dims.Nodup) (inside : ∀ d ∈ dims, d < a.space.size) (same : dims.length = exprs.length) :
    Op.Meets W W True (a.mapBefore cfg dims exprs) fun m =>
      Maps m a.space.size (fun x : ℕ → K => a.Reaches dims x) dims exprs := by
  unfold mapBefore
  split
  · rename_i scalar
    refine Op.aside_meets (?_ : Op.Keeps True True _ _)
    refine affineMap_meets distinct inside same fun e he => ?_
    refine (quasiLinearize_meets (K := K) ha.weaken).imp fun e' linear x _ v takes => ?_
    rwa [linear.1 (List.all_eq_true.mp scalar e he)]
  · refine (before_meets (K := K) ha).bind ?_
    rintro source ⟨space, wellFormed, points⟩
    refine Op.aside_meets (?_ : Op.Keeps True True _ _)
    rw [← space] at inside ⊢
    refine affineMap_meets distinct inside same fun e _ => ?_
    exact (quasiLinearize_meets (K := K) wellFormed.weaken).imp fun e' linear x reaches =>
      linear.2 x (points x reaches)

/-- The rows of a frame, read at the points before an assignment with the given map. -/
def composed (P : Precision) (f : Frame) (m : AffineMap) : Frame where
  axes := f.axes.map (Mat.vecMat · m.matrix)
  ranges := List.zipWith (fun row I => I.sub P (P.dot row m.consts)) f.axes f.ranges

section Composed

variable {f : Frame} {n : ℕ} {m : AffineMap} {x y : ℕ → K}

theorem composed_lengths (regular : f.Regular n) (shape : m.matrix.HasShape n n) (P : Precision) :
    (composed P f m).axes.HasShape n n ∧ (composed P f m).ranges.length = n :=
  ⟨regular.axes.shape.mul shape, by simp [composed, regular.axes.shape.length, regular.ranges]⟩

/-- A composed row takes at `x` the value of the old row at `y`, less what the difference between `y`
and the image of `x` contributes to it. -/
theorem composed_image (regular : f.Regular n) (shape : m.matrix.HasShape n n)
    (P : Precision) {i : ℕ} (hi : i < n) : (composed P f m).axes.image x i = f.axes.image y i -
      Vec.eval (f.axes.getD i []) fun j => y j - m.matrix.image x j := by
  rw [composed, Mat.image_mul regular.axes.shape shape x hi, eq_sub_iff_add_eq, Mat.image, Mat.image,
    ← Vec.eval_add]
  simp

theorem composed_range (regular : f.Regular n) (P : Precision) {i : ℕ} (hi : i < n) :
    (composed P f m).ranges.getD i .top =
      (f.ranges.getD i .top).sub P (P.dot (f.axes.getD i []) m.consts) :=
  getD_zipWith_rows regular.axes.shape.length regular.ranges hi

theorem composed_has (regular : f.Regular n) (shape : m.matrix.HasShape n n)
    (consts : m.consts.length = n) (P : Precision)
    (members : ∀ i < n, (m.consts.getD i .top).Has (y i - m.matrix.image x i)) (has : f.Has y) :
    (composed P f m).Has x := by
  obtain ⟨shape', lengths⟩ := composed_lengths regular shape P
  rw [Frame.has_iff (lengths.trans shape'.length.symm)]
  rw [Frame.has_iff regular.same] at has
  intro i
  by_cases hi : i < n
  · rw [composed_image regular shape P (y := y) hi, composed_range regular P hi]
    exact Interval.sub_has (has i) (dot_consts_has consts (regular.axes.shape.getD_length hi) members P)
  · rw [List.getD_eq_default _ _ (by rw [lengths]; omega)]
    exact Interval.top_has

end Composed

theorem substituteAffine_keeps {data : List Datum} {exprs : List Affine} (ha : a.WellFormed)
    (ht : target.WellFormed) :
    Op.Keeps True True (a.substituteAffine cfg data exprs target) fun c =>
      ∃ dims : List ℕ, data = dims.map (fun d => .int d) ∧ a.Substitutes dims target
        (fun (x : ℕ → K) vs => List.Forall₂ (fun e v => e.Takes x v) exprs vs) c := by
  unfold substituteAffine
  refine (checkTransfer_meets ht).bind ?_
  rintro dims ⟨rfl, distinct, inside, same, space⟩
  cases hf : a.frame? with
  | none =>
    refine ((finish_keeps (K := K) ha ht space).of_total).imp fun c finishes => ?_
    refine ⟨dims, rfl, finishes.space, finishes.wellFormed, fun x vs _ _ has => ?_⟩
    exact absurd has (not_has_of_none hf _)
  | some f =>
    have regular := (ha f hf).1
    by_cases none : dims.isEmpty
    · simp only [if_pos none]
      obtain rfl := List.isEmpty_iff.mp none
      refine ((finish_keeps (K := K) ha ht space).of_total).imp fun c finishes => ?_
      refine ⟨[], rfl, finishes.space, finishes.wellFormed, fun x vs admits _ has permits => ?_⟩
      exact finishes.keeps x admits has permits
    · simp only [if_neg none]
      refine (mapBefore_meets (K := K) ha distinct inside same).bind fun m maps => ?_
      refine (Op.meets_lift_ok (Mat.mul_eq maps.shape) rfl).bind ?_
      rintro _ rfl
      obtain ⟨shape, lengths⟩ := composed_lengths regular maps.shape cfg.precision
      -- The product reads a source as the frame reads its image.
      have points : ∀ (x : ℕ → K) vs, a.space.Admits x →
          List.Forall₂ (fun e v => e.Takes x v) exprs vs → a.Has (assigned x dims vs) →
          (composed cfg.precision f m).Has x :=
        fun x vs admits takes has => composed_has regular maps.shape maps.consts cfg.precision
          (maps.values x ⟨admits, vs, has⟩ vs takes) ((has_iff_of_frame hf).mp has)
      refine (Op.meets_lift (P := fun found => Mat.isInvertible _ = .ok found) (fun _ run => run)
        fun _ _ => trivial).bind fun invertible found => ?_
      cases invertible with
      | true =>
        have shaped : Shaped False ⟨a.space, some (composed cfg.precision f m)⟩ :=
          shaped_mk (Frame.regular_mk (Mat.regular_of_isInvertible shape found) lengths) False.elim
        have moved : Op.Meets (·.Shaped True) (·.Shaped False) False
            (Op.move ⟨a.space, some (composed cfg.precision f m)⟩) (· = _) := Op.move_meets shaped rfl
        simp only [if_true]
        refine moved.bind_total ?_
        rintro _ rfl
        refine ((finish_meets (K := K) shaped rfl ht space).of_total).imp fun c finishes => ?_
        refine ⟨dims, rfl, finishes.space, finishes.wellFormed, fun x vs admits takes has permits => ?_⟩
        exact finishes.keeps x admits (has_mk.mpr (points x vs admits takes has)) permits
      | false =>
        simp only [Bool.false_eq_true, if_false]
        refine Op.inexact_meets.bind fun _ _ => ?_
        refine (seed_meets (K := K) fun d hd => shape.width _ (List.of_mem_zip hd).1).bind fun b covers => ?_
        refine (Op.move_meets covers.wellFormed (rfl : b = b)).bind ?_
        rintro _ rfl
        refine ((finish_keeps (K := K) covers.wellFormed ht (covers.space ▸ space)).of_total).imp
          fun c finishes => ?_
        refine ⟨dims, rfl, finishes.space.trans covers.space, finishes.wellFormed, ?_⟩
        intro x vs admits takes has permits
        exact finishes.keeps x (covers.space ▸ admits)
          (covers.has x admits (points x vs admits takes has)) permits

theorem substituteTerm_keeps {data : List Datum} {terms : List Term} (ha : a.WellFormed)
    (ht : target.WellFormed) :
    Op.Keeps True True (a.substituteTerm cfg data terms target) fun c =>
      ∃ dims : List ℕ, data = dims.map (fun d => .int d) ∧ a.Substitutes dims target
        (fun (x : ℕ → K) vs => List.Forall₂ (fun t v => t.Takes x v) terms vs) c := by
  unfold substituteTerm
  refine (checkTransfer_meets ht).bind ?_
  rintro dims ⟨rfl, distinct, inside, same, space⟩
  split
  · -- Nothing is assigned or nothing is there: the value is finished as it is.
    rename_i trivially
    refine ((finish_keeps (K := K) ha ht space).of_total).imp fun c finishes => ?_
    refine ⟨dims, rfl, finishes.space, finishes.wellFormed, fun x vs admits _ has permits => ?_⟩
    refine finishes.keeps x admits ?_ permits
    rcases Bool.or_eq_true_iff.mp trivially with none | bottom
    · obtain rfl := List.isEmpty_iff.mp none
      exact has
    · obtain ⟨f, hf, -⟩ := has
      simp [isBottom, hf] at bottom
  · refine (before_meets (K := K) ha).bind ?_
    rintro source ⟨-, wellFormed, points⟩
    refine (Op.aside_meets (Op.meets_mapM
      (R := fun t e => t.LinearizedBy (fun x : ℕ → K => source.Points x) e)
      fun t _ => linearize_meets wellFormed.weaken t : Op.Keeps True True _ _)).bind fun exprs linear => ?_
    refine (substituteAffine_keeps (K := K) ha ht).imp ?_
    rintro c ⟨dims', named, substitutes⟩
    obtain rfl := Datum.map_int_injective named
    refine ⟨dims, rfl, substitutes.space, substitutes.wellFormed, ?_⟩
    intro x vs admits takes has permits
    refine substitutes.has x vs admits ?_ has permits
    -- A source takes the values of the linear forms wherever it takes those of the terms.
    exact forall₂_compose (fun t e v linear takes => linear x (points x ⟨admits, vs, has⟩) v takes)
      linear takes

/-- Whenever a substitution returns a result, be it of affine expressions or of terms, the result has
every point of integers that the target has and that some choice of values of the expressions there
takes into the value. -/
theorem substitution_keeps_sources (cfg : Settings) {a b : Parallelotope} {target : Target}
    {dims : List ℕ} {report : Report} {x : ℕ → K} {vs : List K} (ha : a.WellFormed)
    (ht : target.WellFormed) (hx : a.space.Admits x ∧ target.Permits x)
    (hy : a.Has (assigned x dims vs)) :
    (∀ exprs : List Affine, List.Forall₂ (fun e v => e.Takes x v) exprs vs →
      (a.substituteAffine cfg (dims.map fun d : ℕ => .int d) exprs target).start = (.ok b, report) →
      b.Has x) ∧
    ∀ terms : List Term, List.Forall₂ (fun t v => t.Takes x v) terms vs →
      (a.substituteTerm cfg (dims.map fun d : ℕ => .int d) terms target).start = (.ok b, report) →
      b.Has x := by
  constructor
  · intro exprs takes returns
    obtain ⟨dims', named, substitutes⟩ := (substituteAffine_keeps (K := K) ha ht).of_start returns
    obtain rfl := Datum.map_int_injective named
    exact substitutes.has x vs hx.1 takes hy hx.2
  · intro terms takes returns
    obtain ⟨dims', named, substitutes⟩ := (substituteTerm_keeps (K := K) ha ht).of_start returns
    obtain rfl := Datum.map_int_injective named
    exact substitutes.has x vs hx.1 takes hy hx.2

/-- The point `(2, 3 / 2)` is not in the slanted sample.  It is taken into it when `i` becomes `y - 1`
and `y` becomes `y` less up to one, although `1 / 2` is no integer, and when `y` becomes a quarter of
`i`. -/
theorem substitution_keeps_sources_sample :
    (∃ b report, (slantedSample.substituteAffine {} [.int 0, .int 1]
        [.make [(1, .point 1)] (.point (-1)), .make [(1, .point 1)] ⟨.fin (-1), .fin 0⟩]
        (.value crossingSample {})).start = (.ok b, report) ∧
      b.Has fun d => if d = 0 then (2 : ℚ) else 3 / 2) ∧
    ∃ b report, (slantedSample.substituteTerm {} [.int 1]
        [.bin .mul (.var 0) (.const ⟨.fin (1 / 4), .fin (1 / 2)⟩)]
        (.value crossingSample {})).start = (.ok b, report) ∧
      b.Has fun d => if d = 0 then (2 : ℚ) else 3 / 2 := by
  have target : Target.WellFormed (.value crossingSample {}) := ⟨crossingSample_wellFormed, rfl⟩
  have point : slantedSample.space.Admits (fun d => if d = 0 then (2 : ℚ) else 3 / 2) ∧
      Target.Permits (fun d => if d = 0 then (2 : ℚ) else 3 / 2) (.value crossingSample {}) := by
    refine ⟨fun d hd => ⟨2, ?_⟩, _, rfl, ?_⟩
    · obtain rfl : d = 0 := Nat.lt_one_iff.mp hd
      rfl
    · norm_num [Frame.Has, Frame.rows, Interval.Has]
  constructor
  · obtain ⟨b, report, returns⟩ := Op.exists_start_eq (x := slantedSample.substituteAffine {}
      [.int 0, .int 1] [.make [(1, .point 1)] (.point (-1)), .make [(1, .point 1)] ⟨.fin (-1), .fin 0⟩]
      (.value crossingSample {})) (by decide +kernel)
    have image : slantedSample.Has
        (assigned (fun d => if d = 0 then (2 : ℚ) else 3 / 2) [0, 1] [1 / 2, 1 / 2]) := by
      refine ⟨_, rfl, ?_⟩
      norm_num [Frame.Has, Frame.rows, Interval.Has, assigned_cons]
    have second : TermsTake [(1, .point 1)] (fun d => if d = 0 then (2 : ℚ) else 3 / 2) (3 / 2) :=
      ⟨1, 0, by simp, rfl, by norm_num⟩
    have down : (Interval.point (-1)).Has (-1 : ℚ) := by simp
    have within : (⟨.fin (-1), .fin 0⟩ : Interval).Has (-1 : ℚ) := by norm_num [Interval.Has]
    refine ⟨b, report, returns, (substitution_keeps_sources {}
      slantedSample_wellFormed target point image).1 _ ?_ returns⟩
    refine .cons ?_ (.cons ?_ .nil)
    · convert Affine.make_takes (by decide) second down using 1
      norm_num
    · convert Affine.make_takes (by decide) second within using 1
      norm_num
  · obtain ⟨b, report, returns⟩ := Op.exists_start_eq (x := slantedSample.substituteTerm {} [.int 1]
      [.bin .mul (.var 0) (.const ⟨.fin (1 / 4), .fin (1 / 2)⟩)] (.value crossingSample {}))
      (by decide +kernel)
    have image : slantedSample.Has
        (assigned (fun d => if d = 0 then (2 : ℚ) else 3 / 2) [1] [1 / 2]) := by
      refine ⟨_, rfl, ?_⟩
      norm_num [Frame.Has, Frame.rows, Interval.Has, assigned_cons, assigned_of_not_mem]
    refine ⟨b, report, returns, (substitution_keeps_sources {}
      slantedSample_wellFormed target point image).2 _ ?_ returns⟩
    exact .cons ⟨2, 1 / 4, rfl, by norm_num [Term.Takes, Interval.Has], by norm_num [BinOp.Takes]⟩ .nil

end Parallelotope

end SkewBox
