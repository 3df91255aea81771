import SkewBox.Proofs.Constraints
import SkewBox.Proofs.Exactness
import SkewBox.Proofs.Products

/-!
# Linear constraints that lose nothing

An equation or inequality with rational coefficients says exactly that a direction takes its values
in an interval.  Merging parallel directions and choosing axes among them keeps this.

* `Constraint.HoldsAt`: the points of a constraint.
* `Constraint.Linear`, `Constraint.Sharp`: the constraints that the mark is meant for.
* `Parallelotope.Directs`: directions with intervals that describe a set of points.
* `Parallelotope.meetSharp_lossless`, `meetAffine_lossless`: intersection with such constraints.
-/

namespace SkewBox

variable {K : Type*} [Field K] [LinearOrder K]

/-! ## Constraints at points -/

/-- The relation holds between `v` and zero. -/
def Relation.HoldsOf (r : Relation) (modulus : Option ℚ) (v : K) : Prop :=
  match r with
  | eq => v = 0
  | ge => 0 ≤ v
  | gt => 0 < v
  | ne => v ≠ 0
  | congr => ∀ m ∈ modulus, ∃ z : ℤ, v = z * (m : K)

/-- Some value that the expression takes at `x` satisfies the constraint. -/
def Constraint.HoldsAt (c : Constraint Affine) (x : ℕ → K) : Prop :=
  ∃ v, c.expr.Takes x v ∧ c.rel.HoldsOf c.modulus v

/-- An equation or inequality whose constant may be a rational.  Nothing is asked of the coefficients:
where one is not rational, the mark is lost. -/
structure Constraint.Linear (c : Constraint Affine) : Prop where
  rel : c.rel = .eq ∨ c.rel = .ge
  const : c.expr.const.Filled

/-- A constraint that the mark is meant for.  A strict one loses the points where it is an equation, unless
it has no variables; a congruence is decided by a number alone. -/
structure Constraint.Sharp (c : Constraint Affine) : Prop where
  const : c.expr.const.Filled
  strict : c.rel = .gt → c.expr.isConstant
  congruence : c.rel = .congr → c.expr.isConstant →
    c.expr.const.isPoint ∧ ∃ m, c.modulus = some m ∧ m ≠ 0

theorem Constraint.Linear.sharp {c : Constraint Affine} (linear : c.Linear) : c.Sharp where
  const := linear.const
  strict gt := absurd linear.rel (by simp [gt])
  congruence congr := absurd linear.rel (by simp [congr])

/-! ## Expressions with rational coefficients -/

theorem Affine.takes_iff_of_isConstant {e : Affine} {x : ℕ → K} {v : K} (constant : e.isConstant) :
    e.Takes x v ↔ e.const.Has v := by
  refine ⟨fun h => h.const_has constant, fun has => ⟨0, v, ?_, has, (zero_add v).symm⟩⟩
  rw [List.isEmpty_iff.mp constant]
  rfl

variable [IsStrictOrderedRing K]

namespace Constraint

variable {c : Constraint Affine} {n : ℕ} {r : Vec} {x : ℕ → K}

theorem holdsAt_ge (h : c.expr.dense n = .ok r) (rel : c.rel = .ge) (filled : c.expr.const.Filled) :
    c.HoldsAt x ↔ Interval.Has ⟨-c.expr.const.hi, .posInf⟩ (r.eval x) := by
  have range : Interval.Has ⟨-c.expr.const.hi, .posInf⟩ (r.eval x) ↔ c.expr.const.hi.Above (-r.eval x) := by
    rw [← Bound.neg_below, neg_neg]
    simp [Interval.Has]
  rw [range, Interval.above_iff_exists filled]
  simp only [HoldsAt, rel, Relation.HoldsOf, Affine.takes_iff_of_dense h]
  exact exists_congr fun v => by rw [and_comm, neg_add_eq_sub]

theorem holdsAt_eq (h : c.expr.dense n = .ok r) (rel : c.rel = .eq) :
    c.HoldsAt x ↔ Interval.Has ⟨-c.expr.const.hi, -c.expr.const.lo⟩ (r.eval x) := by
  simp only [HoldsAt, rel, Relation.HoldsOf, Affine.takes_iff_of_dense h, exists_eq_right, zero_sub]
  rw [Interval.Has, Interval.Has, ← Bound.neg_below, ← Bound.neg_above, neg_neg, and_comm]

theorem congruent?_point {q m : ℚ} (nonzero : m ≠ 0) :
    (Relation.congruent? (.point q) (some m)).getD true ↔ ∃ z : ℤ, (q : K) = z * (m : K) := by
  have decided : Relation.congruent? (.point q) (some m) = some (decide ((q / m).den = 1)) := by
    simp [Relation.congruent?, Interval.point, Interval.isPoint, Bound.isFinite, nonzero]
  rw [decided, Option.getD_some, decide_eq_true_eq]
  constructor
  · intro integral
    refine ⟨(q / m).num, ?_⟩
    have quotient : ((q / m).num : ℚ) = q / m := Rat.coe_int_num_of_den_eq_one integral
    have product : q = (q / m).num * m := by rw [quotient, div_mul_cancel₀ q nonzero]
    exact_mod_cast congrArg (Rat.cast (K := K)) product
  · rintro ⟨z, product⟩
    have product : q = z * m := by exact_mod_cast product
    rw [product, mul_div_cancel_right₀ _ nonzero, Rat.den_intCast]

theorem Sharp.holdsAt_constant (sharp : c.Sharp) (constant : c.expr.isConstant) :
    c.HoldsAt x ↔ c.rel.mayHold c.expr.const c.modulus := by
  have nonempty : c.expr.const.isBottom = false := Interval.isBottom_eq_false_iff.mpr sharp.const.ordered
  simp only [HoldsAt, Affine.takes_iff_of_isConstant constant]
  -- The constant has a member, so an end that the relation asks about is met or approached from inside.
  cases rel : c.rel with
  | eq => simp [Relation.HoldsOf, Relation.mayHold, nonempty, Interval.has_zero_iff]
  | ge =>
    have above : (∃ v : K, c.expr.const.Has v ∧ 0 ≤ v) ↔ c.expr.const.hi.Above (0 : K) := by
      simp [Interval.above_iff_exists sharp.const, and_comm]
    simp only [Relation.HoldsOf, Relation.mayHold, nonempty, above]
    simpa using Bound.above_ratCast (K := K) (q := 0)
  | gt =>
    simp only [Relation.HoldsOf, Relation.mayHold, nonempty, Bool.false_eq_true, if_false,
      decide_eq_true_eq]
    constructor
    · rintro ⟨v, hv, pos⟩
      refine not_le.mp fun below => pos.not_ge ?_
      simpa using hv.2.mono below
    · exact sharp.const.approaches_hi.exists_pos
  | ne =>
    simp only [Relation.HoldsOf, Relation.mayHold, nonempty, Bool.false_eq_true, if_false,
      Bool.not_eq_true']
    constructor
    · rintro ⟨v, hv, apart⟩
      exact Bool.eq_false_iff.mpr fun zero => apart (hv.eq_zero zero)
    · intro varies
      by_contra none
      have zero : ∀ v : K, c.expr.const.Has v → v = 0 := by simpa using none
      exact absurd (sharp.const.isZero_of_forall zero) (by simp [varies])
  | congr =>
    obtain ⟨point, m, modulus, nonzero⟩ := sharp.congruence rel constant
    have number := Interval.eq_point point
    generalize c.expr.const.midpoint = q at number
    simp only [number, modulus, Relation.HoldsOf, Option.mem_some_iff, forall_eq', Interval.point_has,
      exists_eq_left, ← congruent?_point nonzero]
    simp [Relation.mayHold, Interval.isBottom, Interval.point]

end Constraint

theorem Op.kept_lossless (f : Frame) :
    Op.Lossless (Op.kept f) fun g => ∀ s, f.Solid s → g.Solid s ∧ g.rows = f.rows := by
  unfold Op.kept
  refine Op.get_lossless.bind fun report => ?_
  split
  · exact (Op.lossless_lift _).imp fun g remembered _ s solid => solid.remember remembered
  · exact Op.lossless_pure fun _ s solid => ⟨solid, rfl⟩

namespace Parallelotope

variable {cfg : Settings} {s : Space} {S T : (ℕ → K) → Prop}

/-! ## Directions -/

/-- The directions fit the space and describe `S`; there are none if nothing is in `S`. -/
def Directs (s : Space) (S : (ℕ → K) → Prop) : Option (List Direction) → Prop
  | none => ∀ x, ¬ S x
  | some dirs => (∀ d ∈ dirs, d.1.length = s.size ∧ d.2.Proper) ∧
      ∀ x, S x ↔ ∀ d ∈ dirs, d.2.Has (d.1.eval x)

omit [IsStrictOrderedRing K] in
theorem Directs.congr {found : Option (List Direction)} (h : Directs s S found)
    (same : ∀ x, S x ↔ T x) : Directs s T found := by
  cases found with
  | none => exact fun x hx => h x ((same x).mpr hx)
  | some dirs => exact ⟨h.1, fun x => (same x).symm.trans (h.2 x)⟩

omit [IsStrictOrderedRing K] in
theorem Directs.append {dirs : List Direction} {found : Option (List Direction)}
    (first : Directs s S (some dirs)) (rest : Directs s T found) :
    Directs s (fun x => S x ∧ T x) (found.map (dirs ++ ·)) := by
  cases found with
  | none => exact fun x both => rest x both.2
  | some others =>
    refine ⟨List.forall_mem_append.mpr ⟨first.1, rest.1⟩, fun x => ?_⟩
    show S x ∧ T x ↔ ∀ d ∈ dirs ++ others, d.2.Has (d.1.eval x)
    rw [first.2 x, rest.2 x, List.forall_mem_append]

/-! ### Merging -/

theorem scaled_has_iff {r : Vec} {I : Interval} {c : ℚ} (nonzero : c ≠ 0) {x : ℕ → K} :
    (I.scale .exact (1 / c)).Has (Vec.eval (r.map (· / c)) x) ↔ I.Has (r.eval x) := by
  have value : Vec.eval (r.map (· / c)) x = ((1 / c : ℚ) : K) * r.eval x := by
    rw [Vec.eval_map_div, Rat.cast_div, Rat.cast_one, one_div_mul_eq_div]
  rw [value, Interval.scale_has_iff (one_div_ne_zero nonzero)]

omit [IsStrictOrderedRing K] in
theorem Directs.single {r : Vec} {I : Interval} (length : r.length = s.size) (proper : I.Proper) :
    Directs s (fun x : ℕ → K => I.Has (r.eval x)) (some [(r, I)]) := by
  simp [Directs, length, proper]

theorem holdsScaled_exact {d : Direction} {x : ℕ → K} :
    HoldsScaled .exact d x ↔ d.2.Has (d.1.eval x) := by
  unfold HoldsScaled
  split
  · rfl
  · rename_i lead
    exact scaled_has_iff (Vec.leading_ne_zero lead)

theorem mergeDirections_directs {dirs : List Direction} (h : Directs s S (some dirs)) :
    Directs s S (mergeDirections .exact dirs) := by
  cases run : mergeDirections .exact dirs with
  | none =>
    intro x hx
    obtain ⟨merged, found, -⟩ := exists_mergeDirections (p := .exact) ((h.2 x).mp hx)
    exact absurd (run.symm.trans found) (by simp)
  | some merged =>
    have length := length_of_mergeDirections run fun d hd => (h.1 d hd).1
    have proper := ranges_of_mergeDirections run (fun d hd _ c _ => (h.1 d hd).2.scale (1 / c))
      fun I J hI hJ _ => hI.meet hJ
    refine ⟨fun d hd => ⟨length d hd, proper d hd⟩, fun x => (h.2 x).trans ?_⟩
    simp only [has_mergeDirections_iff run, holdsScaled_exact]

/-! ### Values -/

/-- The value whose axes are the chosen directions, and what the others still say about it. -/
theorem Directs.chosen_denotes {merged chosen rest : List Direction} {units : List ℕ}
    {a : Parallelotope} (directs : Directs s S (some merged)) (cfg : Settings) (real : s.ints = 0)
    (selected : selectIndependent (.empty s.size) merged = .ok (chosen, rest))
    (completion : Mat.completion (chosen.map (·.1)) s.size = .ok units)
    (whole : ofParts s (some (chosen.map (·.1) ++ units.map (Vec.unit s.size)))
      (some (chosen.map (·.2) ++ units.map fun _ => .top)) = .ok a) :
    (a.normalize cfg).Denotes s (fun x : ℕ → K => ∀ d ∈ chosen, d.2.Has (d.1.eval x)) ∧
      (∀ d ∈ rest, d.1.length = s.size ∧ d.2.Proper) ∧
      ∀ x, S x ↔ (∀ d ∈ chosen, d.2.Has (d.1.eval x)) ∧ ∀ d ∈ rest, d.2.Has (d.1.eval x) := by
  -- Selection only sorts the directions into two lists, which together say what the merged ones say.
  obtain ⟨chosen', rest', e, selected', perm, collected, count⟩ :=
    exists_selectIndependent (Echelon.reduced_empty s.size) fun d hd => (directs.1 d hd).1
  obtain ⟨rfl, rfl⟩ := Prod.ext_iff.mp (Except.ok.inj (selected.symm.trans selected'))
  have fits : ∀ d ∈ chosen ++ rest, d.1.length = s.size ∧ d.2.Proper := fun d hd =>
    directs.1 d (perm.mem_iff.mp hd)
  obtain ⟨first, others⟩ := List.forall_mem_append.mp fits
  obtain ⟨whole, shape, -⟩ := ofParts_eq_ok whole
  obtain rfl : a = ⟨s, some (completed s.size chosen units)⟩ := whole
  have regular := completed_regular (fun d hd => (first d hd).1) collected
    (by simpa [Echelon.empty] using count) completion shape
  have proper : ∀ I ∈ (completed s.size chosen units).ranges, I.Proper := by
    simp only [completed, List.forall_mem_append, List.forall_mem_map]
    exact ⟨fun d hd => (first d hd).2, fun _ _ => Interval.Filled.proper ⟨0, Interval.top_has⟩⟩
  refine ⟨(Frame.normalize_denotes cfg real regular proper fun x => completed_has_iff).toParallelotope,
    others, fun x => ?_⟩
  rw [directs.2 x, ← List.forall_mem_append]
  exact forall_congr' fun d => by rw [perm.mem_iff]

theorem seed_lossless (exact : cfg.precision = .exact) (s : Space) (dirs : List Direction)
    (S : (ℕ → K) → Prop) :
    Op.Lossless (seed cfg s dirs) fun b => s.ints = 0 → Directs s S (some dirs) → b.Denotes s S := by
  refine Op.aside_lossless ?_
  have merges : Directs s S (some dirs) → Directs s S (mergeDirections cfg.precision dirs) := by
    rw [exact]
    exact mergeDirections_directs
  cases found : mergeDirections cfg.precision dirs with
  | none =>
    rw [found] at merges
    exact Op.lossless_pure fun _ h => denotes_none rfl rfl (merges h)
  | some merged =>
    refine (Op.lossless_lift _).bind fun split => (Op.lossless_lift _).bind fun units =>
      (Op.lossless_lift _).bind fun a => ?_
    obtain ⟨chosen, rest⟩ := split
    rw [found] at merges
    dsimp only
    cases hf : (a.normalize cfg).frame? with
    | none =>
      -- The chosen directions have no common point, so all of them together have none.
      refine Op.lossless_pure fun whole completion selected real h => ?_
      obtain ⟨denotes, -, both⟩ := (merges h).chosen_denotes cfg real selected completion whole
      exact denotes_none denotes.space hf fun x hx =>
        not_has_of_none hf x ((denotes.has x).mpr ((both x).mp hx).1)
    | some f =>
      refine (Frame.meetAll_lossless (K := K) exact s rest f).bind fun c => ?_
      refine Op.lossless_pure fun met whole completion selected real h => ?_
      obtain ⟨denotes, fits, both⟩ := (merges h).chosen_denotes cfg real selected completion whole
      refine ((met (denotes.space ▸ denotes.solid f hf) fits).congr fun x => ?_).toParallelotope
      rw [both x, ← has_iff_of_frame hf, denotes.has x]

/-! ## Systems of constraints -/

theorem boundDimension_lossless (cfg : Settings) (a : Parallelotope) (datum : Datum) :
    Op.Lossless (a.boundDimension cfg datum) fun _ => True := by
  unfold boundDimension
  refine (Op.lossless_lift _).bind fun d => ?_
  cases a.frame? with
  | none => exact Op.lossless_pure fun _ => trivial
  | some f => exact (Op.invert_lossless f).bind fun g => (Op.lossless_lift _).imp fun _ _ _ _ => trivial

theorem takeMiddle_lossless (cfg : Settings) (a : Parallelotope)
    (sum : List (ℕ × Interval) × Interval) (term : ℕ × Interval) :
    Op.Lossless (a.takeMiddle cfg sum term) fun _ => True := by
  unfold takeMiddle
  dsimp only
  split
  · exact Op.lossless_pure trivial
  · exact (boundDimension_lossless cfg a _).bind fun _ => Op.lossless_pure fun _ => trivial

/-- Only an expression with rational coefficients is taken as it is. -/
theorem quasiLinearize_lossless (cfg : Settings) (a : Parallelotope) (e : Affine) :
    Op.Lossless (a.quasiLinearize cfg e) fun e' => e' = e := by
  unfold quasiLinearize
  refine (Op.lossless_lift _).bind fun _ => ?_
  by_cases scalar : e.isScalar
  · simp only [if_pos scalar]
    exact Op.lossless_pure fun _ => rfl
  · simp only [if_neg scalar]
    refine (Op.lossless_foldlM (fun _ _ => True) _ _ fun _ term sum =>
      (takeMiddle_lossless cfg a sum term).imp fun _ _ _ => trivial).bind fun sum => ?_
    exact Op.inexact_lossless.bind fun _ => Op.lossless_pure False.elim

theorem directionOf?_lossless (cfg : Settings) (a : Parallelotope) (c : Constraint Affine) :
    Op.Lossless (a.directionOf? cfg c) fun d => c.Sharp → ¬ c.expr.isConstant → c.expr.isScalar ∧
      Directs a.space (fun x : ℕ → K => c.HoldsAt x) (some d.toList) := by
  unfold directionOf?
  refine (quasiLinearize_lossless cfg a c.expr).bind fun e => (Op.lossless_lift _).bind fun r => ?_
  cases rel : c.rel with
  | ge =>
    refine Op.lossless_pure ?_
    rintro dense rfl sharp -
    obtain ⟨q, hq⟩ := sharp.const
    have filled : Interval.Filled ⟨-c.expr.const.hi, .posInf⟩ := ⟨-q, Bound.neg_below.mpr hq.2, trivial⟩
    refine ⟨(Affine.dense_spec dense).1, ?_⟩
    exact (Directs.single (Affine.dense_eq_ok (K := K) dense).1 filled.proper).congr fun x =>
      (Constraint.holdsAt_ge dense rel sharp.const).symm
  | eq =>
    refine Op.lossless_pure ?_
    rintro dense rfl sharp -
    obtain ⟨q, hq⟩ := sharp.const
    have filled : Interval.Filled ⟨-c.expr.const.hi, -c.expr.const.lo⟩ :=
      ⟨-q, Bound.neg_below.mpr hq.2, Bound.neg_above.mpr hq.1⟩
    refine ⟨(Affine.dense_spec dense).1, ?_⟩
    exact (Directs.single (Affine.dense_eq_ok (K := K) dense).1 filled.proper).congr fun x =>
      (Constraint.holdsAt_eq dense rel).symm
  -- The mark is not meant for strict constraints, and the last two clear it.
  | gt => exact Op.lossless_pure fun _ _ sharp varies => absurd (sharp.strict rel) varies
  | congr => exact Op.inexact_lossless.bind fun _ => Op.lossless_pure False.elim
  | ne => exact Op.inexact_lossless.bind fun _ => Op.lossless_pure False.elim

/-- The directions of sharp constraints.  Once one of these cannot hold, those behind it are not looked
at; otherwise all have rational coefficients. -/
theorem rawDirections_lossless (cfg : Settings) (a : Parallelotope) (cs : List (Constraint Affine)) :
    Op.Lossless (rawDirections cfg a cs) fun found => (∀ c ∈ cs, c.Sharp) →
      Directs a.space (fun x : ℕ → K => ∀ c ∈ cs, c.HoldsAt x) found ∧
        (found.isSome → ∀ c ∈ cs, c.expr.isScalar) := by
  induction cs with
  | nil => exact Op.lossless_pure fun _ => by simp [Directs]
  | cons c rest ih =>
    unfold rawDirections
    by_cases outside : (a.space.size : ℤ) ≤ c.expr.maxDim
    · simp only [if_pos outside]
      exact Op.lossless_throw_bind _
    simp only [if_neg outside, List.forall_mem_cons]
    by_cases constant : c.expr.isConstant
    · simp only [if_pos constant]
      split
      · rename_i holds
        -- A constraint without variables that may hold holds everywhere.
        refine ih.imp fun found directs sharp => ⟨(directs sharp.2).1.congr fun x => ?_, fun some => ?_⟩
        · exact (and_iff_right ((sharp.1.holdsAt_constant constant).mpr holds)).symm
        · exact ⟨by simp [Affine.isScalar, List.isEmpty_iff.mp constant], (directs sharp.2).2 some⟩
      · rename_i fails
        refine Op.lossless_pure fun sharp => ⟨fun x all => fails ?_, by simp⟩
        exact (sharp.1.holdsAt_constant constant).mp all.1
    · simp only [if_neg constant]
      refine (directionOf?_lossless (K := K) cfg a c).bind fun d => ih.bind fun found => ?_
      refine Op.lossless_pure fun later first sharp => ?_
      obtain ⟨scalar, direction⟩ := first sharp.1 constant
      obtain ⟨directions, scalars⟩ := later sharp.2
      exact ⟨direction.append directions, fun some => ⟨scalar, scalars (by simpa using some)⟩⟩

theorem constraintDirections_lossless (exact : cfg.precision = .exact) (a : Parallelotope)
    (cs : List (Constraint Affine)) :
    Op.Lossless (constraintDirections cfg a cs) fun found => (∀ c ∈ cs, c.Sharp) →
      Directs a.space (fun x : ℕ → K => ∀ c ∈ cs, c.HoldsAt x) found ∧
        (found.isSome → ∀ c ∈ cs, c.expr.isScalar) := by
  unfold constraintDirections
  refine (rawDirections_lossless (K := K) cfg a cs).bind fun found => ?_
  refine Op.lossless_pure fun directs sharp => ?_
  obtain ⟨directs, scalars⟩ := directs sharp
  cases found with
  | none => exact ⟨directs, nofun⟩
  | some dirs => exact ⟨exact ▸ mergeDirections_directs directs, fun _ => scalars rfl⟩

/-- The points of a value that satisfy a system of sharp constraints.  If any are left, the constraints
have rational coefficients. -/
theorem meetSharp_lossless (exact : cfg.precision = .exact) (a : Parallelotope)
    (cs : List (Constraint Affine)) :
    Op.Lossless (a.meetAffine cfg cs) fun b => a.Solid → (∀ c ∈ cs, c.Sharp) →
      b.Denotes a.space (fun x : ℕ → K => a.Has x ∧ ∀ c ∈ cs, c.HoldsAt x) ∧
        (b.isBottom = false → ∀ c ∈ cs, c.expr.isScalar) := by
  unfold meetAffine
  cases hf : a.frame? with
  | none =>
    refine Op.lossless_pure fun _ _ => ⟨denotes_none rfl hf fun x both => not_has_of_none hf x both.1, ?_⟩
    simp [isBottom, hf]
  | some f =>
    refine (constraintDirections_lossless (K := K) exact a cs).bind fun found => ?_
    cases found with
    | none =>
      exact Op.move_lossless fun directs _ sharp => ⟨denotes_none rfl rfl fun x both =>
        (directs sharp).1 x both.2, by simp [isBottom, bottom]⟩
    | some dirs =>
      dsimp only
      split
      · rename_i top
        refine (seed_lossless exact a.space dirs fun x : ℕ → K => ∀ c ∈ cs, c.HoldsAt x).bind fun b =>
          Op.move_lossless ?_
        intro seeded directs solid sharp
        obtain ⟨directs, scalars⟩ := directs sharp
        refine ⟨(seeded (solid f hf).real directs).congr fun x => ?_, fun _ => scalars rfl⟩
        rw [has_iff_of_frame hf, and_iff_right (Frame.has_of_isTop (by simpa [isTop, hf] using top))]
      · refine (Op.kept_lossless f).bind fun g => ?_
        refine (Frame.meetAll_lossless (K := K) exact a.space dirs g).bind fun c => Op.put_lossless ?_
        intro met kept directs solid sharp
        obtain ⟨solid', same⟩ := kept a.space (solid f hf)
        obtain ⟨⟨fits, holds⟩, scalars⟩ := directs sharp
        refine ⟨((met solid' fits).congr fun x => ?_).toParallelotope, fun _ => scalars rfl⟩
        rw [Frame.Has, same, has_iff_of_frame hf, Frame.Has, ← holds x]

theorem meetAffine_lossless (exact : cfg.precision = .exact) (a : Parallelotope)
    (cs : List (Constraint Affine)) :
    Op.Lossless (a.meetAffine cfg cs) fun b => a.Solid → (∀ c ∈ cs, c.Linear) →
      b.Denotes a.space fun x : ℕ → K => a.Has x ∧ ∀ c ∈ cs, c.HoldsAt x :=
  (meetSharp_lossless exact a cs).imp fun _ met solid linear =>
    (met solid fun c hc => (linear c hc).sharp).1

end Parallelotope

end SkewBox
