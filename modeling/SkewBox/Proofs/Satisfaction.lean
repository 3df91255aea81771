import SkewBox.Proofs.AttainedRanges
import SkewBox.Proofs.ConstraintSoundness

/-!
# Satisfaction tests

A constraint is known to hold on a value if it holds of all numbers in the range of its expression.  The range
holds every value that the expression takes, so a positive answer is never wrong.  With rational coefficients
and without rounding it holds nothing else, and then a negative answer is right, too.

* `Relation.Certain`, `certain_of_holds`, `holds_of_forall`: what an interval decides about a relation.
* `Parallelotope.satAffine_decides`, `satisfaction_decided`: when the answer decides.
-/

namespace SkewBox

variable {K : Type*} [Field K] [LinearOrder K]

/-! ## Relations -/

namespace Relation

variable {r : Relation} {I : Interval} {modulus : Option ℚ} {v : K}

/-- The relation holds between `v` and zero; a congruence does so for a modulus other than zero. -/
def Certain (r : Relation) (modulus : Option ℚ) (v : K) : Prop :=
  r.HoldsOf modulus v ∧ (r = .congr → ∃ m, modulus = some m ∧ m ≠ 0)

theorem congruent?_eq_some {b : Bool} (decided : congruent? I modulus = some b) :
    I.isPoint ∧ ∃ m, modulus = some m ∧ m ≠ 0 := by
  unfold congruent? at decided
  split at decided
  · rename_i m _
    split at decided
    · rename_i both
      exact ⟨both.1, m, rfl, both.2⟩
    · cases decided
  · cases decided

variable [IsStrictOrderedRing K]

theorem certain_of_holds (holds : r.holds I modulus) (hv : I.Has v) : r.Certain modulus v := by
  simp only [Relation.holds, hv.isBottom, Bool.false_eq_true, if_false] at holds
  cases r with
  | eq => exact ⟨hv.eq_zero holds, fun other => by cases other⟩
  | ge =>
    refine ⟨?_, fun other => by cases other⟩
    simpa [HoldsOf] using hv.1.anti (of_decide_eq_true holds)
  | gt =>
    refine ⟨not_le.mp fun below => ?_, fun other => by cases other⟩
    -- A member at or below zero would have the lower end below zero.
    have low : I.lo.Below ((0 : ℚ) : K) := hv.1.trans_le (by simpa using below)
    exact absurd (Bound.below_ratCast.mp low) (not_le.mpr (of_decide_eq_true holds))
  | ne =>
    refine ⟨?_, fun other => by cases other⟩
    rintro rfl
    simp [Interval.has_zero_iff.mp hv] at holds
  | congr =>
    cases decided : congruent? I modulus with
    | none => simp [decided] at holds
    | some b =>
      obtain ⟨point, m, rfl, nonzero⟩ := congruent?_eq_some decided
      have yes : (congruent? I (some m)).getD true := by simpa [decided] using holds
      rw [Interval.eq_point point, Constraint.congruent?_point (K := K) nonzero,
        ← hv.eq_midpoint point] at yes
      exact ⟨by simpa [HoldsOf] using yes, fun _ => ⟨m, rfl, nonzero⟩⟩

theorem holds_of_forall (filled : I.Filled) (plain : r ≠ .congr)
    (all : ∀ v : K, I.Has v → r.HoldsOf modulus v) : r.holds I modulus := by
  have nonempty : I.isBottom = false := Interval.isBottom_eq_false_iff.mpr filled.ordered
  simp only [Relation.holds, nonempty, Bool.false_eq_true, if_false]
  cases r with
  | eq => exact filled.isZero_of_forall all
  | ge =>
    rw [decide_eq_true_eq]
    -- The lower end is met or approached by members, which satisfy the relation.
    have near := filled.approaches_lo (K := K)
    cases low : I.lo with
    | posInf => exact Bound.le_posInf _
    | fin q =>
      rw [low] at near
      exact Bound.fin_le_fin.mpr (Rat.cast_nonneg.mp (all q near))
    | negInf =>
      rw [low] at near
      obtain ⟨v, hv, below⟩ := near (-1)
      exact absurd ((all v hv : 0 ≤ v).trans below) (by norm_num)
  | gt =>
    rw [decide_eq_true_eq, Bound.lt_iff_not_le]
    have near := filled.approaches_lo (K := K)
    cases low : I.lo with
    | posInf => exact Bound.not_posInf_le_fin
    | fin q =>
      rw [low] at near
      exact fun below => absurd (Rat.cast_pos.mp (all q near)) (not_lt.mpr (Bound.fin_le_fin.mp below))
    | negInf =>
      rw [low] at near
      obtain ⟨v, hv, below⟩ := near 0
      exact absurd (all v hv : 0 < v) (not_lt.mpr below)
  | ne =>
    rw [Bool.not_eq_true', Bool.eq_false_iff]
    intro zero
    exact all 0 (Interval.has_zero_iff.mpr zero) rfl
  | congr => exact absurd rfl plain

end Relation

variable [IsStrictOrderedRing K]

/-! ## Expressions with rational coefficients -/

namespace Frame

variable {f : Frame} {s : Space} {cfg : Settings} {e : Affine} {r : Vec}

theorem foldlM_addTerm {terms : List (ℕ × Interval)} (points : ∀ t ∈ terms, t.2.isPoint) (v : Vec)
    (I : Interval) :
    terms.foldlM (f.addTerm cfg s) (v, I) = .ok (terms.foldl (fun v t => v.set t.1 t.2.midpoint) v, I) := by
  induction terms generalizing v with
  | nil => rfl
  | cons term terms ih =>
    obtain ⟨point, points⟩ := List.forall_mem_cons.mp points
    have first : f.addTerm cfg s (v, I) term = .ok (v.set term.1 term.2.midpoint, I) := by
      simp [addTerm, splitTerm, point, pure, Except.pure]
    rw [List.foldlM_cons, first, ok_bind, ih points, List.foldl_cons]

/-- The range of an expression with rational coefficients is that of their direction, moved by the
constant. -/
theorem boundAffine_of_dense (dense : e.dense s.size = .ok r) :
    f.boundAffine cfg s e = (f.boundDirection cfg r).map (·.add cfg.precision e.const) := by
  obtain ⟨scalar, -, rfl⟩ := Affine.dense_spec dense
  have points : ∀ t ∈ e.terms, t.2.isPoint := by simpa [Affine.isScalar] using scalar
  rw [boundAffine, foldlM_addTerm points, ok_bind]
  cases bounded : f.boundDirection cfg
      (e.terms.foldl (fun v t => v.set t.1 t.2.midpoint) (Vec.zeros s.size)) with
  | ok J => simp [bounded, pure, Except.pure, Except.map]
  | error err => simp [bounded, Except.map]

/-- Without rounding, the range of an expression with rational coefficients holds some rational, and what it
holds are the values that the expression takes at the points. -/
theorem Regular.boundAffine_has_iff (regular : f.Regular s.size) (filled : f.Filled)
    (exact : cfg.precision = .exact) (dense : e.dense s.size = .ok r) (const : e.const.Filled) {I : Interval}
    (bounded : f.boundAffine cfg s e = .ok I) :
    I.Filled ∧ ∀ v : K, I.Has v ↔ ∃ x : ℕ → K, f.Has x ∧ e.Takes x v := by
  have length := (Affine.dense_eq_ok (K := K) dense).1
  obtain ⟨J, direction, has⟩ := regular.exists_boundDirection (K := K) cfg length
  obtain ⟨some, -⟩ := regular.boundDirection_isRange (K := K) filled exact length direction
  rw [boundAffine_of_dense dense, direction, exact] at bounded
  obtain rfl := Except.ok.inj bounded
  refine ⟨some.add const, fun v => ?_⟩
  rw [Interval.add_has_iff some const]
  simp only [Affine.takes_iff_of_dense dense]
  constructor
  · rintro ⟨_, k, hy, hk, rfl⟩
    obtain ⟨x, hx, rfl⟩ := regular.exists_of_boundDirection filled exact length direction hy
    exact ⟨x, hx, by simpa using hk⟩
  · rintro ⟨x, hx, hk⟩
    exact ⟨_, _, has x hx, hk, (add_sub_cancel _ _).symm⟩

end Frame

/-! ## Values -/

namespace Parallelotope

variable {a : Parallelotope} {cfg : Settings} {W : Parallelotope → Prop}

theorem boundTerm_meets (regular : a.Shaped False) (t : Term) :
    Op.Meets W W True (a.boundTerm cfg t) fun I => ∀ x : ℕ → K, a.Points x → ∀ v, t.Takes x v → I.Has v := by
  unfold boundTerm
  split
  · rename_i empty
    apply Op.meets_pure
    intro x points
    rw [not_isBottom_of_has points.2] at empty
    cases empty
  · apply (linearize_meets (K := K) regular t).bind
    intro e linear
    apply (boundAffine_meets (K := K) regular fun _ => trivial).imp
    intro I bounded x points v takes
    exact bounded x points v (linear x points v takes)

/-- A positive answer is about every value in the range, as soon as there is a point. -/
theorem certain_of_answer {r : Relation} {I : Interval} {modulus : Option ℚ} {x : ℕ → K} {v : K}
    (yes : (a.isBottom || r.holds I modulus) = true) (hx : a.Has x) (hv : I.Has v) :
    r.Certain modulus v := by
  rw [not_isBottom_of_has hx, Bool.false_or] at yes
  exact Relation.certain_of_holds yes hv

theorem satAffine_meets (regular : a.Shaped False) (c : Constraint Affine) :
    Op.Meets W W True (a.satAffine cfg c) fun r => r = true →
      ∀ x : ℕ → K, a.Points x → ∀ v, c.expr.Takes x v → c.rel.Certain c.modulus v := by
  apply (boundAffine_meets (K := K) regular fun _ => trivial).bind
  intro I bounded
  apply Op.meets_pure
  intro yes x points v takes
  exact certain_of_answer yes points.2 (bounded x points v takes)

theorem satTerm_meets (regular : a.Shaped False) (c : Constraint Term) :
    Op.Meets W W True (a.satTerm cfg c) fun r => r = true →
      ∀ x : ℕ → K, a.Points x → ∀ v, c.expr.Takes x v → c.rel.Certain c.modulus v := by
  apply (boundTerm_meets (K := K) regular c.expr).bind
  intro I bounded
  apply Op.meets_pure
  intro yes x points v takes
  exact certain_of_answer yes points.2 (bounded x points v takes)

theorem satInterval_meets (regular : a.Shaped False) (d : ℕ) (I : Interval) :
    Op.Meets W W True (a.satInterval cfg (.int d) I) fun r => r = true →
      ∀ x : ℕ → K, a.Points x → I.Has (x d) := by
  apply (boundDimension_meets (K := K) regular fun _ => trivial).bind
  intro J bounded
  apply Op.meets_pure
  intro yes x points
  rw [not_isBottom_of_has points.2, Bool.false_or] at yes
  exact Interval.leq_has yes (bounded x (points.1 d) points.2)

theorem boundAffine_attained {e : Affine} (regular : a.Shaped False) (filled : a.Filled)
    (exact : cfg.precision = .exact) (scalar : e.isScalar) (const : e.const.Filled)
    (inside : ∀ t ∈ e.terms, t.1 < a.space.size) :
    Op.Meets W W False (a.boundAffine cfg e) fun I => a.isBottom = false →
      I.Filled ∧ ∀ v : K, I.Has v ↔ ∃ x : ℕ → K, a.Has x ∧ e.Takes x v := by
  obtain ⟨r, dense⟩ := exists_dense inside scalar
  unfold boundAffine
  apply (Op.meets_lift_ok (P := fun _ => True) (checkAffine_eq_ok inside) trivial).bind
  intro _ _
  cases hf : a.frame? with
  | none =>
    apply Op.meets_pure
    intro nonempty
    simp [isBottom, hf] at nonempty
  | some f =>
    apply (Op.invert_meets (regular f hf).1).bind
    rintro _ ⟨w, regular', rfl⟩
    obtain ⟨I, bounded, -⟩ := regular'.exists_boundAffine (K := K) cfg inside
    apply Op.meets_lift_ok bounded
    intro _
    simp only [has_iff_of_frame hf]
    exact regular'.boundAffine_has_iff (filled f hf) exact dense const bounded

theorem satAffine_decides (regular : a.Shaped False) (filled : a.Filled) (exact : cfg.precision = .exact)
    {c : Constraint Affine} (plain : c.rel ≠ .congr) (scalar : c.expr.isScalar)
    (const : c.expr.const.Filled) (inside : ∀ t ∈ c.expr.terms, t.1 < a.space.size) :
    Op.Meets W W False (a.satAffine cfg c) fun r => r = true ↔
      ∀ x : ℕ → K, a.Has x → ∀ v, c.expr.Takes x v → c.rel.HoldsOf c.modulus v := by
  apply (boundAffine_attained (K := K) regular filled exact scalar const inside).bind
  intro I attained
  apply Op.meets_pure
  cases empty : a.isBottom with
  | true =>
    -- Nothing is left to hold on the empty value, and the answer is yes.
    simp only [Bool.true_or, true_iff]
    intro x hx
    rw [not_isBottom_of_has hx] at empty
    cases empty
  | false =>
    obtain ⟨some, has_iff⟩ := attained empty
    rw [Bool.false_or]
    constructor
    · intro yes x hx v takes
      exact (Relation.certain_of_holds yes ((has_iff v).mpr ⟨x, hx, takes⟩)).1
    · intro all
      apply Relation.holds_of_forall (K := K) some plain
      intro v hv
      obtain ⟨x, hx, takes⟩ := (has_iff v).mp hv
      exact all x hx v takes

/-- The three tests never claim too much: where one says yes, the constraint holds at every point of integers
of the value, for every choice of coefficients and constants and every value that a term takes, and the
dimension lies in the interval.  Without rounding, the answer about an equation, inequality or disequality
with rational coefficients, and with a constant that holds a rational, is yes exactly if every point satisfies
it. -/
theorem satisfaction_decided (cfg : Settings) {a : Parallelotope} (ha : a.WellFormed) :
    (∀ c : Constraint Affine, (a.satAffine cfg c).Yields (· = true) →
      ∀ x : ℕ → K, a.Points x → ∀ v, c.expr.Takes x v → c.rel.Certain c.modulus v) ∧
    (∀ c : Constraint Term, (a.satTerm cfg c).Yields (· = true) →
      ∀ x : ℕ → K, a.Points x → ∀ v, c.expr.Takes x v → c.rel.Certain c.modulus v) ∧
    (∀ (d : ℕ) (I : Interval), (a.satInterval cfg (.int d) I).Yields (· = true) →
      ∀ x : ℕ → K, a.Points x → I.Has (x d)) ∧
    (cfg.precision = .exact → a.Filled → ∀ c : Constraint Affine, c.rel ≠ .congr → c.expr.isScalar →
      c.expr.const.Filled → (∀ t ∈ c.expr.terms, t.1 < a.space.size) →
      (a.satAffine cfg c).Yields fun r => r = true ↔
        ∀ x : ℕ → K, a.Has x → ∀ v, c.expr.Takes x v → c.rel.HoldsOf c.modulus v) := by
  have regular : a.Shaped False := ha.weaken
  refine ⟨?_, ?_, ?_, ?_⟩
  · rintro c ⟨r, report, run, yes⟩
    exact (satAffine_meets (W := fun _ => True) regular c).of_start run yes
  · rintro c ⟨r, report, run, yes⟩
    exact (satTerm_meets (W := fun _ => True) regular c).of_start run yes
  · rintro d I ⟨r, report, run, yes⟩
    exact (satInterval_meets (W := fun _ => True) regular d I).of_start run yes
  · intro exact filled c plain scalar const inside
    exact (satAffine_decides (W := fun _ => True) regular filled exact plain scalar const inside).yields

/-- `x - y + 3 > 0`. -/
def strictSample : Constraint Affine := ⟨.make [(0, .point 1), (1, .point (-1))] (.point 3), .gt, none⟩

/-- `[1, 2] · x + 1 ≥ 0`. -/
def vagueSample : Constraint Affine := ⟨.make [(0, ⟨.fin 1, .fin 2⟩)] (.point 1), .ge, none⟩

/-- `6 · (x - x) + 9 = 0` modulo `3`, as a term. -/
def moduloSample : Constraint Term :=
  ⟨.bin .add (.bin .mul (.const (.point 6)) (.bin .sub (.var 0) (.var 0))) (.const (.point 9)), .congr,
    some 3⟩

/-- On the square, a strict inequality is decided, one with an interval for a coefficient holds for all choices
of it although ranges are rounded, a congruence holds for a term, and the second dimension is at most `2`. -/
theorem satisfaction_decided_sample :
    squareSample.WellFormed ∧ squareSample.Filled ∧
    (squareSample.satAffine {} strictSample).Yields (fun r => r = true ↔
      ∀ x : ℕ → ℚ, squareSample.Has x → ∀ v, strictSample.expr.Takes x v → 0 < v) ∧
    (∀ x : ℕ → ℚ, squareSample.Points x → ∀ v, vagueSample.expr.Takes x v → 0 ≤ v) ∧
    (∀ x : ℕ → ℚ, squareSample.Points x → ∀ v, moduloSample.expr.Takes x v → ∃ z : ℤ, v = z * 3) ∧
    ∀ x : ℕ → ℚ, squareSample.Points x → Interval.Has ⟨.negInf, .fin 2⟩ (x 1) := by
  have square := squareSample_wellFormed
  have filled : squareSample.Filled := filled_mk (by decide)
  have sharp := satisfaction_decided (K := ℚ) {} square
  have rounded := satisfaction_decided (K := ℚ) { precision := .binary64 } square
  refine ⟨square, filled, ?_, ?_, ?_, ?_⟩
  · exact sharp.2.2.2 rfl filled strictSample (by decide) (by decide) (by decide) (by decide)
  · intro x points v takes
    exact (rounded.1 vagueSample ⟨true, _, Prod.ext (by decide +kernel) rfl, rfl⟩ x points v takes).1
  · intro x points v takes
    have multiple := sharp.2.1 moduloSample ⟨true, _, Prod.ext (by decide +kernel) rfl, rfl⟩ x points v takes
    simpa [moduloSample, Relation.HoldsOf] using multiple.1
  · exact sharp.2.2.1 1 _ ⟨true, _, Prod.ext (by decide +kernel) rfl, rfl⟩

end Parallelotope

end SkewBox
