import SkewBox.Proofs.Bounds
import SkewBox.Proofs.Products

/-!
# Linear terms

Sums, products with a constant and quotients by a constant stay symbolic when a term is linearised.
A term that is built from them alone takes no value that its affine expression does not take.  The
converse needs rational coefficients: a coefficient that is an interval is chosen once for every
place in the term, and in the affine expression once for every dimension.

* `Affine.Single`: the terms of an expression take one value at every point.
* `Term.Linear`: a term and the affine expression that it stays.
* `Term.Linear.takes_iff`: both take the same values if the coefficients are rational.
-/

namespace SkewBox

variable {K : Type*} [Field K] [LinearOrder K]

/-! ## Expressions whose terms take one value -/

theorem TermsTake.unique {terms : List (ℕ × Interval)} {x : ℕ → K} {v w : K}
    (points : ∀ t ∈ terms, t.2.isPoint) (hv : TermsTake terms x v) (hw : TermsTake terms x w) : v = w := by
  induction terms generalizing v w with
  | nil => exact hv.trans hw.symm
  | cons term terms ih =>
    obtain ⟨point, rest⟩ := List.forall_mem_cons.mp points
    obtain ⟨c, v, hc, hv, rfl⟩ := hv
    obtain ⟨c', w, hc', hw, rfl⟩ := hw
    rw [hc.eq_midpoint point, hc'.eq_midpoint point, ih rest hv hw]

namespace Affine

variable {e f : Affine}

variable (K) in
/-- Whatever choice of coefficients is made, the sum of the terms is the same. -/
def Single (e : Affine) : Prop :=
  ∀ (x : ℕ → K) s s', TermsTake e.terms x s → TermsTake e.terms x s' → s = s'

theorem single_of_isScalar (scalar : e.isScalar) : e.Single K := fun _ _ _ =>
  TermsTake.unique (by simpa [isScalar] using scalar)

theorem single_of_isConstant (constant : e.isConstant) : e.Single K := by
  apply single_of_isScalar
  simp [isScalar, List.isEmpty_iff.mp constant]

variable [IsStrictOrderedRing K]

theorem Single.of_negate (single : e.negate.Single K) : e.Single K := fun x _ _ hs hs' =>
  neg_injective (single x _ _ (negate_termsTake hs) (negate_termsTake hs'))

theorem Single.left_of_add (single : (e.add f).Single K)
    (others : ∀ x : ℕ → K, ∃ t, TermsTake f.terms x t) : e.Single K := by
  intro x s s' hs hs'
  obtain ⟨t, ht⟩ := others x
  exact add_right_cancel (single x _ _ (add_termsTake hs ht) (add_termsTake hs' ht))

theorem Single.right_of_add (single : (e.add f).Single K)
    (others : ∀ x : ℕ → K, ∃ s, TermsTake e.terms x s) : f.Single K := by
  intro x t t' ht ht'
  obtain ⟨s, hs⟩ := others x
  exact add_left_cancel (single x _ _ (add_termsTake hs ht) (add_termsTake hs ht'))

theorem Single.of_scale {J : Interval} {w : K} (single : (e.scale J).Single K) (hw : J.Has w)
    (nonzero : w ≠ 0) : e.Single K := fun x _ _ hs hs' =>
  mul_right_cancel₀ nonzero (single x _ _ (scale_termsTake hs hw) (scale_termsTake hs' hw))

end Affine

/-! ## Terms and their expressions -/

namespace Term

/-- The term stays the affine expression: it is built from constants that hold a number and from
variables by sums, products with a constant, and quotients by a bounded constant without zero. -/
inductive Linear : Term → Affine → Prop where
  | const {I : Interval} : I.Filled → Linear (.const I) (.constant I)
  | var (d : ℕ) : Linear (.var d) (.var d (.point 1))
  | neg {t : Term} {e : Affine} : Linear t e → Linear (.un .neg t) e.negate
  | add {l r : Term} {e f : Affine} : Linear l e → Linear r f → Linear (.bin .add l r) (e.add f)
  | sub {l r : Term} {e f : Affine} : Linear l e → Linear r f → Linear (.bin .sub l r) (e.sub f)
  | mulRight {l r : Term} {e f : Affine} : Linear l e → Linear r f → f.isConstant →
      Linear (.bin .mul l r) (e.scale f.const)
  | mulLeft {l r : Term} {e f : Affine} : Linear l e → Linear r f → ¬ f.isConstant → e.isConstant →
      Linear (.bin .mul l r) (f.scale e.const)
  | div {l r : Term} {e f : Affine} : Linear l e → Linear r f → f.isConstant →
      f.const.hasZero = false → f.const.isBounded →
      Linear (.bin .div l r) (e.scale ((Interval.point 1).div .exact f.const))

variable {t l r : Term} {e f : Affine}

theorem Linear.linearize_eq (linear : t.Linear e) (bound : Affine → Op Interval) :
    t.linearize bound = pure e := by
  induction linear with
  | const _ => rfl
  | var d => rfl
  | neg _ ih =>
    rw [Term.linearize, ih]
    rfl
  | add _ _ ihl ihr =>
    rw [Term.linearize, ihl, ihr]
    rfl
  | sub _ _ ihl ihr =>
    rw [Term.linearize, ihl, ihr]
    rfl
  | mulRight _ _ constant ihl ihr =>
    rw [Term.linearize, ihl, ihr]
    simp only [pure_bind, linearMul, if_pos constant]
  | mulLeft _ _ varies constant ihl ihr =>
    rw [Term.linearize, ihl, ihr]
    simp only [pure_bind, linearMul, if_neg varies, if_pos constant]
  | div _ _ constant noZero _ ihl ihr =>
    rw [Term.linearize, ihl, ihr]
    simp only [pure_bind, linearDiv, constant, noZero, Bool.not_false, Bool.and_self, if_true]

/-! ## Values -/

/-- The expression takes the values of the term, of which there is one at every point, and no others
if its terms take one value. -/
structure Reflects (K : Type*) [Field K] [LinearOrder K] (t : Term) (e : Affine) : Prop where
  filled : e.const.Filled
  total : ∀ x : ℕ → K, ∃ v, t.Takes x v
  takes : ∀ (x : ℕ → K) v, t.Takes x v → e.Takes x v
  converse : e.Single K → ∀ (x : ℕ → K) v, e.Takes x v → t.Takes x v

theorem Reflects.exists_termsTake (h : Reflects K t e) (x : ℕ → K) : ∃ s, TermsTake e.terms x s := by
  obtain ⟨v, hv⟩ := h.total x
  obtain ⟨s, -, hs, -⟩ := h.takes x v hv
  exact ⟨s, hs⟩

theorem Reflects.has_iff (h : Reflects K t e) (constant : e.isConstant) {x : ℕ → K} {v : K} :
    t.Takes x v ↔ e.const.Has v := by
  constructor
  · exact fun takes => (h.takes x v takes).const_has constant
  · intro has
    apply h.converse (Affine.single_of_isConstant constant)
    refine ⟨0, v, ?_, has, (zero_add v).symm⟩
    rw [List.isEmpty_iff.mp constant]
    rfl

variable [IsStrictOrderedRing K]

theorem Reflects.negate (h : Reflects K t e) : Reflects K (.un .neg t) e.negate where
  filled := h.filled.neg
  total x := by
    obtain ⟨v, hv⟩ := h.total x
    exact ⟨-v, v, hv, rfl⟩
  takes := by
    rintro x _ ⟨a, ha, rfl⟩
    exact Affine.negate_takes (h.takes x a ha)
  converse := by
    rintro single x _ ⟨s, k, hs, hk, rfl⟩
    obtain ⟨s', hs'⟩ := h.exists_termsTake x
    have same : s = -s' := single x _ _ hs (Affine.negate_termsTake hs')
    refine ⟨s' + -k, h.converse single.of_negate x _ ⟨s', -k, hs', Interval.neg_has_iff.mp hk, rfl⟩, ?_⟩
    show s + k = -(s' + -k)
    rw [same]
    ring

theorem Reflects.add (hl : Reflects K l e) (hr : Reflects K r f) :
    Reflects K (.bin .add l r) (e.add f) where
  filled := hl.filled.add hr.filled
  total x := by
    obtain ⟨a, ha⟩ := hl.total x
    obtain ⟨b, hb⟩ := hr.total x
    exact ⟨a + b, a, b, ha, hb, rfl⟩
  takes := by
    rintro x _ ⟨a, b, ha, hb, rfl⟩
    exact Affine.add_takes (hl.takes x a ha) (hr.takes x b hb)
  converse := by
    rintro single x _ ⟨s, _, hs, sum, rfl⟩
    obtain ⟨k, k', hk, hk', rfl⟩ := (Interval.add_has_iff hl.filled hr.filled).mp sum
    obtain ⟨t, ht⟩ := hl.exists_termsTake x
    obtain ⟨t', ht'⟩ := hr.exists_termsTake x
    -- The terms of the sum have one value at the point, so it is the sum of those of both sides.
    have same : s = t + t' := single x _ _ hs (Affine.add_termsTake ht ht')
    refine ⟨t + k, t' + k', ?_, ?_, ?_⟩
    · exact hl.converse (single.left_of_add hr.exists_termsTake) x _ ⟨t, k, ht, hk, rfl⟩
    · exact hr.converse (single.right_of_add hl.exists_termsTake) x _ ⟨t', k', ht', hk', rfl⟩
    · show s + (k + k') = t + k + (t' + k')
      rw [same]
      ring

theorem Reflects.sub (hl : Reflects K l e) (hr : Reflects K r f) :
    Reflects K (.bin .sub l r) (e.sub f) where
  filled := hl.filled.add hr.filled.neg
  total x := by
    obtain ⟨a, ha⟩ := hl.total x
    obtain ⟨b, hb⟩ := hr.total x
    exact ⟨a - b, a, b, ha, hb, rfl⟩
  takes := by
    rintro x _ ⟨a, b, ha, hb, rfl⟩
    exact Affine.sub_takes (hl.takes x a ha) (hr.takes x b hb)
  converse := by
    intro single x v hv
    obtain ⟨a, _, ha, ⟨b, hb, rfl⟩, rfl⟩ := (hl.add hr.negate).converse single x v hv
    exact ⟨a, b, ha, hb, (sub_eq_add_neg a b).symm⟩

/-- Scaling an expression by an interval: a value of the result is one of the term times a member.
The terms of the result take one value, so any member of the interval gives it; and unless zero is the
only member, the terms of the expression take one value too. -/
theorem Reflects.exists_of_scale (h : Reflects K t e) {J : Interval} (filled : J.Filled)
    (single : (e.scale J).Single K) {x : ℕ → K} {v : K} (hv : (e.scale J).Takes x v) :
    ∃ a w, t.Takes x a ∧ J.Has w ∧ v = a * w := by
  obtain ⟨s, _, hs, product, rfl⟩ := hv
  obtain ⟨k, w, hk, hw, rfl⟩ := (Interval.mul_has_iff h.filled filled).mp product
  obtain ⟨s', hs'⟩ := h.exists_termsTake x
  have same : s = s' * w := single x _ _ hs (Affine.scale_termsTake hs' hw)
  by_cases nonzero : ∃ w', J.Has w' ∧ w' ≠ (0 : K)
  · obtain ⟨w', hw', nonzero⟩ := nonzero
    have value := h.converse (single.of_scale hw' nonzero) x _ ⟨s', k, hs', hk, rfl⟩
    exact ⟨s' + k, w, value, hw, by rw [same, add_mul]⟩
  · have zero : w = 0 := by
      by_contra apart
      exact nonzero ⟨w, hw, apart⟩
    obtain ⟨a, ha⟩ := h.total x
    exact ⟨a, w, ha, hw, by rw [same, zero, mul_zero, mul_zero, mul_zero, add_zero]⟩

theorem Reflects.mul (hl : Reflects K l e) (hr : Reflects K r f) (constant : f.isConstant) :
    Reflects K (.bin .mul l r) (e.scale f.const) where
  filled := hl.filled.mul hr.filled
  total x := by
    obtain ⟨a, ha⟩ := hl.total x
    obtain ⟨b, hb⟩ := hr.total x
    exact ⟨a * b, a, b, ha, hb, rfl⟩
  takes := by
    rintro x _ ⟨a, b, ha, hb, rfl⟩
    exact Affine.scale_takes (hl.takes x a ha) ((hr.has_iff constant).mp hb)
  converse := by
    intro single x v hv
    obtain ⟨a, w, ha, hw, rfl⟩ := hl.exists_of_scale hr.filled single hv
    exact ⟨a, w, ha, (hr.has_iff constant).mpr hw, rfl⟩

omit [IsStrictOrderedRing K] in
theorem mul_takes_comm {x : ℕ → K} {v : K} : (bin .mul l r).Takes x v ↔ (bin .mul r l).Takes x v := by
  constructor
  · rintro ⟨a, b, ha, hb, rfl⟩
    exact ⟨b, a, hb, ha, mul_comm a b⟩
  · rintro ⟨a, b, ha, hb, rfl⟩
    exact ⟨b, a, hb, ha, mul_comm a b⟩

theorem Reflects.mulLeft (hl : Reflects K l e) (hr : Reflects K r f) (constant : e.isConstant) :
    Reflects K (.bin .mul l r) (f.scale e.const) := by
  obtain ⟨filled, total, takes, converse⟩ := hr.mul hl constant
  simp only [mul_takes_comm (l := r)] at total takes converse
  exact ⟨filled, total, takes, converse⟩

theorem Reflects.div (hl : Reflects K l e) (hr : Reflects K r f) (constant : f.isConstant)
    (noZero : f.const.hasZero = false) (bounded : f.const.isBounded) :
    Reflects K (.bin .div l r) (e.scale ((Interval.point 1).div .exact f.const)) := by
  -- The divisor is a constant away from zero, so dividing is scaling by its reciprocal.
  have nonzero : ∀ {w : K}, f.const.Has w → w ≠ 0 := by
    rintro _ hw rfl
    rw [Interval.has_zero_iff, noZero] at hw
    contradiction
  constructor
  · exact hl.filled.mul hr.filled.one_div
  · intro x
    obtain ⟨a, ha⟩ := hl.total x
    obtain ⟨b, hb⟩ := hr.total x
    exact ⟨a / b, a, b, ha, hb, nonzero ((hr.has_iff constant).mp hb), rfl⟩
  · rintro x _ ⟨a, b, ha, hb, -, rfl⟩
    have recip := Interval.div_has (p := .exact) (Interval.point_has.mpr Rat.cast_one.symm)
      ((hr.has_iff constant).mp hb)
    rw [div_eq_mul_one_div]
    exact Affine.scale_takes (hl.takes x a ha) recip
  · intro single x v hv
    obtain ⟨a, w, ha, hw, rfl⟩ := hl.exists_of_scale hr.filled.one_div single hv
    obtain ⟨b, hb, rfl⟩ := (Interval.one_div_has_iff hr.filled bounded noZero).mp hw
    exact ⟨a, b, ha, (hr.has_iff constant).mpr hb, nonzero hb, (div_eq_mul_one_div a b).symm⟩

theorem Linear.reflects (linear : t.Linear e) : Reflects K t e := by
  induction linear with
  | const filled =>
    refine ⟨filled, fun _ => filled.exists_has, fun _ _ => Affine.constant_takes, fun _ _ _ takes => ?_⟩
    exact takes.const_has rfl
  | var d =>
    refine ⟨⟨0, Interval.zero_has⟩, fun x => ⟨x d, rfl⟩, ?_, ?_⟩
    · rintro x _ rfl
      exact Affine.var_takes d x
    · rintro - x _ ⟨s, k, ⟨c, w, hc, rfl, rfl⟩, hk, rfl⟩
      show c * x d + 0 + k = x d
      rw [Interval.point_has.mp hc, hk.eq_zero rfl]
      simp
  | neg _ ih => exact ih.negate
  | add _ _ ihl ihr => exact ihl.add ihr
  | sub _ _ ihl ihr => exact ihl.sub ihr
  | mulRight _ _ constant ihl ihr => exact ihl.mul ihr constant
  | mulLeft _ _ _ constant ihl ihr => exact ihl.mulLeft ihr constant
  | div _ _ constant noZero bounded ihl ihr => exact ihl.div ihr constant noZero bounded

theorem Linear.takes_iff (linear : t.Linear e) (scalar : e.isScalar) {x : ℕ → K} {v : K} :
    t.Takes x v ↔ e.Takes x v :=
  ⟨linear.reflects.takes x v, linear.reflects.converse (Affine.single_of_isScalar scalar) x v⟩

end Term

end SkewBox
