import SkewBox.Proofs.Inclusion
import SkewBox.Proofs.Products

/-!
# Hulls of products and quotients

Products and quotients of members lie in the interval that is computed for them.  Without rounding that is the
smallest closed one.  A quotient is the product with the interval of reciprocals; where the divisor has no end on
one side, zero is an end of that interval but no reciprocal, and the quotients only come as close to zero as one
likes.

* `Interval.IsHull`: the smallest closed interval around some rationals.
* `Interval.Unbounded`: members beyond every distance from zero.
* `Interval.products_and_quotients_tight`: enclosure and tightness.
-/

namespace SkewBox.Interval

variable {K : Type*} [Field K] [LinearOrder K] [IsStrictOrderedRing K]
variable {I J : Interval}

/-- The smallest closed interval, with infinite ends allowed, that holds all rationals with `S`. -/
structure IsHull (I : Interval) (S : ℚ → Prop) : Prop where
  has : ∀ v, S v → I.Has v
  least : ∀ J : Interval, (∀ v, S v → J.Has v) → J.lo ≤ I.lo ∧ I.hi ≤ J.hi

theorem Filled.isHull (filled : I.Filled) {S : ℚ → Prop} (has : ∀ v, S v → I.Has v)
    (within : ∀ J : Interval, (∀ v, S v → J.Has v) → ∀ q : ℚ, I.Has q → J.Has q) : I.IsHull S := by
  constructor
  · exact has
  · intro J around
    obtain ⟨q, hq⟩ := filled
    have included : I.leq J := leq_of_has ⟨q, hq⟩ (within J around)
    simpa [leq, hq.isBottom, (within J around q hq).isBottom] using included

/-! ## Products -/

theorem mul_isHull (hI : I.Filled) (hJ : J.Filled) :
    (I.mul .exact J).IsHull fun v => ∃ x y : ℚ, I.Has x ∧ J.Has y ∧ v = x * y := by
  apply (hI.mul hJ).isHull
  · rintro v ⟨x, y, hx, hy, rfl⟩
    exact mul_has hx hy
  · intro C around q hq
    exact around q ((mul_has_iff hI hJ).mp hq)

/-! ## Divisors without an end -/

/-- Members lie beyond every distance from zero. -/
def Unbounded (J : Interval) : Prop := ∀ m : ℚ, ∃ y : ℚ, J.Has y ∧ m ≤ |y|

theorem Approaches.unbounded {a : Bound} (h : J.Approaches ℚ a) (infinite : a.isFinite = false) :
    J.Unbounded := by
  intro m
  cases a with
  | negInf =>
    obtain ⟨y, hy, le⟩ := h (-m)
    exact ⟨y, hy, (le_neg.mpr le).trans (neg_le_abs y)⟩
  | fin q => simp [Bound.isFinite] at infinite
  | posInf =>
    obtain ⟨y, hy, le⟩ := h m
    exact ⟨y, hy, le.trans (le_abs_self y)⟩

theorem Filled.unbounded (filled : J.Filled) (infinite : J.isBounded = false) : J.Unbounded := by
  cases Bool.and_eq_false_iff.mp infinite with
  | inl lo => exact filled.approaches_lo.unbounded lo
  | inr hi => exact filled.approaches_hi.unbounded hi

/-! ## Quotients -/

theorem has_of_near {x : K} (near : ∀ ε > 0, ∃ v, I.Has v ∧ |v - x| ≤ ε) : I.Has x := by
  obtain ⟨lo, hi⟩ := I
  constructor
  · cases lo with
    | negInf => trivial
    | posInf =>
      obtain ⟨v, member, -⟩ := near 1 one_pos
      exact member.1
    | fin l =>
      -- Members come arbitrarily close, and each of them respects the end.
      apply le_of_forall_pos_le_add
      intro ε positive
      obtain ⟨v, member, close⟩ := near ε positive
      have low : (l : K) ≤ v := member.1
      linarith [le_abs_self (v - x)]
  · cases hi with
    | posInf => trivial
    | negInf =>
      obtain ⟨v, member, -⟩ := near 1 one_pos
      exact member.2
    | fin h =>
      apply le_of_forall_pos_le_add
      intro ε positive
      obtain ⟨v, member, close⟩ := near ε positive
      have high : v ≤ (h : K) := member.2
      linarith [neg_abs_le (v - x)]

theorem Unbounded.exists_div_near (far : J.Unbounded) (x : ℚ) {ε : ℚ} (positive : 0 < ε) :
    ∃ y : ℚ, J.Has y ∧ |x / y| ≤ ε := by
  obtain ⟨y, hy, large⟩ := far (|x| / ε + 1)
  have size : 0 < |y| := lt_of_lt_of_le (by positivity) large
  refine ⟨y, hy, ?_⟩
  rw [abs_div, div_le_iff₀ size]
  have bound : |x| / ε ≤ |y| := by linarith
  rwa [div_le_iff₀ positive, mul_comm] at bound

theorem div_isHull (hI : I.Filled) (hJ : J.Filled) (noZero : J.hasZero = false) :
    (I.div .exact J).IsHull fun v => ∃ x y : ℚ, I.Has x ∧ J.Has y ∧ v = x / y := by
  have reciprocals := hJ.recip noZero
  rw [div_eq_mul_recip hI hJ noZero]
  apply (hI.mul reciprocals).isHull
  · rintro v ⟨x, y, hx, hy, rfl⟩
    rw [div_eq_mul_one_div]
    exact mul_has hx (one_div_has noZero hy)
  · intro C around q hq
    obtain ⟨x, r, hx, hr, rfl⟩ := (mul_has_iff hI reciprocals).mp hq
    rcases recip_has hJ noZero hr with member | ⟨rfl, infinite⟩
    · exact around _ ⟨x, 1 / r, hx, member, by rw [div_div_eq_mul_div, div_one]⟩
    · -- Zero is no quotient, but close to some.
      rw [mul_zero]
      apply has_of_near
      intro ε positive
      obtain ⟨y, hy, close⟩ := (hJ.unbounded infinite).exists_div_near x positive
      exact ⟨x / y, around _ ⟨x, y, hx, hy, rfl⟩, by rwa [sub_zero]⟩

/-- Products and quotients of members are enclosed, rounded or not; what is not rounded is as small as can be. -/
theorem products_and_quotients_tight {A B : Interval} (hA : A.Filled) (hB : B.Filled) :
    (∀ (p : Precision) (x y : K), A.Has x → B.Has y →
      (A.mul p B).Has (x * y) ∧ (y ≠ 0 → (A.div p B).Has (x / y))) ∧
    (A.mul .exact B).IsHull (fun v => ∃ x y : ℚ, A.Has x ∧ B.Has y ∧ v = x * y) ∧
    (¬ B.Has (0 : ℚ) →
      (A.div .exact B).IsHull fun v => ∃ x y : ℚ, A.Has x ∧ B.Has y ∧ v = x / y) := by
  refine ⟨fun p x y hx hy => ⟨mul_has hx hy, fun _ => div_has hx hy⟩, mul_isHull hA hB, fun noZero => ?_⟩
  exact div_isHull hA hB (by simpa [has_zero_iff] using noZero)

def oneToThree : Interval := ⟨.fin 1, .fin 3⟩

def fromTwo : Interval := ⟨.fin 2, .posInf⟩

/-- No quotient is zero, which is an end of their hull. -/
example : oneToThree.div .exact fromTwo = ⟨.fin 0, .fin (3 / 2)⟩ := by decide +kernel

/-- A divisor without an upper end. -/
theorem products_and_quotients_tight_fromTwo :
    oneToThree.Filled ∧ fromTwo.Filled ∧ ¬ fromTwo.Has (0 : ℚ) ∧
    (∀ (p : Precision) (x y : ℚ), oneToThree.Has x → fromTwo.Has y →
      (oneToThree.mul p fromTwo).Has (x * y) ∧ (y ≠ 0 → (oneToThree.div p fromTwo).Has (x / y))) ∧
    (oneToThree.mul .exact fromTwo).IsHull
      (fun v => ∃ x y : ℚ, oneToThree.Has x ∧ fromTwo.Has y ∧ v = x * y) ∧
    (oneToThree.div .exact fromTwo).IsHull
      fun v => ∃ x y : ℚ, oneToThree.Has x ∧ fromTwo.Has y ∧ v = x / y := by
  have dividend : oneToThree.Filled := filled_iff.mpr (by decide)
  have divisor : fromTwo.Filled := filled_iff.mpr (by decide)
  have noZero : ¬ fromTwo.Has (0 : ℚ) := by
    rw [has_zero_iff]
    decide
  obtain ⟨enclosed, products, quotients⟩ := products_and_quotients_tight (K := ℚ) dividend divisor
  exact ⟨dividend, divisor, noZero, enclosed, products, quotients noZero⟩

end SkewBox.Interval
