import SkewBox.Interval.Functions
import SkewBox.Proofs.Enclosure
import SkewBox.Proofs.Outcome

/-!
# Enclosure of non-linear functions

Square roots, truncated remainders, natural powers and conversions to integers of members lie in
the intervals that stand for them.

* `Interval.sqrt_has`, `Interval.cast_has`, `Interval.rem_has`, `Interval.pow_has`.
* `IsRemainder`: the truncated remainder.
-/

namespace SkewBox

variable {K : Type*} [Field K] [LinearOrder K]

/-- `v` is the truncated remainder of `a` by `b`: it differs from `a` by an integer multiple of
`b`, is smaller than `b` and has the sign of `a`. -/
structure IsRemainder (a b v : K) : Prop where
  multiple : ∃ q : ℤ, a = q * b + v
  smaller : |v| < |b|
  nonneg : 0 ≤ a → 0 ≤ v
  nonpos : a ≤ 0 → v ≤ 0

variable [IsStrictOrderedRing K]

theorem IsRemainder.neg {a b v : K} (h : IsRemainder a b v) : IsRemainder (-a) b (-v) := by
  obtain ⟨⟨q, multiple⟩, smaller, nonneg, nonpos⟩ := h
  refine ⟨⟨-q, ?_⟩, by rwa [abs_neg], fun h => ?_, fun h => ?_⟩
  · rw [multiple]
    push_cast
    ring
  · exact neg_nonneg.mpr (nonpos (neg_nonneg.mp h))
  · exact neg_nonpos.mpr (nonneg (neg_nonpos.mp h))

theorem IsRemainder.le {a b v : K} (h : IsRemainder a b v) (ha : 0 ≤ a) : v ≤ a := by
  obtain ⟨q, multiple⟩ := h.multiple
  by_contra exceeds
  have small : v < |b| := lt_of_abs_lt h.smaller
  have below : (q : K) * b < 0 := by linarith [not_le.mp exceeds]
  -- The multiple is not zero, so it is at least one divisor away from zero.
  have far : |b| ≤ |(q : K) * b| := by
    rw [abs_mul]
    have nonzero : q ≠ 0 := by
      rintro rfl
      simp at below
    have one : (1 : K) ≤ |(q : K)| := by exact_mod_cast Int.one_le_abs nonzero
    exact le_mul_of_one_le_left (abs_nonneg b) one
  rw [abs_of_neg below] at far
  linarith

namespace Interval

variable {I J : Interval} {x y v : K}

theorem Has.magnitude (hy : J.Has y) : J.magnitude.Above |y| := by
  obtain ⟨low, high⟩ := hy
  -- The end on the side of `y` bounds it, and the magnitude is at least that.
  rcases le_total 0 y with nonneg | nonpos
  · have above : J.hi.abs.Above |y| := by
      rw [abs_of_nonneg nonneg]
      cases hi : J.hi with
      | negInf => trivial
      | fin q =>
        rw [hi] at high
        have le : (q : K) ≤ (q.abs : K) := Rat.cast_le.mpr (by rw [Rat.abs]; split <;> linarith)
        exact le_trans high le
      | posInf => trivial
    exact above.mono (le_max_right _ _)
  · have above : J.lo.abs.Above |y| := by
      rw [abs_of_nonpos nonpos]
      cases lo : J.lo with
      | negInf => trivial
      | fin q =>
        rw [lo] at low
        have le : ((-q : ℚ) : K) ≤ (q.abs : K) := Rat.cast_le.mpr (by rw [Rat.abs]; split <;> linarith)
        push_cast at le
        exact le_trans (neg_le_neg low) le
      | posInf => trivial
    exact above.mono (le_max_left _ _)

/-! ## Conversion to an integer -/

theorem cast_has {z : ℤ} (hx : I.Has x) (above : x - 1 < z) (below : (z : K) < x + 1) :
    I.cast.Has (z : K) := by
  rw [cast, hx.isBottom]
  obtain ⟨low, high⟩ := hx
  obtain ⟨lo, hi⟩ := I
  constructor
  · cases lo with
    | negInf => trivial
    | fin q =>
      -- Both are integers, so less than one more is at most.
      have cast : ((q.floor : ℚ) : K) < ((z + 1 : ℚ) : K) := by
        have floor : ((q.floor : ℚ) : K) ≤ q := Rat.cast_le.mpr (Rat.floor_le q)
        have low : (q : K) ≤ x := low
        rw [Rat.cast_add, Rat.cast_intCast z, Rat.cast_one]
        linarith
      have near : q.floor < z + 1 := by exact_mod_cast Rat.cast_lt.mp cast
      have le : q.floor ≤ z := Int.lt_add_one_iff.mp near
      show ((q.floor : ℚ) : K) ≤ z
      exact_mod_cast le
    | posInf => exact low
  · cases hi with
    | negInf => exact high
    | fin q =>
      have cast : ((z - 1 : ℚ) : K) < ((q.ceil : ℚ) : K) := by
        have ceil : (q : K) ≤ ((q.ceil : ℚ) : K) := Rat.cast_le.mpr Rat.le_ceil
        have high : x ≤ (q : K) := high
        rw [Rat.cast_sub, Rat.cast_intCast z, Rat.cast_one]
        linarith
      have near : z - 1 < q.ceil := by exact_mod_cast Rat.cast_lt.mp cast
      have le : z ≤ q.ceil := Int.sub_one_lt_iff.mp near
      show (z : K) ≤ ((q.ceil : ℚ) : K)
      exact_mod_cast le
    | posInf => trivial

/-! ## Square roots -/

theorem sqrtBelow_below {a : Bound} {r : ℚ} (h : sqrtBelow a = .ok r) (pos : ¬ a ≤ .fin 0)
    (low : a.Below (v * v)) (nonneg : 0 ≤ v) : (r : K) ≤ v := by
  cases a with
  | negInf => exact absurd (Bound.negInf_le _) pos
  | fin q =>
    simp only [sqrtBelow] at h
    split at h
    · rename_i root found
      obtain rfl := Except.ok.inj h
      have q0 : 0 ≤ q := (not_le.mp fun le => pos (Bound.fin_le_fin.mpr le)).le
      have square : ((root * root : ℚ) : K) ≤ v * v :=
        le_trans (Rat.cast_le.mpr (Binary64.sq_le_of_sqrtDown? q0 found).2) low
      rw [Rat.cast_mul] at square
      exact nonneg_le_nonneg_of_sq_le_sq nonneg square
    · contradiction
  | posInf => exact absurd low Bound.not_posInf_below

theorem sqrtAbove_above {a b : Bound} (h : sqrtAbove a = .ok b) (high : a.Above (v * v)) :
    b.Above v := by
  cases a with
  | negInf => exact absurd high Bound.not_negInf_above
  | fin q =>
    simp only [sqrtAbove] at h
    split at h
    · rename_i root found
      obtain rfl := Except.ok.inj h
      have q0 : 0 ≤ q := Rat.cast_nonneg.mp (le_trans (mul_self_nonneg v) high)
      obtain ⟨root0, above⟩ := Binary64.le_sq_of_sqrtUp? q0 found
      have square : v * v ≤ ((root * root : ℚ) : K) := le_trans high (Rat.cast_le.mpr above)
      rw [Rat.cast_mul] at square
      exact nonneg_le_nonneg_of_sq_le_sq (Rat.cast_nonneg.mpr root0) square
    · contradiction
  | posInf =>
    obtain rfl := Except.ok.inj h
    exact Bound.posInf_above

theorem sqrt_has (h : I.sqrt = .ok J) (hx : I.Has (v * v)) (nonneg : 0 ≤ v) : J.Has v := by
  -- The square is a member, so the interval is not all negative and has a result.
  have notNegative : ¬ (I.isBottom || decide (I.hi < .fin 0)) = true := by
    have high : Bound.fin 0 ≤ I.hi :=
      Bound.le_of_below_above (x := v * v) (by simpa using mul_self_nonneg v) hx.2
    simp [hx.isBottom, high]
  simp only [sqrt, if_neg notNegative] at h
  split at h
  · -- An interval that reaches down to zero: the root has zero as its lower end.
    obtain ⟨r, zero, rest⟩ := bind_eq_ok.mp h
    obtain rfl : 0 = r := Except.ok.inj zero
    obtain ⟨b, above, rest⟩ := bind_eq_ok.mp rest
    obtain rfl := Except.ok.inj rest
    exact ⟨by simpa using nonneg, sqrtAbove_above above hx.2⟩
  · rename_i pos
    obtain ⟨r, below, rest⟩ := bind_eq_ok.mp h
    obtain ⟨b, above, rest⟩ := bind_eq_ok.mp rest
    obtain rfl := Except.ok.inj rest
    exact ⟨sqrtBelow_below below pos hx.1 nonneg, sqrtAbove_above above hx.2⟩

/-! ## Remainders -/

theorem rem_has (hx : I.Has x) (hy : J.Has y) (rem : IsRemainder x y v) : (I.rem J).Has v := by
  have notBottom : ¬ (I.isBottom || J.isBottom) = true := by simp [hx.isBottom, hy.isBottom]
  have size : J.magnitude.Above |v| := hy.magnitude.trans_ge rem.smaller.le
  have high : J.magnitude.Above v := size.trans_ge (le_abs_self v)
  have low : (-J.magnitude).Below v := by
    rw [← neg_neg v, Bound.neg_below]
    exact size.trans_ge (neg_le_abs v)
  simp only [Interval.rem, if_neg notBottom]
  split_ifs with zero nonneg nonpos
  · exact top_has
  · have x0 : 0 ≤ x := by simpa using hx.1.anti nonneg
    exact ⟨by simpa using rem.nonneg x0, Bound.min_above.mpr ⟨high, hx.2.trans_ge (rem.le x0)⟩⟩
  · have x0 : x ≤ 0 := by simpa using hx.2.mono nonpos
    have le : x ≤ v := neg_le_neg_iff.mp (rem.neg.le (neg_nonneg.mpr x0))
    exact ⟨Bound.max_below.mpr ⟨low, hx.1.trans_le le⟩, by simpa using rem.nonpos x0⟩
  · exact ⟨low, high⟩

/-! ## Powers -/

theorem power_has (hx : I.Has x) (k : ℕ) : (I.power k).Has (x ^ k) := by
  induction k with
  | zero => simp [power]
  | succ k ih =>
    rw [power, pow_succ]
    exact mul_has ih hx

omit [IsStrictOrderedRing K] in
theorem exponent?_eq_some {k : ℕ} (h : J.exponent? = some k) (hy : J.Has y) : y = k := by
  obtain ⟨lo, hi⟩ := J
  cases lo with
  | negInf => simp [exponent?] at h
  | fin q =>
    simp only [exponent?, isPoint, Bool.and_eq_true, decide_eq_true_eq,
      Option.ite_none_right_eq_some, Option.some.injEq] at h
    obtain ⟨⟨⟨⟨rfl, -⟩, integer⟩, nonneg⟩, rfl⟩ := h
    rw [point_has.mp hy]
    have num : (q.num.toNat : ℤ) = q.num := Int.toNat_of_nonneg (Rat.num_nonneg.mpr nonneg)
    have natural : ((q.num.toNat : ℤ) : ℚ) = q := by rw [num, Rat.coe_int_num_of_den_eq_one integer]
    calc (q : K) = (((q.num.toNat : ℤ) : ℚ) : K) := by rw [natural]
      _ = (q.num.toNat : K) := by push_cast; rfl
  | posInf => simp [exponent?] at h

theorem pow_has (hx : I.Has x) (hy : J.Has y) (power : ∀ k : ℕ, y = k → v = x ^ k) :
    (I.pow J).Has v := by
  have notBottom : ¬ (I.isBottom || J.isBottom) = true := by simp [hx.isBottom, hy.isBottom]
  rw [Interval.pow, if_neg notBottom]
  cases exponent : J.exponent? with
  | none => exact top_has
  | some k =>
    have value := power k (exponent?_eq_some exponent hy)
    subst value
    simp only
    split
    · rename_i even
      -- An even power is also not negative.
      refine has_meet.mpr ⟨power_has hx k, ?_, trivial⟩
      simpa using (Nat.even_iff.mpr even.1).pow_nonneg x
    · exact power_has hx k

end Interval

end SkewBox
