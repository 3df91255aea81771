import Mathlib.Tactic
import Mathlib.Data.Rat.Floor
import SkewBox.Interval
import SkewBox.Proofs.Binary64
import SkewBox.Proofs.Linear

/-!
# Enclosure by intervals

Ends of intervals are rationals or infinite, and what lies between them are the members of any
ordered field: the rationals themselves, or the reals that a square root may give.  Interval
operations hold every result on members of their operands, in both precisions and with infinite
ends.

* `LinearOrder Bound`: bounds are linearly ordered.
* `Bound.Below`, `Bound.Above`, `Interval.Has`: what lies above, below and between ends.
* `Precision.dot_has`: a combination of intervals holds the combination of their members.
-/

namespace SkewBox

/-! ## Bounds -/

namespace Bound

theorem le_refl' (a : Bound) : a ≤ a := by
  cases a with
  | negInf => trivial
  | fin q => exact Rat.le_refl (a := q)
  | posInf => trivial

theorem le_trans' {a b c : Bound} (ab : a ≤ b) (bc : b ≤ c) : a ≤ c := by
  cases a <;> cases b <;> cases c <;> simp_all
  exact ab.trans bc

theorem le_total' (a b : Bound) : a ≤ b ∨ b ≤ a := by
  cases a <;> cases b <;> simp
  exact le_total _ _

instance : LinearOrder Bound where
  le_refl := le_refl'
  le_trans _ _ _ := le_trans'
  le_antisymm a b ab ba := by
    cases a <;> cases b <;> simp_all
    exact ab.antisymm ba
  le_total := le_total'
  lt_iff_le_not_ge a b := by
    rw [lt_iff_not_le]
    exact ⟨fun h => ⟨(le_total' a b).resolve_right h, h⟩, fun h => h.2⟩
  toDecidableLE := decidableLe
  toDecidableEq := inferInstance
  toDecidableLT := decidableLt

@[simp] theorem neg_fin (q : ℚ) : -fin q = fin (-q) := rfl

@[simp] theorem neg_negInf : -negInf = posInf := rfl

@[simp] theorem neg_posInf : -posInf = negInf := rfl

@[simp] theorem neg_neg' (a : Bound) : -(-a) = a := by
  cases a with
  | negInf => rfl
  | fin q => exact congrArg fin (neg_neg q)
  | posInf => rfl

theorem neg_le_neg_iff {a b : Bound} : -a ≤ -b ↔ b ≤ a := by
  cases a <;> cases b <;> simp

theorem neg_le {a b : Bound} : -a ≤ b ↔ -b ≤ a := by
  rw [← neg_le_neg_iff, neg_neg']

theorem le_neg {a b : Bound} : a ≤ -b ↔ b ≤ -a := by
  rw [← neg_le_neg_iff, neg_neg']

theorem sign_eq_zero {a : Bound} : a.sign = 0 ↔ a = fin 0 := by
  cases a with
  | negInf => simp [sign]
  | fin q =>
    rcases lt_trichotomy q 0 with neg | rfl | pos
    · simp [sign, neg, neg.ne, neg.le.not_gt]
    · simp [sign]
    · simp [sign, pos, pos.ne']
  | posInf => simp [sign]

theorem sign_neg (a : Bound) : (-a).sign = -a.sign := by
  cases a with
  | negInf => rfl
  | fin q =>
    rcases lt_trichotomy q 0 with neg | rfl | pos
    · simp [sign, neg, neg.le.not_gt]
    · rfl
    · simp [sign, pos, pos.le.not_gt]
  | posInf => rfl

theorem sign_nonneg {a : Bound} (h : fin 0 ≤ a) : 0 ≤ a.sign := by
  cases a with
  | negInf => exact absurd h not_fin_le_negInf
  | fin q =>
    have nonneg : ¬ q < 0 := not_lt.mpr (fin_le_fin.mp h)
    by_cases pos : 0 < q <;> simp [sign, pos, nonneg]
  | posInf => simp [sign]

theorem le_ceil (a : Bound) : a ≤ a.ceil := by
  cases a with
  | negInf => trivial
  | fin q => exact Rat.le_ceil
  | posInf => trivial

theorem floor_le (a : Bound) : a.floor ≤ a := by
  cases a with
  | negInf => trivial
  | fin q => exact Rat.floor_le q
  | posInf => trivial

/-! ### Numbers above and below a bound -/

variable {K : Type*} [Field K] [LinearOrder K]

/-- The bound lies at or below the number `x`. -/
def Below (a : Bound) (x : K) : Prop :=
  match a with
  | negInf => True
  | fin q => (q : K) ≤ x
  | posInf => False

/-- The bound lies at or above the number `x`. -/
def Above (a : Bound) (x : K) : Prop :=
  match a with
  | negInf => False
  | fin q => x ≤ (q : K)
  | posInf => True

variable {a b : Bound} {x y : K}

@[simp] theorem negInf_below : negInf.Below x := trivial

@[simp] theorem fin_below {q : ℚ} : (fin q).Below x ↔ (q : K) ≤ x := Iff.rfl

@[simp] theorem not_posInf_below : ¬ posInf.Below x := id

@[simp] theorem not_negInf_above : ¬ negInf.Above x := id

@[simp] theorem fin_above {q : ℚ} : (fin q).Above x ↔ x ≤ (q : K) := Iff.rfl

@[simp] theorem posInf_above : posInf.Above x := trivial

theorem Below.trans_le (h : a.Below x) (xy : x ≤ y) : a.Below y := by
  cases a with
  | negInf => trivial
  | fin q => exact le_trans h xy
  | posInf => exact h

theorem Above.trans_ge (h : a.Above y) (xy : x ≤ y) : a.Above x := by
  cases a with
  | negInf => exact h
  | fin q => exact le_trans xy h
  | posInf => trivial

variable [IsStrictOrderedRing K]

theorem Below.anti (h : b.Below x) (ab : a ≤ b) : a.Below x := by
  cases a <;> cases b <;> simp_all
  exact le_trans (Rat.cast_le.mpr ab) h

theorem Above.mono (h : a.Above x) (ab : a ≤ b) : b.Above x := by
  cases a <;> cases b <;> simp_all
  exact le_trans h (Rat.cast_le.mpr ab)

theorem below_ratCast {q : ℚ} : a.Below (q : K) ↔ a ≤ fin q := by
  cases a <;> simp

theorem above_ratCast {q : ℚ} : a.Above (q : K) ↔ fin q ≤ a := by
  cases a <;> simp

theorem le_of_below_above (low : a.Below x) (high : b.Above x) : a ≤ b := by
  cases a <;> cases b <;> simp_all
  exact Rat.cast_le.mp (low.trans high)

@[simp] theorem neg_below : (-a).Below (-x) ↔ a.Above x := by
  cases a <;> simp

@[simp] theorem neg_above : (-a).Above (-x) ↔ a.Below x := by
  cases a <;> simp

theorem max_below : (max a b).Below x ↔ a.Below x ∧ b.Below x := by
  constructor
  · exact fun h => ⟨h.anti (le_max_left a b), h.anti (le_max_right a b)⟩
  · intro h
    rcases max_choice a b with eq | eq <;> rw [eq]
    · exact h.1
    · exact h.2

theorem min_above : (min a b).Above x ↔ a.Above x ∧ b.Above x := by
  constructor
  · exact fun h => ⟨h.mono (min_le_left a b), h.mono (min_le_right a b)⟩
  · intro h
    rcases min_choice a b with eq | eq <;> rw [eq]
    · exact h.1
    · exact h.2

theorem ceil_below_intCast {z : ℤ} (h : a.Below (z : K)) : a.ceil.Below (z : K) := by
  cases a with
  | negInf => trivial
  | fin q =>
    have cast : (q : K) ≤ ((z : ℚ) : K) := by simpa using h
    have low : q ≤ (z : ℚ) := Rat.cast_le.mp cast
    have rounded : q.ceil ≤ z := Rat.ceil_le_iff.mpr low
    show ((q.ceil : ℚ) : K) ≤ (z : K)
    exact_mod_cast rounded
  | posInf => exact h

theorem floor_above_intCast {z : ℤ} (h : a.Above (z : K)) : a.floor.Above (z : K) := by
  cases a with
  | negInf => exact h
  | fin q =>
    have cast : ((z : ℚ) : K) ≤ (q : K) := by simpa using h
    have high : (z : ℚ) ≤ q := Rat.cast_le.mp cast
    have rounded : z ≤ q.floor := Rat.le_floor_iff.mpr high
    show (z : K) ≤ ((q.floor : ℚ) : K)
    exact_mod_cast rounded
  | posInf => trivial

end Bound

/-! ## Arithmetic on ends -/

namespace Precision

variable (p : Precision)

theorem roundRat_down_le (q : ℚ) : p.roundRat .down q ≤ .fin q := by
  cases p with
  | exact => exact le_rfl
  | binary64 => exact Binary64.roundDown_le q

theorem le_roundRat_up (q : ℚ) : .fin q ≤ p.roundRat .up q := by
  cases p with
  | exact => exact le_rfl
  | binary64 => exact Binary64.le_roundUp q

theorem roundRat_up_eq (q : ℚ) : p.roundRat .up q = -p.roundRat .down (-q) := by
  cases p with
  | exact => simp [roundRat]
  | binary64 =>
    show Binary64.roundUp q = -Binary64.roundDown (-q)
    unfold Binary64.roundUp Binary64.roundDown
    rcases lt_trichotomy q 0 with neg | rfl | pos
    · rw [if_neg (by linarith), if_pos (by linarith)]
    · -- Zero takes the branch for non-negative numbers on both sides.
      have index : Binary64.floorIndex 0 = 0 := rfl
      simp [Binary64.aboveNonneg, Binary64.belowNonneg, index, Binary64.value_zero]
    · rw [if_pos pos.le, if_neg (by linarith), neg_neg, Bound.neg_neg']

theorem add_down_le_add_up {a b c d : Bound} (ab : a ≤ b) (cd : c ≤ d) :
    p.add .down a c ≤ p.add .up b d := by
  -- Only four finite ends leave something to show; an infinite one decides the sum.
  cases a <;> cases b <;> cases c <;> cases d <;> simp_all [add, Rounding.widest]
  exact (p.roundRat_down_le _).trans
    (le_trans (Bound.fin_le_fin.mpr (add_le_add ab cd)) (p.le_roundRat_up _))

theorem mul_comm' (r : Rounding) (a b : Bound) : p.mul r a b = p.mul r b a := by
  cases a <;> cases b <;> simp [mul, infinityOf, mul_comm, or_comm]

theorem mul_of_infinite (r : Rounding) {a b : Bound} (infinite : ¬ (a.isFinite ∧ b.isFinite)) :
    p.mul r a b = if a.sign * b.sign = 0 then r.widest else infinityOf a b := by
  simp only [mul_eq_zero, Bound.sign_eq_zero]
  cases a <;> cases b <;> simp [Bound.isFinite] at infinite <;> rfl

theorem mul_neg_neg (r : Rounding) (a b : Bound) : p.mul r (-a) (-b) = p.mul r a b := by
  by_cases finite : a.isFinite ∧ b.isFinite
  · cases a <;> cases b <;> simp [Bound.isFinite] at finite
    simp [mul]
  · have finite' : ¬ ((-a).isFinite ∧ (-b).isFinite) := by
      cases a <;> cases b <;> simp_all [Bound.isFinite]
    rw [mul_of_infinite p r finite, mul_of_infinite p r finite']
    simp only [infinityOf, Bound.sign_neg, Int.neg_mul_neg]

theorem mul_up_eq (a b : Bound) : p.mul .up a b = -p.mul .down a (-b) := by
  by_cases finite : a.isFinite ∧ b.isFinite
  · cases a <;> cases b <;> simp [Bound.isFinite] at finite
    simp [mul, roundRat_up_eq]
  · have finite' : ¬ (a.isFinite ∧ (-b).isFinite) := by
      cases a <;> cases b <;> simp_all [Bound.isFinite]
    rw [mul_of_infinite p .up finite, mul_of_infinite p .down finite']
    simp only [infinityOf, Bound.sign_neg, mul_neg, neg_eq_zero, Rounding.widest]
    rcases lt_trichotomy (a.sign * b.sign) 0 with side | side | side
    · simp [side.ne, side, side.le.not_gt]
    · simp [side]
    · simp [side.ne', side, side.le.not_gt]

section Ends

variable {K : Type*} [Field K] [LinearOrder K] [IsStrictOrderedRing K]

theorem roundRat_below {q : ℚ} {x : K} (h : (q : K) ≤ x) : (p.roundRat .down q).Below x :=
  (Bound.fin_below.mpr h).anti (p.roundRat_down_le q)

theorem roundRat_above {q : ℚ} {x : K} (h : x ≤ (q : K)) : (p.roundRat .up q).Above x :=
  (Bound.fin_above.mpr h).mono (p.le_roundRat_up q)

variable {a b : Bound} {x y : K}

theorem add_below (hx : a.Below x) (hy : b.Below y) : (p.add .down a b).Below (x + y) := by
  cases a <;> cases b <;> simp_all [add]
  exact p.roundRat_below (by push_cast; exact add_le_add hx hy)

theorem add_above (hx : a.Above x) (hy : b.Above y) : (p.add .up a b).Above (x + y) := by
  cases a <;> cases b <;> simp_all [add]
  exact p.roundRat_above (by push_cast; exact add_le_add hx hy)

theorem mul_below_of_nonneg (ha : .fin 0 ≤ a) (hx : a.Below x) (hb : .fin 0 ≤ b)
    (hy : b.Below y) : (p.mul .down a b).Below (x * y) := by
  cases a <;> cases b <;> simp_all [mul]
  apply p.roundRat_below
  push_cast
  exact mul_le_mul hx hy (Rat.cast_nonneg.mpr hb) (le_trans (Rat.cast_nonneg.mpr ha) hx)

theorem mul_below_of_nonpos (ha : a ≤ .fin 0) (hx : a.Above x) (hb : b ≤ .fin 0)
    (hy : b.Above y) : (p.mul .down a b).Below (x * y) := by
  rw [← mul_neg_neg, ← neg_mul_neg]
  exact p.mul_below_of_nonneg (Bound.le_neg.mp (by simpa using ha)) (by simpa using hx)
    (Bound.le_neg.mp (by simpa using hb)) (by simpa using hy)

/-- The first factor below a non-negative end, the second above a non-positive one, and one of
the factors on the side of its end. -/
theorem mul_below_of_mixed (ha : .fin 0 ≤ a) (hx : a.Above x) (hb : b ≤ .fin 0)
    (hy : b.Below y) (side : 0 ≤ x ∨ y ≤ 0) : (p.mul .down a b).Below (x * y) := by
  by_cases finite : a.isFinite ∧ b.isFinite
  · cases a <;> cases b <;> simp [Bound.isFinite] at finite
    rename_i a b
    apply p.roundRat_below
    have a0 : (0 : K) ≤ a := Rat.cast_nonneg.mpr (Bound.fin_le_fin.mp ha)
    have b0 : (b : K) ≤ 0 := Rat.cast_nonpos.mpr (Bound.fin_le_fin.mp hb)
    simp only [Bound.fin_above, Bound.fin_below] at hx hy
    push_cast
    -- The side condition fixes the sign of one factor, hence the order of the products.
    rcases side with side | side <;> nlinarith
  · -- An infinite factor: the signs of the ends exclude positive infinity.
    have signs : a.sign * b.sign ≤ 0 := by
      have below : 0 ≤ (-b).sign := Bound.sign_nonneg (Bound.le_neg.mp (by simpa using hb))
      rw [Bound.sign_neg] at below
      exact mul_nonpos_of_nonneg_of_nonpos (Bound.sign_nonneg ha) (by omega)
    rw [mul_of_infinite p .down finite, infinityOf, if_neg signs.not_gt]
    simp [Rounding.widest]

theorem mul_below_of_mixed' (ha : a ≤ .fin 0) (hx : a.Below x) (hb : .fin 0 ≤ b)
    (hy : b.Above y) (side : x ≤ 0 ∨ 0 ≤ y) : (p.mul .down a b).Below (x * y) := by
  rw [mul_comm', mul_comm x y]
  exact p.mul_below_of_mixed hb hy ha hx side.symm

/-! The upper end of a product is enclosed as the lower end with the second factor negated. -/

theorem mul_above_of_below (h : (p.mul .down a (-b)).Below (x * -y)) :
    (p.mul .up a b).Above (x * y) := by
  rw [mul_up_eq, ← neg_neg (x * y), Bound.neg_above, ← mul_neg]
  exact h

theorem mul_above_of_nonneg (ha : .fin 0 ≤ a) (hx : a.Above x) (hb : .fin 0 ≤ b)
    (hy : b.Above y) (side : 0 ≤ x ∨ 0 ≤ y) : (p.mul .up a b).Above (x * y) := by
  apply p.mul_above_of_below
  exact p.mul_below_of_mixed ha hx (Bound.neg_le.mpr (by simpa using hb))
    (Bound.neg_below.mpr hy) (by simpa using side)

theorem mul_above_of_nonpos (ha : a ≤ .fin 0) (hx : a.Below x) (hb : b ≤ .fin 0)
    (hy : b.Below y) (side : x ≤ 0 ∨ y ≤ 0) : (p.mul .up a b).Above (x * y) := by
  apply p.mul_above_of_below
  exact p.mul_below_of_mixed' ha hx (Bound.le_neg.mpr (by simpa using hb))
    (Bound.neg_above.mpr hy) (by simpa using side)

theorem mul_above_of_mixed (ha : .fin 0 ≤ a) (hx : a.Below x) (hb : b ≤ .fin 0)
    (hy : b.Above y) : (p.mul .up a b).Above (x * y) := by
  apply p.mul_above_of_below
  exact p.mul_below_of_nonneg ha hx (Bound.le_neg.mpr (by simpa using hb))
    (Bound.neg_below.mpr hy)

theorem mul_above_of_mixed' (ha : a ≤ .fin 0) (hx : a.Above x) (hb : .fin 0 ≤ b)
    (hy : b.Below y) : (p.mul .up a b).Above (x * y) := by
  rw [mul_comm', mul_comm x y]
  exact p.mul_above_of_mixed hb hy ha hx

end Ends

/-! ### A positive finite factor -/

theorem mul_fin_negInf (r : Rounding) {c : ℚ} (pos : 0 < c) :
    p.mul r (.fin c) .negInf = .negInf := by
  simp [mul, infinityOf, Bound.sign, pos, pos.ne']

theorem mul_fin_posInf (r : Rounding) {c : ℚ} (pos : 0 < c) :
    p.mul r (.fin c) .posInf = .posInf := by
  simp [mul, infinityOf, Bound.sign, pos, pos.ne']

theorem mul_fin_down_le_up {c : ℚ} (pos : 0 < c) {a b : Bound} (ab : a ≤ b) :
    p.mul .down (.fin c) a ≤ p.mul .up (.fin c) b := by
  cases a with
  | negInf => rw [mul_fin_negInf p _ pos]; exact Bound.negInf_le _
  | fin q =>
    cases b with
    | negInf => exact absurd ab Bound.not_fin_le_negInf
    | fin r =>
      have scaled : c * q ≤ c * r := mul_le_mul_of_nonneg_left (Bound.fin_le_fin.mp ab) pos.le
      exact le_trans (p.roundRat_down_le _)
        (le_trans (Bound.fin_le_fin.mpr scaled) (p.le_roundRat_up _))
    | posInf => rw [mul_fin_posInf p _ pos]; exact Bound.le_posInf _
  | posInf =>
    obtain rfl : b = .posInf := le_antisymm (Bound.le_posInf b) ab
    rw [mul_fin_posInf p _ pos, mul_fin_posInf p _ pos]

section Ends

variable {K : Type*} [Field K] [LinearOrder K] [IsStrictOrderedRing K] {a : Bound} {x : K}

theorem mul_fin_below {c : ℚ} (pos : 0 < c) (hx : a.Below x) :
    (p.mul .down (.fin c) a).Below (c * x) := by
  cases a with
  | negInf => rw [mul_fin_negInf p _ pos]; exact Bound.negInf_below
  | fin q =>
    apply p.roundRat_below
    push_cast
    exact mul_le_mul_of_nonneg_left hx (Rat.cast_nonneg.mpr pos.le)
  | posInf => exact absurd hx Bound.not_posInf_below

theorem mul_fin_above {c : ℚ} (pos : 0 < c) (hx : a.Above x) :
    (p.mul .up (.fin c) a).Above (c * x) := by
  apply p.mul_above_of_below
  exact p.mul_fin_below pos (Bound.neg_below.mpr hx)

/-! ### Reciprocals -/

theorem one_div_up_eq (b : Bound) :
    p.div .up (.fin 1) b = -p.div .down (.fin 1) (-b) := by
  cases b with
  | negInf => rfl
  | fin q =>
    by_cases zero : q = 0
    · subst zero
      simp [div, Rounding.widest]
    · simp [div, zero, roundRat_up_eq]
  | posInf => rfl

theorem one_div_below (hx : a.Above x) (apart : .fin 0 ≤ a → 0 < x) :
    (p.div .down (.fin 1) a).Below (1 / x) := by
  cases a with
  | negInf => exact absurd hx Bound.not_negInf_above
  | fin q =>
    -- An end at zero would have the member on the wrong side of zero.
    have nonzero : q ≠ 0 := by
      rintro rfl
      have above : x ≤ 0 := by simpa using hx
      exact absurd (apart le_rfl) above.not_gt
    have reciprocals : ((1 / q : ℚ) : K) ≤ 1 / x := by
      push_cast
      rcases lt_or_gt_of_ne nonzero with neg | pos
      · exact one_div_le_one_div_of_neg_of_le (Rat.cast_lt_zero.mpr neg) hx
      · exact one_div_le_one_div_of_le (apart (Bound.fin_le_fin.mpr pos.le)) hx
    simp only [div, Bound.fin.injEq, nonzero, if_false]
    exact p.roundRat_below reciprocals
  | posInf =>
    have nonneg : (0 : K) ≤ 1 / x := (one_div_pos.mpr (apart (Bound.le_posInf _))).le
    simpa [div] using nonneg

theorem one_div_above (hx : a.Below x) (apart : a ≤ .fin 0 → x < 0) :
    (p.div .up (.fin 1) a).Above (1 / x) := by
  have flipped := p.one_div_below (a := -a) (x := -x) (by simpa using hx)
    fun nonneg => neg_pos.mpr (apart (by simpa using Bound.le_neg.mp nonneg))
  rw [one_div_up_eq, ← neg_neg (1 / x), Bound.neg_above, ← one_div_neg_eq_neg_one_div]
  exact flipped

end Ends

end Precision

/-! ## Members of intervals -/

namespace Interval

section Members

variable {K : Type*} [Field K] [LinearOrder K] {p : Precision} {I J : Interval} {x y : K}

/-- The number `x` lies between the ends. -/
def Has (I : Interval) (x : K) : Prop := I.lo.Below x ∧ I.hi.Above x

@[simp] theorem top_has : top.Has x := ⟨trivial, trivial⟩

theorem has_of_isTop (h : I.isTop) : I.Has x := by
  obtain ⟨lo, hi⟩ := I
  simp only [isTop, Bool.and_eq_true, decide_eq_true_eq] at h
  obtain ⟨rfl, rfl⟩ := h
  exact top_has

@[simp] theorem point_has {q : ℚ} : (point q).Has x ↔ x = q := by
  simp only [Has, point, Bound.fin_below, Bound.fin_above]
  exact ⟨fun h => h.2.antisymm h.1, fun h => ⟨h.ge, h.le⟩⟩

theorem zero_has : zero.Has (0 : K) := point_has.mpr Rat.cast_zero.symm

theorem Has.eq_zero (hx : I.Has x) (zero : I.isZero) : x = 0 := by
  obtain ⟨lo, hi⟩ := I
  simp only [isZero, Bool.and_eq_true, decide_eq_true_eq] at zero
  obtain ⟨rfl, rfl⟩ := zero
  simpa using point_has.mp hx

theorem isBottom_eq_false_iff : I.isBottom = false ↔ I.lo ≤ I.hi := by
  simp [isBottom]

variable [IsStrictOrderedRing K]

theorem Has.ordered (hx : I.Has x) : I.lo ≤ I.hi := Bound.le_of_below_above hx.1 hx.2

theorem Has.isBottom (hx : I.Has x) : I.isBottom = false := isBottom_eq_false_iff.mpr hx.ordered

theorem has_zero_iff : I.Has (0 : K) ↔ I.hasZero := by
  rw [Has, ← Rat.cast_zero, Bound.below_ratCast, Bound.above_ratCast]
  simp [hasZero, contains]

theorem not_bottom_has : ¬ bottom.Has x := fun hx => absurd hx.isBottom (by decide)

theorem has_meet : (I.meet J).Has x ↔ I.Has x ∧ J.Has x := by
  simp only [meet]
  split
  · rename_i empty
    refine iff_of_false not_bottom_has ?_
    rintro ⟨inI, inJ⟩
    -- A common member would lie between the ends of the meet.
    have ordered : max I.lo J.lo ≤ min I.hi J.hi :=
      Bound.le_of_below_above (Bound.max_below.mpr ⟨inI.1, inJ.1⟩)
        (Bound.min_above.mpr ⟨inI.2, inJ.2⟩)
    exact absurd empty ordered.not_gt
  · simp only [Has, Bound.max_below, Bound.min_above]
    tauto

/-! ### Enclosure of arithmetic -/

theorem neg_has (hx : I.Has x) : I.neg.Has (-x) := by
  rw [neg, hx.isBottom]
  exact ⟨Bound.neg_below.mpr hx.2, Bound.neg_above.mpr hx.1⟩

theorem add_has (hx : I.Has x) (hy : J.Has y) : (I.add p J).Has (x + y) := by
  rw [add, hx.isBottom, hy.isBottom]
  exact ⟨p.add_below hx.1 hy.1, p.add_above hx.2 hy.2⟩

theorem sub_has (hx : I.Has x) (hy : J.Has y) : (I.sub p J).Has (x - y) := by
  rw [sub_eq_add_neg]
  exact add_has hx (neg_has hy)

theorem mul_has (hx : I.Has x) (hy : J.Has y) : (I.mul p J).Has (x * y) := by
  have product_zero : I.isZero ∨ J.isZero → x * y = 0 := by
    rintro (zero | zero)
    · rw [hx.eq_zero zero, zero_mul]
    · rw [hy.eq_zero zero, mul_zero]
  have notBottom : ¬ (I.isBottom || J.isBottom) = true := by simp [hx.isBottom, hy.isBottom]
  have above : ∀ {a : Bound}, .fin 0 ≤ a → ∀ {z : K}, a.Below z → 0 ≤ z := by
    intro a a0 z az
    simpa using az.anti a0
  have below : ∀ {a : Bound}, a ≤ .fin 0 → ∀ {z : K}, a.Above z → z ≤ 0 := by
    intro a a0 z za
    simpa using za.mono a0
  have ab : I.lo ≤ I.hi := hx.ordered
  have cd : J.lo ≤ J.hi := hy.ordered
  obtain ⟨ax, xb⟩ := hx
  obtain ⟨cy, yd⟩ := hy
  simp only [mul, if_neg notBottom]
  -- One case for each position of the two operands around zero.
  split_ifs with zero a0 c0 d0 b0 c0 d0 c0 d0
  · rw [product_zero (by simpa using zero)]
    exact zero_has
  · exact ⟨p.mul_below_of_nonneg a0 ax c0 cy,
      p.mul_above_of_nonneg (le_trans a0 ab) xb (le_trans c0 cd) yd (.inl (above a0 ax))⟩
  · exact ⟨p.mul_below_of_mixed (le_trans a0 ab) xb (le_of_not_ge c0) cy (.inl (above a0 ax)),
      p.mul_above_of_mixed a0 ax d0 yd⟩
  · have b0 := le_trans a0 ab
    exact ⟨p.mul_below_of_mixed b0 xb (le_of_not_ge c0) cy (.inl (above a0 ax)),
      p.mul_above_of_nonneg b0 xb (le_of_not_ge d0) yd (.inl (above a0 ax))⟩
  · exact ⟨p.mul_below_of_mixed' (le_of_not_ge a0) ax (le_trans c0 cd) yd (.inl (below b0 xb)),
      p.mul_above_of_mixed' b0 xb c0 cy⟩
  · exact ⟨p.mul_below_of_nonpos b0 xb d0 yd,
      p.mul_above_of_nonpos (le_of_not_ge a0) ax (le_of_not_ge c0) cy (.inl (below b0 xb))⟩
  · have a0 := le_of_not_ge a0
    exact ⟨p.mul_below_of_mixed' a0 ax (le_of_not_ge d0) yd (.inl (below b0 xb)),
      p.mul_above_of_nonpos a0 ax (le_of_not_ge c0) cy (.inl (below b0 xb))⟩
  · have d0 := le_trans c0 cd
    exact ⟨p.mul_below_of_mixed' (le_of_not_ge a0) ax d0 yd (.inr (above c0 cy)),
      p.mul_above_of_nonneg (le_of_not_ge b0) xb d0 yd (.inr (above c0 cy))⟩
  · have c0 := le_of_not_ge c0
    exact ⟨p.mul_below_of_mixed (le_of_not_ge b0) xb c0 cy (.inr (below d0 yd)),
      p.mul_above_of_nonpos (le_of_not_ge a0) ax c0 cy (.inr (below d0 yd))⟩
  · -- Zero lies inside both: the sign of `x` tells which of the two candidates encloses.
    have a0 := le_of_not_ge a0
    have b0 := le_of_not_ge b0
    have c0 := le_of_not_ge c0
    have d0 := le_of_not_ge d0
    rcases le_total 0 x with x0 | x0
    · exact ⟨(p.mul_below_of_mixed b0 xb c0 cy (.inl x0)).anti (min_le_right _ _),
        (p.mul_above_of_nonneg b0 xb d0 yd (.inl x0)).mono (le_max_right _ _)⟩
    · exact ⟨(p.mul_below_of_mixed' a0 ax d0 yd (.inl x0)).anti (min_le_left _ _),
        (p.mul_above_of_nonpos a0 ax c0 cy (.inl x0)).mono (le_max_left _ _)⟩

theorem one_div_has (noZero : J.hasZero = false) (hy : J.Has y) :
    (Interval.mk (p.div .down (.fin 1) J.hi) (p.div .up (.fin 1) J.lo)).Has (1 / y) := by
  have outside : ¬ (J.lo ≤ .fin 0 ∧ .fin 0 ≤ J.hi) := by
    simpa [hasZero, contains] using noZero
  -- A member on one side of zero forces the end on that side, and the two ends exclude each other.
  have low_of : y ≤ 0 → J.lo ≤ .fin 0 := fun y0 =>
    Bound.le_of_below_above hy.1 (by simpa using y0)
  have high_of : 0 ≤ y → .fin 0 ≤ J.hi := fun y0 =>
    Bound.le_of_below_above (x := y) (by simpa using y0) hy.2
  constructor
  · exact p.one_div_below hy.2 fun high => not_le.mp fun y0 => outside ⟨low_of y0, high⟩
  · exact p.one_div_above hy.1 fun low => not_le.mp fun y0 => outside ⟨low, high_of y0⟩

theorem div_has (hx : I.Has x) (hy : J.Has y) : (I.div p J).Has (x / y) := by
  have notBottom : ¬ (I.isBottom || J.isBottom) = true := by simp [hx.isBottom, hy.isBottom]
  rw [div, if_neg notBottom]
  split
  · exact top_has
  · rename_i noZero
    rw [div_eq_mul_one_div]
    exact mul_has hx (one_div_has (by simpa using noZero) hy)

end Members

variable {p : Precision} {I J : Interval}

theorem scale_of_pos {c : ℚ} (pos : 0 < c) (ordered : I.lo ≤ I.hi) :
    I.scale p c = ⟨p.mul .down (.fin c) I.lo, p.mul .up (.fin c) I.hi⟩ := by
  simp [scale, isBottom_eq_false_iff.mpr ordered, pos, pos.ne']

theorem scale_of_neg {c : ℚ} (neg : c < 0) (ordered : I.lo ≤ I.hi) :
    I.scale p c = ⟨p.mul .down (.fin (-c)) (-I.hi), p.mul .up (.fin (-c)) (-I.lo)⟩ := by
  rw [← Bound.neg_fin, p.mul_neg_neg, p.mul_neg_neg]
  simp [scale, isBottom_eq_false_iff.mpr ordered, neg.ne, neg.le.not_gt]

theorem scale_zero (ordered : I.lo ≤ I.hi) : I.scale p 0 = zero := by
  simp [scale, isBottom_eq_false_iff.mpr ordered]

theorem scale_ordered (c : ℚ) (ordered : I.lo ≤ I.hi) : (I.scale p c).lo ≤ (I.scale p c).hi := by
  rcases lt_trichotomy c 0 with neg | rfl | pos
  · rw [scale_of_neg neg ordered]
    exact p.mul_fin_down_le_up (neg_pos.mpr neg) (Bound.neg_le_neg_iff.mpr ordered)
  · rw [scale_zero ordered]
    exact le_rfl
  · rw [scale_of_pos pos ordered]
    exact p.mul_fin_down_le_up pos ordered

theorem add_ordered (hI : I.lo ≤ I.hi) (hJ : J.lo ≤ J.hi) : (I.add p J).lo ≤ (I.add p J).hi := by
  simp only [add, isBottom_eq_false_iff.mpr hI, isBottom_eq_false_iff.mpr hJ]
  exact p.add_down_le_add_up hI hJ

theorem sub_ordered (hI : I.lo ≤ I.hi) (hJ : J.lo ≤ J.hi) : (I.sub p J).lo ≤ (I.sub p J).hi := by
  refine add_ordered hI ?_
  simp only [neg, isBottom_eq_false_iff.mpr hJ]
  exact Bound.neg_le_neg_iff.mpr hJ

section Members

variable {K : Type*} [Field K] [LinearOrder K] [IsStrictOrderedRing K] {x : K}

theorem scale_has (c : ℚ) (hx : I.Has x) : (I.scale p c).Has (c * x) := by
  rcases lt_trichotomy c 0 with neg | rfl | pos
  · -- A negative factor is a positive one on the negated interval.
    have flipped : 0 < -c := neg_pos.mpr neg
    have product : (c : K) * x = ((-c : ℚ) : K) * -x := by push_cast; ring
    rw [scale_of_neg neg hx.ordered, product]
    exact ⟨p.mul_fin_below flipped (Bound.neg_below.mpr hx.2),
      p.mul_fin_above flipped (Bound.neg_above.mpr hx.1)⟩
  · rw [scale_zero hx.ordered, Rat.cast_zero, zero_mul]
    exact zero_has
  · rw [scale_of_pos pos hx.ordered]
    exact ⟨p.mul_fin_below pos hx.1, p.mul_fin_above pos hx.2⟩

/-! ### Rounding to integers -/

theorem tighten_has {z : ℤ} (hz : I.Has (z : K)) : I.tighten.Has (z : K) :=
  ⟨Bound.ceil_below_intCast hz.1, Bound.floor_above_intCast hz.2⟩

theorem Has.of_tighten (hx : I.tighten.Has x) : I.Has x :=
  ⟨hx.1.anti (Bound.le_ceil _), hx.2.mono (Bound.floor_le _)⟩

end Members

end Interval

/-! ## Linear combinations -/

namespace Precision

variable (p : Precision)

theorem dot_step_ordered {acc I : Interval} (c : ℚ) (hacc : acc.lo ≤ acc.hi) (hI : I.lo ≤ I.hi) :
    p.add .down acc.lo (I.scale p c).lo ≤ p.add .up acc.hi (I.scale p c).hi :=
  p.add_down_le_add_up hacc (Interval.scale_ordered c hI)

theorem dot_ordered (cs : Vec) {Is : List Interval} (ordered : ∀ I ∈ Is, I.lo ≤ I.hi) :
    (p.dot cs Is).lo ≤ (p.dot cs Is).hi := by
  unfold dot
  generalize start : Interval.zero = acc
  have hacc : acc.lo ≤ acc.hi := start ▸ le_rfl
  clear start
  induction cs generalizing Is acc with
  | nil => exact hacc
  | cons c cs ih =>
    cases Is with
    | nil => exact hacc
    | cons I Is =>
      simp only [List.zip_cons_cons, List.foldl_cons]
      apply ih fun J hJ => ordered J (List.mem_cons_of_mem _ hJ)
      split
      · exact hacc
      · exact p.dot_step_ordered c hacc (ordered I (List.mem_cons_self ..))

variable {K : Type*} [Field K] [LinearOrder K] [IsStrictOrderedRing K]

theorem dot_has {cs : Vec} {Is : List Interval} (fits : cs.length ≤ Is.length) {x : ℕ → K}
    (members : ∀ i, (Is.getD i .top).Has (x i)) : (p.dot cs Is).Has (cs.eval x) := by
  unfold dot
  rw [← zero_add (cs.eval x)]
  have start : Interval.zero.Has (0 : K) := Interval.zero_has
  -- The accumulator holds the sum of the terms so far.
  generalize Interval.zero = acc at start ⊢
  generalize (0 : K) = sum at start ⊢
  induction cs generalizing Is x acc sum with
  | nil => simpa using start
  | cons c cs ih =>
    cases Is with
    | nil => simp at fits
    | cons I Is =>
      have head : I.Has (x 0) := by simpa using members 0
      have tail : ∀ i, (Is.getD i .top).Has (x (i + 1)) := fun i => by simpa using members (i + 1)
      simp only [List.zip_cons_cons, List.foldl_cons, Vec.eval_cons, ← add_assoc]
      refine ih (by simpa using fits) tail _ _ ?_
      split
      · rename_i zero
        simpa [zero] using start
      · have term := Interval.scale_has (p := p) c head
        exact ⟨p.add_below start.1 term.1, p.add_above start.2 term.2⟩

end Precision

end SkewBox
