import SkewBox.Proofs.Support

/-!
# Products without rounding

The ends of a product of intervals are products of ends.  Members come as close to an end as one
likes, so their products come as close to the ends of the product, and a number between two products
of members is itself one: move one factor after the other.  Products and reciprocals that are not
rounded therefore hold no more than the products and reciprocals of members.

* `Interval.Approaches`: members come as close to a bound as one likes.
* `Interval.mul_has_iff`, `recip_has`, `one_div_has_iff`: products and reciprocals.
-/

namespace SkewBox.Interval

variable {K : Type*} [Field K] [LinearOrder K] [IsStrictOrderedRing K]
variable {I J : Interval} {a b : Bound} {x x' y y' z : K}

/-! ## Members near an end -/

variable (K) in
/-- A finite bound is a member, and members pass any number on the way to an infinite one. -/
def Approaches (I : Interval) : Bound → Prop
  | .negInf => ∀ t : K, ∃ x, I.Has x ∧ x ≤ t
  | .fin q => I.Has (q : K)
  | .posInf => ∀ t : K, ∃ x, I.Has x ∧ t ≤ x

theorem neg_neg' (ordered : I.lo ≤ I.hi) : I.neg.neg = I := by
  have mirrored : -I.hi ≤ -I.lo := Bound.neg_le_neg_iff.mpr ordered
  have flipped : I.neg = ⟨-I.hi, -I.lo⟩ := by
    rw [neg, isBottom_eq_false_iff.mpr ordered]
    rfl
  rw [flipped, neg, isBottom_eq_false_iff.mpr mirrored]
  simp

theorem Approaches.neg (h : I.Approaches K a) : I.neg.Approaches K (-a) := by
  cases a with
  | negInf =>
    intro t
    obtain ⟨x, hx, le⟩ := h (-t)
    exact ⟨-x, neg_has hx, le_neg.mp le⟩
  | fin q =>
    show I.neg.Has ((-q : ℚ) : K)
    rw [Rat.cast_neg]
    exact neg_has h
  | posInf =>
    intro t
    obtain ⟨x, hx, le⟩ := h (-t)
    exact ⟨-x, neg_has hx, neg_le.mp le⟩

theorem Filled.approaches_lo (filled : I.Filled) : I.Approaches K I.lo := by
  obtain ⟨y, low, high⟩ := filled.exists_has (K := K)
  obtain ⟨lo, hi⟩ := I
  cases lo with
  | negInf => exact fun t => ⟨min y t, ⟨trivial, high.trans_ge (min_le_left y t)⟩, min_le_right y t⟩
  | fin q => exact ⟨le_rfl, high.trans_ge low⟩
  | posInf => exact low.elim

theorem Filled.approaches_hi (filled : I.Filled) : I.Approaches K I.hi := by
  have lower : I.neg.lo = -I.hi := by
    rw [Interval.neg, isBottom_eq_false_iff.mpr filled.ordered]
    rfl
  have mirrored := (filled.neg.approaches_lo (K := K)).neg
  rwa [neg_neg' filled.ordered, lower, Bound.neg_neg'] at mirrored

theorem Approaches.exists_pos (h : I.Approaches K a) (pos : .fin 0 < a) : ∃ x : K, I.Has x ∧ 0 < x := by
  cases a with
  | negInf => exact absurd pos (by decide)
  | fin q =>
    have positive : 0 < q := not_le.mp fun nonpos => absurd (Bound.fin_le_fin.mpr nonpos) pos.not_ge
    exact ⟨q, h, Rat.cast_pos.mpr positive⟩
  | posInf =>
    obtain ⟨x, hx, le⟩ := h 1
    exact ⟨x, hx, lt_of_lt_of_le one_pos le⟩

theorem Approaches.eq_zero (h : I.Approaches K a) (zero : ∀ x : K, I.Has x → x = 0) : a = .fin 0 := by
  cases a with
  | negInf =>
    obtain ⟨x, hx, le⟩ := h (-1)
    linarith [zero x hx]
  | fin q =>
    rw [Rat.cast_eq_zero.mp (zero q h)]
  | posInf =>
    obtain ⟨x, hx, le⟩ := h 1
    linarith [zero x hx]

theorem Filled.isZero_of_forall (filled : I.Filled) (zero : ∀ x : K, I.Has x → x = 0) : I.isZero := by
  simp [isZero, filled.approaches_lo.eq_zero zero, filled.approaches_hi.eq_zero zero]

/-! ## Products near a product of ends -/

theorem Approaches.exists_mul_le_of_negInf (hI : I.Approaches K .negInf) (hJ : J.Approaches K b)
    (pos : .fin 0 < b) (z : K) : ∃ x y, I.Has x ∧ J.Has y ∧ x * y ≤ z := by
  obtain ⟨y, hy, positive⟩ := hJ.exists_pos pos
  obtain ⟨x, hx, le⟩ := hI (z / y)
  exact ⟨x, y, hx, hy, (le_div_iff₀ positive).mp le⟩

theorem Approaches.exists_mul_le_of_infinite (hI : I.Approaches K a) (hJ : J.Approaches K b)
    (infinite : a.isFinite = false) (nonzero : b ≠ .fin 0)
    (h : (Precision.exact.mul .down a b).Below z) : ∃ x y, I.Has x ∧ J.Has y ∧ x * y ≤ z := by
  rw [Precision.mul_of_infinite _ _ (by simp [infinite]), Precision.infinityOf] at h
  cases a with
  | negInf =>
    -- A positive infinity is below nothing, so the other end is positive.
    have positive : .fin 0 < b := by
      by_contra nonpos
      have side := Bound.sign_nonneg (Bound.le_neg.mp (by simpa using nonpos) : .fin 0 ≤ -b)
      have apart : b.sign ≠ 0 := fun zero => nonzero (Bound.sign_eq_zero.mp zero)
      rw [Bound.sign_neg] at side
      have product : 0 < Bound.negInf.sign * b.sign := by
        show 0 < -1 * b.sign
        omega
      simp [product, product.ne'] at h
    exact hI.exists_mul_le_of_negInf hJ positive z
  | fin q => simp [Bound.isFinite] at infinite
  | posInf =>
    have negative : .fin 0 < -b := by
      by_contra nonneg
      have side := Bound.sign_nonneg (by simpa using Bound.neg_le.mp (not_lt.mp nonneg) : .fin 0 ≤ b)
      have apart : b.sign ≠ 0 := fun zero => nonzero (Bound.sign_eq_zero.mp zero)
      have product : 0 < Bound.posInf.sign * b.sign := by
        show 0 < 1 * b.sign
        omega
      simp [product, product.ne'] at h
    -- Negating both factors leads back to the first case.
    obtain ⟨x, y, hx, hy, le⟩ := hI.neg.exists_mul_le_of_negInf hJ.neg negative z
    exact ⟨-x, -y, neg_has_iff.mp hx, neg_has_iff.mp hy, by rwa [neg_mul_neg]⟩

theorem Approaches.exists_mul_le (hI : I.Approaches K a) (hJ : J.Approaches K b)
    (apart : a.isFinite ∧ b.isFinite ∨ a ≠ .fin 0 ∧ b ≠ .fin 0)
    (h : (Precision.exact.mul .down a b).Below z) : ∃ x y, I.Has x ∧ J.Has y ∧ x * y ≤ z := by
  by_cases infinite : a.isFinite = false
  · exact hI.exists_mul_le_of_infinite hJ infinite (apart.elim (by simp [infinite]) And.right) h
  by_cases infinite' : b.isFinite = false
  · rw [Precision.mul_comm'] at h
    obtain ⟨y, x, hy, hx, le⟩ :=
      hJ.exists_mul_le_of_infinite hI infinite' (apart.elim (by simp [infinite']) And.left) h
    exact ⟨x, y, hx, hy, by rwa [mul_comm]⟩
  cases a <;> cases b <;> simp [Bound.isFinite] at infinite infinite'
  rename_i q r
  have product : ((q * r : ℚ) : K) ≤ z := h
  exact ⟨q, r, hI, hJ, by rwa [Rat.cast_mul] at product⟩

theorem Approaches.exists_le_mul (hI : I.Approaches K a) (hJ : J.Approaches K b)
    (apart : a.isFinite ∧ b.isFinite ∨ a ≠ .fin 0 ∧ b ≠ .fin 0)
    (h : (Precision.exact.mul .up a b).Above z) : ∃ x y, I.Has x ∧ J.Has y ∧ z ≤ x * y := by
  rw [Precision.mul_up_eq, ← neg_neg z, Bound.neg_above] at h
  have apart' : a.isFinite ∧ (-b).isFinite ∨ a ≠ .fin 0 ∧ -b ≠ .fin 0 := by
    cases b <;> simpa [Bound.isFinite] using apart
  obtain ⟨x, y, hx, hy, le⟩ := hI.exists_mul_le hJ.neg apart' h
  exact ⟨x, -y, hx, neg_has_iff.mp hy, by rw [mul_neg]; exact le_neg.mp le⟩

/-! ## Numbers between two products -/

omit [IsStrictOrderedRing K] in
theorem Has.between (hx : I.Has x) (hy : I.Has y) (xz : x ≤ z) (zy : z ≤ y) : I.Has z :=
  ⟨hx.1.trans_le xz, hy.2.trans_ge zy⟩

theorem exists_mul_eq_of_same (hy : J.Has y) (hy' : J.Has y') (low : x * y ≤ z) (high : z ≤ x * y') :
    ∃ t, J.Has t ∧ x * t = z := by
  rcases lt_trichotomy x 0 with neg | rfl | pos
  · refine ⟨z / x, hy'.between hy ?_ ?_, mul_div_cancel₀ z neg.ne⟩
    · rwa [le_div_iff_of_neg neg, mul_comm]
    · rwa [div_le_iff_of_neg neg, mul_comm]
  · exact ⟨y, hy, by linarith⟩
  · refine ⟨z / x, hy.between hy' ?_ ?_, mul_div_cancel₀ z pos.ne'⟩
    · rwa [le_div_iff₀ pos, mul_comm]
    · rwa [div_le_iff₀ pos, mul_comm]

theorem exists_mul_eq (hx : I.Has x) (hy : J.Has y) (hx' : I.Has x') (hy' : J.Has y')
    (low : x * y ≤ z) (high : z ≤ x' * y') : ∃ s t, I.Has s ∧ J.Has t ∧ s * t = z := by
  cases le_total z (x * y') with
  | inl le =>
    obtain ⟨t, ht, eq⟩ := exists_mul_eq_of_same hy hy' low le
    exact ⟨x, t, hx, ht, eq⟩
  | inr ge =>
    rw [mul_comm] at ge high
    obtain ⟨s, hs, eq⟩ := exists_mul_eq_of_same hx hx' ge high
    exact ⟨s, y', hs, hy', by rwa [mul_comm]⟩

/-! ## Products and reciprocals -/

theorem Filled.lo_isFinite (filled : I.Filled) (h : .fin 0 ≤ I.lo) : I.lo.isFinite := by
  obtain ⟨-, low, -⟩ := filled_iff.mp filled
  cases eq : I.lo with
  | negInf => simp [eq] at h
  | fin q => rfl
  | posInf => exact absurd eq low

theorem Filled.hi_isFinite (filled : I.Filled) (h : I.hi ≤ .fin 0) : I.hi.isFinite := by
  obtain ⟨-, -, high⟩ := filled_iff.mp filled
  cases eq : I.hi with
  | negInf => exact absurd eq high
  | fin q => rfl
  | posInf => simp [eq] at h

theorem lo_ne_zero (h : ¬ .fin 0 ≤ I.lo) : I.lo ≠ .fin 0 := fun zero => h zero.ge

theorem hi_ne_zero (h : ¬ I.hi ≤ .fin 0) : I.hi ≠ .fin 0 := fun zero => h zero.le

theorem hi_ne_zero_of_nonneg (ordered : I.lo ≤ I.hi) (nonzero : ¬ I.isZero) (h : .fin 0 ≤ I.lo) :
    I.hi ≠ .fin 0 := by
  intro zero
  have lower : I.lo = .fin 0 := le_antisymm (zero ▸ ordered) h
  exact nonzero (by simp [isZero, lower, zero])

/-- Members whose products enclose a number between the ends of the product. -/
theorem exists_mul_around (hI : I.Filled) (hJ : J.Filled) (zI : ¬ I.isZero) (zJ : ¬ J.isZero)
    (h : (I.mul .exact J).Has z) :
    (∃ x y, I.Has x ∧ J.Has y ∧ x * y ≤ z) ∧ ∃ x y, I.Has x ∧ J.Has y ∧ z ≤ x * y := by
  have ab : I.lo ≤ I.hi := hI.ordered
  have cd : J.lo ≤ J.hi := hJ.ordered
  have a := hI.approaches_lo (K := K)
  have b := hI.approaches_hi (K := K)
  have c := hJ.approaches_lo (K := K)
  have d := hJ.approaches_hi (K := K)
  simp only [mul, isBottom_eq_false_iff.mpr ab, isBottom_eq_false_iff.mpr cd, zI, zJ, Bool.or_self,
    Bool.false_eq_true, if_false] at h
  -- One case for each position of the two operands around zero: no end that is zero meets an
  -- infinite one.
  split_ifs at h with a0 c0 d0 b0 c0 d0 c0 d0
  · exact ⟨a.exists_mul_le c (.inl ⟨hI.lo_isFinite a0, hJ.lo_isFinite c0⟩) h.1,
      b.exists_le_mul d (.inr ⟨hi_ne_zero_of_nonneg ab zI a0, hi_ne_zero_of_nonneg cd zJ c0⟩) h.2⟩
  · exact ⟨b.exists_mul_le c (.inr ⟨hi_ne_zero_of_nonneg ab zI a0, lo_ne_zero c0⟩) h.1,
      a.exists_le_mul d (.inl ⟨hI.lo_isFinite a0, hJ.hi_isFinite d0⟩) h.2⟩
  · have b0 := hi_ne_zero_of_nonneg ab zI a0
    exact ⟨b.exists_mul_le c (.inr ⟨b0, lo_ne_zero c0⟩) h.1,
      b.exists_le_mul d (.inr ⟨b0, hi_ne_zero d0⟩) h.2⟩
  · exact ⟨a.exists_mul_le d (.inr ⟨lo_ne_zero a0, hi_ne_zero_of_nonneg cd zJ c0⟩) h.1,
      b.exists_le_mul c (.inl ⟨hI.hi_isFinite b0, hJ.lo_isFinite c0⟩) h.2⟩
  · exact ⟨b.exists_mul_le d (.inl ⟨hI.hi_isFinite b0, hJ.hi_isFinite d0⟩) h.1,
      a.exists_le_mul c (.inr ⟨lo_ne_zero a0, lo_ne_zero c0⟩) h.2⟩
  · exact ⟨a.exists_mul_le d (.inr ⟨lo_ne_zero a0, hi_ne_zero d0⟩) h.1,
      a.exists_le_mul c (.inr ⟨lo_ne_zero a0, lo_ne_zero c0⟩) h.2⟩
  · have d0 := hi_ne_zero_of_nonneg cd zJ c0
    exact ⟨a.exists_mul_le d (.inr ⟨lo_ne_zero a0, d0⟩) h.1,
      b.exists_le_mul d (.inr ⟨hi_ne_zero b0, d0⟩) h.2⟩
  · exact ⟨b.exists_mul_le c (.inr ⟨hi_ne_zero b0, lo_ne_zero c0⟩) h.1,
      a.exists_le_mul c (.inr ⟨lo_ne_zero a0, lo_ne_zero c0⟩) h.2⟩
  · -- Zero lies inside both, and each end of the product is one of two candidates.
    have a0 := lo_ne_zero a0
    have b0 := hi_ne_zero b0
    have c0 := lo_ne_zero c0
    have d0 := hi_ne_zero d0
    obtain ⟨low, high⟩ := h
    constructor
    · cases min_choice (Precision.exact.mul .down I.lo J.hi) (Precision.exact.mul .down I.hi J.lo) with
      | inl first => exact a.exists_mul_le d (.inr ⟨a0, d0⟩) (first ▸ low)
      | inr second => exact b.exists_mul_le c (.inr ⟨b0, c0⟩) (second ▸ low)
    · cases max_choice (Precision.exact.mul .up I.lo J.lo) (Precision.exact.mul .up I.hi J.hi) with
      | inl first => exact a.exists_le_mul c (.inr ⟨a0, c0⟩) (first ▸ high)
      | inr second => exact b.exists_le_mul d (.inr ⟨b0, d0⟩) (second ▸ high)

theorem mul_has_iff (hI : I.Filled) (hJ : J.Filled) :
    (I.mul .exact J).Has z ↔ ∃ x y, I.Has x ∧ J.Has y ∧ z = x * y := by
  constructor
  · intro h
    by_cases zero : I.isZero ∨ J.isZero
    · obtain ⟨x, hx⟩ := hI.exists_has (K := K)
      obtain ⟨y, hy⟩ := hJ.exists_has (K := K)
      have product : x * y = 0 := by
        cases zero with
        | inl zero => rw [hx.eq_zero zero, zero_mul]
        | inr zero => rw [hy.eq_zero zero, mul_zero]
      have collapsed : I.mul .exact J = Interval.zero := by
        simp [mul, isBottom_eq_false_iff.mpr hI.ordered, isBottom_eq_false_iff.mpr hJ.ordered, zero]
      rw [collapsed] at h
      exact ⟨x, y, hx, hy, by rw [product, h.eq_zero rfl]⟩
    · obtain ⟨zI, zJ⟩ := not_or.mp zero
      obtain ⟨⟨x, y, hx, hy, low⟩, x', y', hx', hy', high⟩ := exists_mul_around hI hJ zI zJ h
      obtain ⟨s, t, hs, ht, eq⟩ := exists_mul_eq hx hy hx' hy' low high
      exact ⟨s, t, hs, ht, eq.symm⟩
  · rintro ⟨x, y, hx, hy, rfl⟩
    exact mul_has hx hy

theorem Filled.mul (hI : I.Filled) (hJ : J.Filled) : (I.mul .exact J).Filled := by
  obtain ⟨q, hq⟩ := hI
  obtain ⟨r, hr⟩ := hJ
  exact ⟨q * r, mul_has hq hr⟩

/-- The reciprocals between the reciprocals of two finite ends on one side of zero. -/
theorem has_one_div_of_recip {l h : ℚ} (ordered : l ≤ h) (apart : 0 < l ∨ h < 0)
    (low : 1 / (h : K) ≤ z) (high : z ≤ 1 / (l : K)) : (mk (.fin l) (.fin h)).Has (1 / z) := by
  cases apart with
  | inl pos =>
    have l0 : (0 : K) < l := Rat.cast_pos.mpr pos
    have h0 : (0 : K) < h := Rat.cast_pos.mpr (pos.trans_le ordered)
    have z0 : 0 < z := (one_div_pos.mpr h0).trans_le low
    exact ⟨(le_one_div l0 z0).mpr high, (one_div_le z0 h0).mpr low⟩
  | inr neg =>
    have h0 : (h : K) < 0 := Rat.cast_lt_zero.mpr neg
    have l0 : (l : K) < 0 := Rat.cast_lt_zero.mpr (ordered.trans_lt neg)
    have z0 : z < 0 := high.trans_lt (one_div_neg.mpr l0)
    exact ⟨(le_one_div_of_neg l0 z0).mpr high, (one_div_le_of_neg z0 h0).mpr low⟩

/-- The interval of reciprocals that are not rounded. -/
def recip (J : Interval) : Interval :=
  ⟨Precision.exact.div .down (.fin 1) J.hi, Precision.exact.div .up (.fin 1) J.lo⟩

theorem div_eq_mul_recip (hI : I.Filled) (hJ : J.Filled) (noZero : J.hasZero = false) :
    I.div .exact J = I.mul .exact J.recip := by
  simp [div, recip, isBottom_eq_false_iff.mpr hI.ordered, isBottom_eq_false_iff.mpr hJ.ordered, noZero]

theorem Filled.recip (filled : J.Filled) (noZero : J.hasZero = false) : J.recip.Filled := by
  obtain ⟨q, hq⟩ := filled
  exact ⟨1 / q, one_div_has noZero hq⟩

/-- A member of the interval of reciprocals is a reciprocal, or zero at the end that stands for an infinite
one. -/
theorem recip_has (filled : J.Filled) (noZero : J.hasZero = false) (h : J.recip.Has z) :
    J.Has (1 / z) ∨ z = 0 ∧ J.isBounded = false := by
  obtain ⟨ordered, low, high⟩ := filled_iff.mp filled
  obtain ⟨lo, hi⟩ := J
  by_cases zero : z = 0 ∧ (mk lo hi).isBounded = false
  · exact .inr zero
  left
  cases lo with
  | posInf => exact absurd rfl low
  | negInf =>
    have nonzero : z ≠ 0 := fun eq => zero ⟨eq, rfl⟩
    cases hi with
    | negInf => exact absurd rfl high
    | posInf => simp [hasZero, contains] at noZero
    | fin q =>
      -- The reciprocals lie from that of the end up to zero.
      have neg : q < 0 := by simpa [hasZero, contains] using noZero
      have q0 : (q : K) < 0 := Rat.cast_lt_zero.mpr neg
      have between : 1 / (q : K) ≤ z ∧ z ≤ 0 := by
        simpa [recip, Has, Precision.div, Precision.roundRat, neg.ne] using h
      have z0 : z < 0 := lt_of_le_of_ne between.2 nonzero
      exact ⟨trivial, (one_div_le_of_neg z0 q0).mpr between.1⟩
  | fin l =>
    cases hi with
    | negInf => exact absurd rfl high
    | posInf =>
      have nonzero : z ≠ 0 := fun eq => zero ⟨eq, rfl⟩
      have pos : 0 < l := by simpa [hasZero, contains] using noZero
      have l0 : (0 : K) < l := Rat.cast_pos.mpr pos
      have between : 0 ≤ z ∧ z ≤ 1 / (l : K) := by
        simpa [recip, Has, Precision.div, Precision.roundRat, pos.ne'] using h
      have z0 : 0 < z := lt_of_le_of_ne between.1 nonzero.symm
      exact ⟨(le_one_div l0 z0).mpr between.2, trivial⟩
    | fin q =>
      have ordered : l ≤ q := Bound.fin_le_fin.mp ordered
      have apart : 0 < l ∨ q < 0 := by
        simpa [hasZero, contains, imp_iff_not_or, not_le] using noZero
      have ends : q ≠ 0 ∧ l ≠ 0 := by
        cases apart with
        | inl pos => exact ⟨(pos.trans_le ordered).ne', pos.ne'⟩
        | inr neg => exact ⟨neg.ne, (ordered.trans_lt neg).ne⟩
      have between : 1 / (q : K) ≤ z ∧ z ≤ 1 / (l : K) := by
        simpa [recip, Has, Precision.div, Precision.roundRat, ends.1, ends.2] using h
      exact has_one_div_of_recip ordered apart between.1 between.2

/-- Reciprocals that are not rounded.  An infinite end would have the reciprocal `0`, which no member
has. -/
theorem one_div_has_iff (filled : J.Filled) (bounded : J.isBounded) (noZero : J.hasZero = false) :
    ((point 1).div .exact J).Has z ↔ ∃ y, J.Has y ∧ z = 1 / y := by
  have unit : (point 1).Filled := ⟨1, point_has.mpr (by simp)⟩
  constructor
  · intro has
    rw [div_eq_mul_recip unit filled noZero, mul_has_iff unit (filled.recip noZero)] at has
    obtain ⟨one, w, hone, hw, rfl⟩ := has
    rw [point_has.mp hone, Rat.cast_one, one_mul]
    cases recip_has filled noZero hw with
    | inl member => exact ⟨1 / w, member, by rw [one_div_one_div]⟩
    | inr zero => exact absurd zero.2 (by simp [bounded])
  · rintro ⟨y, hy, rfl⟩
    exact div_has (point_has.mpr (by simp)) hy

theorem Filled.one_div (filled : J.Filled) : ((point 1).div .exact J).Filled := by
  obtain ⟨q, hq⟩ := filled
  exact ⟨1 / q, div_has (point_has.mpr (by simp)) hq⟩

end SkewBox.Interval
