import Mathlib.Analysis.Real.Sqrt
import SkewBox.Proofs.Functions
import SkewBox.Proofs.Rounding

/-!
# Square roots on the grid

The root of a rational starts from the nearest number of the grid, whose root is rounded to nearest, too.
For a rational that is rounded to zero both errors are unbounded, yet the loops that correct the start
by single steps end: downward at zero at the latest, upward before the last finite number.

* `Loop`: a loop that ends.
* `Interval.square_roots_enclosed`: roots of rationals and of intervals.
-/

namespace SkewBox

namespace Binary64

/-! ## The rounded root -/

theorem sqrt_floor_spec {x : ℚ} (h : 0 ≤ x) :
    (⌊x⌋₊.sqrt * ⌊x⌋₊.sqrt : ℚ) ≤ x ∧ x < (⌊x⌋₊.sqrt + 1) * (⌊x⌋₊.sqrt + 1) := by
  have root : (⌊x⌋₊.sqrt * ⌊x⌋₊.sqrt : ℚ) ≤ ⌊x⌋₊ := by exact_mod_cast Nat.sqrt_le ⌊x⌋₊
  have next : (⌊x⌋₊ + 1 : ℚ) ≤ (⌊x⌋₊.sqrt + 1) * (⌊x⌋₊.sqrt + 1) := by
    exact_mod_cast Nat.succ_le_of_lt (Nat.lt_succ_sqrt ⌊x⌋₊)
  exact ⟨root.trans (Nat.floor_le h), (Nat.lt_floor_add_one x).trans_le next⟩

/-- A number of 105 or 106 bits has a root of 53 bits. -/
theorem sqrt_floor_bits {x : ℚ} (low : 2 ^ (104 : ℤ) ≤ x) (high : x < 2 ^ (106 : ℤ)) :
    pow2 52 ≤ ⌊x⌋₊.sqrt ∧ ⌊x⌋₊.sqrt < 2 * pow2 52 := by
  have power : ((pow2 52 : ℕ) : ℚ) = 2 ^ (52 : ℤ) := pow2_cast 52
  constructor
  · apply Nat.le_sqrt.mpr
    apply Nat.le_floor
    rw [Nat.cast_mul, power, ← zpow_add₀ two_ne_zero]
    exact low
  · apply Nat.sqrt_lt.mpr
    apply (Nat.floor_lt (le_trans (by positivity) low)).mpr
    push_cast
    rw [power]
    exact high.trans_eq (by norm_num)

theorem floorIndexSqrt_spec {n d : ℕ} (hd : d ≠ 0) (least : n ≠ 0 → (2 : ℚ) ^ (-1074 : ℤ) ≤ n / d) :
    value (floorIndexSqrt n d) * value (floorIndexSqrt n d) ≤ n / d ∧
      (n / d : ℚ) < value (floorIndexSqrt n d + 1) * value (floorIndexSqrt n d + 1) := by
  unfold floorIndexSqrt
  by_cases hn : n = 0
  · have positive : 0 < value 1 := value_zero ▸ value_strictMono Nat.zero_lt_one
    simp only [hn, if_true, Nat.cast_zero, zero_div, value_zero, zero_mul, le_refl, true_and]
    exact mul_pos positive positive
  obtain ⟨low, high⟩ := exponentOf_spec hn hd
  have one_lt : (1 : ℚ) < 2 := by norm_num
  have two : (2 : ℚ) ≠ 0 := by norm_num
  have lowest := (zpow_lt_zpow_iff_right₀ one_lt).mp ((least hn).trans_lt high)
  simp only [hn, if_false]
  rw [scaledFloor_eq, Int.fdiv_eq_ediv_of_nonneg _ (by norm_num)]
  generalize exponentOf n d = e at low high lowest
  generalize (n / d : ℚ) = q at low high
  generalize hscale : e / 2 - 52 = scale
  -- In units of the square of the root's unit the quotient has 105 or 106 bits.
  have wide : (2 : ℚ) ^ (104 : ℤ) ≤ q * 2 ^ (-2 * scale) := by
    calc (2 : ℚ) ^ (104 : ℤ) ≤ 2 ^ (e + -2 * scale) := by gcongr <;> [norm_num; omega]
      _ = 2 ^ e * 2 ^ (-2 * scale) := zpow_add₀ two _ _
      _ ≤ q * 2 ^ (-2 * scale) := by gcongr
  have narrow : q * 2 ^ (-2 * scale) < 2 ^ (106 : ℤ) := by
    calc q * 2 ^ (-2 * scale) < 2 ^ (e + 1) * 2 ^ (-2 * scale) := by gcongr
      _ = 2 ^ (e + 1 + -2 * scale) := (zpow_add₀ two _ _).symm
      _ ≤ 2 ^ (106 : ℤ) := by gcongr <;> [norm_num; omega]
  obtain ⟨normal, small⟩ := sqrt_floor_bits wide narrow
  obtain ⟨here, next⟩ := value_indexOf (by omega : -1074 ≤ scale) small (.inl normal)
  obtain ⟨root, above⟩ := sqrt_floor_spec (le_trans (by positivity) wide)
  have unscale : q * 2 ^ (-2 * scale) * (2 ^ scale * 2 ^ scale) = q := by
    rw [mul_assoc, ← zpow_add₀ two, ← zpow_add₀ two, neg_mul, two_mul, neg_add_cancel, zpow_zero, mul_one]
  have unit : (0 : ℚ) < 2 ^ scale * 2 ^ scale := by positivity
  rw [here, next, mul_mul_mul_comm, mul_mul_mul_comm (_ + 1)]
  constructor
  · exact (mul_le_mul_of_nonneg_right root unit.le).trans_eq unscale
  · exact unscale.symm.trans_lt (mul_lt_mul_of_pos_right above unit)

theorem value_one : value 1 = 2 ^ (-1074 : ℤ) := by
  rw [value_succ 0]
  norm_num [significand, unitExponent]

theorem floorIndexSqrt_value (i : ℕ) :
    let k := floorIndexSqrt (value i).num.toNat (value i).den
    value k * value k ≤ value i ∧ value i < value (k + 1) * value (k + 1) := by
  have quotient := num_div_den_of_nonneg (value_nonneg i)
  have least : (value i).num.toNat ≠ 0 →
      (2 : ℚ) ^ (-1074 : ℤ) ≤ (value i).num.toNat / (value i).den := by
    intro nonzero
    rw [quotient, ← value_one]
    -- Any number but zero is at least the first one.
    apply value_strictMono.monotone
    apply Nat.one_le_iff_ne_zero.mpr
    rintro rfl
    exact nonzero (by rw [value_zero]; rfl)
  have spec := floorIndexSqrt_spec (value i).den_nz least
  rwa [quotient] at spec

theorem cast_le_sqrt_iff {r v : ℚ} (hr : 0 ≤ r) (hv : 0 ≤ v) : (r : ℝ) ≤ √v ↔ r * r ≤ v := by
  rw [Real.le_sqrt (Rat.cast_nonneg.mpr hr) (Rat.cast_nonneg.mpr hv), sq, ← Rat.cast_mul, Rat.cast_le]

theorem sqrt_le_cast_iff {r v : ℚ} (hr : 0 ≤ r) : √(v : ℝ) ≤ r ↔ v ≤ r * r := by
  rw [Real.sqrt_le_left (Rat.cast_nonneg.mpr hr), sq, ← Rat.cast_mul, Rat.cast_le]

theorem nearestSqrt_isNearest (i : ℕ) : IsNearest √(value i : ℝ) (nearestSqrt i) := by
  obtain ⟨low, high⟩ := floorIndexSqrt_value i
  unfold nearestSqrt
  dsimp only
  generalize floorIndexSqrt (value i).num.toNat (value i).den = k at low high
  have nonneg : 0 ≤ value i := value_nonneg i
  have here : 0 ≤ value k := value_nonneg k
  have next : 0 ≤ value (k + 1) := value_nonneg (k + 1)
  -- The square is compared with the square of the middle.
  have middle : (value k + value (k + 1) : ℝ) = 2 * (((value k + value (k + 1)) / 2 : ℚ) : ℝ) := by
    push_cast
    ring
  have middle_nonneg : 0 ≤ (value k + value (k + 1)) / 2 := by linarith
  generalize (value k + value (k + 1)) / 2 = m at middle middle_nonneg
  apply isNearest_pickNearest
  · exact (cast_le_sqrt_iff here nonneg).mpr low
  · exact lt_of_not_ge fun le => absurd ((cast_le_sqrt_iff next nonneg).mp le) high.not_ge
  · intro order
    have below : √(value i : ℝ) < m := by
      apply lt_of_not_ge
      intro le
      exact absurd ((cast_le_sqrt_iff middle_nonneg nonneg).mp le) (orderOf_eq_lt.mp order).not_ge
    linarith
  · intro order
    have same := orderOf_eq_eq.mp order
    have root : √(value i : ℝ) = m :=
      le_antisymm ((sqrt_le_cast_iff middle_nonneg).mpr same.le) ((cast_le_sqrt_iff middle_nonneg nonneg).mpr same.ge)
    linarith
  · intro order
    have above : (m : ℝ) < √(value i : ℝ) := by
      apply lt_of_not_ge
      intro le
      exact absurd ((sqrt_le_cast_iff middle_nonneg).mp le) (orderOf_eq_gt.mp order).not_ge
    linarith

theorem nearestSqrt_le {i : ℕ} (finite : i ≤ lastFinite) : nearestSqrt i ≤ lastFinite := by
  obtain ⟨low, -⟩ := floorIndexSqrt_value i
  have less : floorIndexSqrt (value i).num.toNat (value i).den < lastFinite := by
    apply value_strictMono.lt_iff_lt.mp
    -- The last finite number lies below its square.
    have square : value lastFinite < value lastFinite * value lastFinite :=
      (value_strictMono (Nat.lt_succ_self lastFinite)).trans_le value_succ_lastFinite_le
    have bound := low.trans (value_strictMono.monotone finite)
    exact lt_of_mul_self_lt_mul_self₀ (value_nonneg _) (bound.trans_lt square)
  have step : ∀ (k : ℕ) (order : Ordering), pickNearest k order ≤ k + 1 := by
    intro k order
    cases order with
    | lt => exact Nat.le_succ k
    | gt => exact le_rfl
    | eq =>
      unfold pickNearest
      dsimp only
      split_ifs <;> omega
  exact (step _ _).trans less

end Binary64

/-! ## Loops -/

/-- A loop that makes steps while its condition holds: started at `a`, it ends at `b`. -/
inductive Loop {α : Type} (goesOn : α → Prop) (step : α → α) : α → α → Prop where
  | stop {a : α} (stops : ¬ goesOn a) : Loop goesOn step a a
  | next {a b : α} (goes : goesOn a) (rest : Loop goesOn step (step a) b) : Loop goesOn step a b

namespace Binary64

variable {q : ℚ}

/-- The downward loop ends, at zero at the latest. -/
theorem stepDown_loop (k : ℕ) :
    Loop (fun k => 0 < value k ∧ q < value k * value k) (· - 1) k (stepDown q k) := by
  induction k with
  | zero => exact .stop fun goes => goes.1.ne' value_zero
  | succ k ih =>
    unfold stepDown
    split_ifs with found
    · exact .stop fun goes => goes.2.not_ge found
    · have positive : 0 < value (k + 1) := value_zero ▸ value_strictMono (Nat.succ_pos k)
      exact .next ⟨positive, not_le.mp found⟩ ih

theorem stepDown_le (k : ℕ) : stepDown q k ≤ k := by
  induction k with
  | zero => exact le_rfl
  | succ k ih =>
    unfold stepDown
    split_ifs
    · exact le_rfl
    · exact ih.trans (Nat.le_succ k)

/-- The upward loop ends without passing the last finite number, whose square is large enough. -/
theorem stepUp_loop (reachable : q ≤ value lastFinite * value lastFinite) {k : ℕ} (finite : k ≤ lastFinite) :
    Loop (fun k => value k * value k < q) (· + 1) k (stepUp q k) ∧ stepUp q k ≤ lastFinite := by
  fun_induction stepUp q k with
  | case1 k found => exact ⟨.stop found.not_gt, finite⟩
  | case2 k missed below ih =>
    obtain ⟨rest, last⟩ := ih below
    exact ⟨.next (not_le.mp missed) rest, last⟩
  | case3 k missed above =>
    have last : k = lastFinite := le_antisymm finite (not_lt.mp above)
    exact absurd (last ▸ reachable) missed

/-- Both corrections of a first guess of the root of `q` end, at finite numbers around the root. -/
structure Corrected (q : ℚ) (start lo hi : ℕ) : Prop where
  down : Loop (fun k => 0 < value k ∧ q < value k * value k) (· - 1) start lo
  up : Loop (fun k => value k * value k < q) (· + 1) start hi
  representable : Representable (value lo) ∧ Representable (value hi)
  nonneg : 0 ≤ value lo
  below : value lo * value lo ≤ q
  above : q ≤ value hi * value hi

theorem corrected_nearestSqrt (h : 0 ≤ q) {i : ℕ} (nearest : IsNearest q i) (finite : i ≤ lastFinite) :
    Corrected q (nearestSqrt i) (stepDown q (nearestSqrt i)) (stepUp q (nearestSqrt i)) := by
  have start : nearestSqrt i ≤ lastFinite := nearestSqrt_le finite
  have reachable := le_sq_lastFinite_of_nearest? h ((nearest?_eq_some_iff h).mpr ⟨nearest, finite⟩)
  obtain ⟨up, last⟩ := stepUp_loop reachable start
  constructor
  · exact stepDown_loop _
  · exact up
  · exact ⟨representable_value ((stepDown_le _).trans start), representable_value last⟩
  · exact value_nonneg _
  · exact sq_value_stepDown_le h _
  · exact le_sq_value_stepUp reachable _

/-- The rational does not overflow. -/
def NearFinite (q : ℚ) : Prop := ∃ i ≤ lastFinite, IsNearest q i

theorem NearFinite.nearest? (h : 0 ≤ q) (fits : NearFinite q) : ∃ i, nearest? q = some i := by
  obtain ⟨i, finite, nearest⟩ := fits
  exact ⟨i, (nearest?_eq_some_iff h).mpr ⟨nearest, finite⟩⟩

end Binary64

/-! ## Roots of an interval -/

namespace Interval

open Binary64

variable {I : Interval} {b : Bound}

theorem exists_sqrtBelow (positive : ¬ b ≤ .fin 0) (room : b < .posInf)
    (fits : ∀ q > 0, b = .fin q → NearFinite q) : ∃ r, sqrtBelow b = .ok r := by
  cases b with
  | negInf => exact absurd (Bound.negInf_le _) positive
  | posInf => exact absurd room (lt_irrefl _)
  | fin q =>
    have q0 : 0 < q := not_le.mp fun le => positive (Bound.fin_le_fin.mpr le)
    obtain ⟨i, near⟩ := (fits q q0 rfl).nearest? q0.le
    exact ⟨_, by rw [sqrtBelow, sqrtDown?, near, Option.map_some]⟩

theorem exists_sqrtAbove (nonneg : .fin 0 ≤ b) (fits : ∀ q > 0, b = .fin q → NearFinite q) :
    ∃ c, sqrtAbove b = .ok c := by
  cases b with
  | negInf => exact ⟨_, rfl⟩
  | posInf => exact ⟨_, rfl⟩
  | fin q =>
    obtain ⟨i, near⟩ : ∃ i, nearest? q = some i := by
      rcases (Bound.fin_le_fin.mp nonneg).eq_or_lt with rfl | q0
      · exact ⟨0, by decide +kernel⟩
      · exact (fits q q0 rfl).nearest? q0.le
    exact ⟨_, by rw [sqrtAbove, sqrtUp?, near, Option.map_some]⟩

theorem exists_nonneg_has (room : I.lo < .posInf) (ordered : I.lo ≤ I.hi) (nonneg : .fin 0 ≤ I.hi) :
    ∃ v : ℝ, 0 ≤ v ∧ I.Has v := by
  obtain ⟨lo, hi⟩ := I
  rcases le_or_gt lo (.fin 0) with low | positive
  · have zero : (.fin 0 : Bound).Below (0 : ℝ) ∧ (.fin 0 : Bound).Above (0 : ℝ) := by simp
    exact ⟨0, le_rfl, zero.1.anti low, zero.2.mono nonneg⟩
  · cases lo with
    | negInf => exact absurd positive (by decide)
    | posInf => exact absurd room (lt_irrefl _)
    | fin q =>
      have q0 : (0 : ℝ) ≤ q := Rat.cast_nonneg.mpr (Bound.fin_le_fin.mp positive.le)
      have self : (Bound.fin q).Above (q : ℝ) := le_refl (q : ℝ)
      exact ⟨q, q0, le_refl (q : ℝ), self.mono ordered⟩

theorem exists_sqrt (room : I.lo < .posInf) (fits : ∀ q > 0, I.lo = .fin q ∨ I.hi = .fin q → NearFinite q) :
    ∃ J, I.sqrt = .ok J := by
  unfold sqrt
  split_ifs with negative low
  · exact ⟨bottom, rfl⟩
  all_goals
    have nonneg : .fin 0 ≤ I.hi := by simp_all
    obtain ⟨c, above⟩ := exists_sqrtAbove nonneg fun q q0 hi => fits q q0 (.inr hi)
  · exact ⟨_, by rw [above]; rfl⟩
  · obtain ⟨r, below⟩ := exists_sqrtBelow low room fun q q0 lo => fits q q0 (.inl lo)
    exact ⟨_, by rw [below, above]; rfl⟩

theorem sqrt_isBottom_iff {J : Interval} (room : I.lo < .posInf) (h : I.sqrt = .ok J) :
    J.isBottom = true ↔ ∀ v : ℝ, 0 ≤ v → ¬ I.Has v := by
  constructor
  · intro empty v nonneg member
    rw [← Real.mul_self_sqrt nonneg] at member
    exact absurd (sqrt_has h member (Real.sqrt_nonneg v)).isBottom (by simp [empty])
  · intro none
    have negative : (I.isBottom || decide (I.hi < .fin 0)) = true := by
      by_contra reaches
      simp only [Bool.or_eq_true, decide_eq_true_eq, not_or, Bool.not_eq_true, not_lt] at reaches
      obtain ⟨v, nonneg, member⟩ :=
        exists_nonneg_has room (isBottom_eq_false_iff.mp reaches.1) reaches.2
      exact none v nonneg member
    rw [sqrt, if_pos negative] at h
    obtain rfl := Except.ok.inj h
    decide

/-- From the rounded root of a rounded rational, both corrections end at finite numbers around the root of the
rational, however small that is; and an interval of roots holds the root of every member that has one, and is
empty only when there is no such member. -/
theorem square_roots_enclosed :
    (∀ q : ℚ, 0 ≤ q → ∀ i ≤ lastFinite, IsNearest q i → ∃ start lo hi : ℕ,
      IsNearest √(value i : ℝ) start ∧ Corrected q start lo hi ∧
        sqrtDown? q = some (value lo) ∧ sqrtUp? q = some (value hi)) ∧
    ∀ I : Interval, I.lo < .posInf → (∀ q > 0, I.lo = .fin q ∨ I.hi = .fin q → NearFinite q) →
      ∃ J, I.sqrt = .ok J ∧ (∀ v : ℝ, 0 ≤ v → I.Has v → J.Has √v) ∧
        (J.isBottom = true ↔ ∀ v : ℝ, 0 ≤ v → ¬ I.Has v) := by
  constructor
  · intro q q0 i finite nearest
    have near : nearest? q = some i := (nearest?_eq_some_iff q0).mpr ⟨nearest, finite⟩
    refine ⟨nearestSqrt i, _, _, nearestSqrt_isNearest i, corrected_nearestSqrt q0 nearest finite, ?_, ?_⟩
    · rw [sqrtDown?, near, Option.map_some]
    · rw [sqrtUp?, near, Option.map_some]
  · intro I room fits
    obtain ⟨J, h⟩ := exists_sqrt room fits
    refine ⟨J, h, fun v nonneg member => ?_, sqrt_isBottom_iff room h⟩
    rw [← Real.mul_self_sqrt nonneg] at member
    exact sqrt_has h member (Real.sqrt_nonneg v)

/-- A positive rational that is rounded to zero. -/
def underflowing : ℚ := 1 / 2 ^ 1200

/-- It has a positive root, and so has an interval that ends there. -/
theorem square_roots_enclosed_underflowing :
    (IsNearest underflowing 0 ∧ ∃ start lo hi : ℕ, IsNearest √(value 0 : ℝ) start ∧
      Corrected underflowing start lo hi ∧ sqrtDown? underflowing = some (value lo) ∧
        sqrtUp? underflowing = some (value hi)) ∧
    ∃ J, sqrt ⟨.negInf, .fin underflowing⟩ = .ok J ∧
      (∀ v : ℝ, 0 ≤ v → (⟨.negInf, .fin underflowing⟩ : Interval).Has v → J.Has √v) ∧
        (J.isBottom = true ↔ ∀ v : ℝ, 0 ≤ v → ¬ (⟨.negInf, .fin underflowing⟩ : Interval).Has v) := by
  have positive : 0 ≤ underflowing := by decide +kernel
  have near : nearest? underflowing = some 0 := by decide +kernel
  obtain ⟨nearest, finite⟩ := (nearest?_eq_some_iff positive).mp near
  constructor
  · exact ⟨nearest, square_roots_enclosed.1 underflowing positive 0 finite nearest⟩
  · apply square_roots_enclosed.2 ⟨.negInf, .fin underflowing⟩ (by decide)
    intro q q0 ends
    rcases ends with lo | hi
    · contradiction
    · obtain rfl := Bound.fin.inj hi
      exact ⟨0, finite, nearest⟩

end Interval

end SkewBox
