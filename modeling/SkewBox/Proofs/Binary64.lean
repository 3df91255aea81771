import Mathlib.Tactic
import Mathlib.Algebra.Order.Floor.Semifield
import Mathlib.Data.Rat.Floor
import SkewBox.Binary64

/-!
# Laws of the binary64 grid

* `roundDown_le`, `le_roundUp`: directed rounding goes the way it says.
* `sq_le_of_sqrtDown?`, `le_sq_of_sqrtUp?`: the two square roots lie on the sides they name.
-/

namespace SkewBox.Binary64

theorem pow2_pos (k : Nat) : 0 < pow2 k := Nat.two_pow_pos k

theorem pow2_cast (k : Nat) : (pow2 k : ℚ) = 2 ^ (k : Int) := by
  rw [pow2, zpow_natCast]
  exact Nat.cast_pow 2 k

/-! ## Values -/

/-- The significand of number `k`: the hidden bit is there unless the exponent field is zero. -/
def significand (k : Nat) : Nat :=
  if k / pow2 52 = 0 then k % pow2 52 else pow2 52 + k % pow2 52

/-- The exponent of the unit in the last place of number `k`. -/
def unitExponent (k : Nat) : Int := (max (k / pow2 52) 1 : Nat) - 1075

theorem value_eq (k : Nat) : value k = significand k * (2 : ℚ) ^ unitExponent k := by
  unfold value significand unitExponent
  generalize k / pow2 52 = e, k % pow2 52 = f
  by_cases subnormal : e = 0
  · -- Exponent field zero: no hidden bit, and the unit of the smallest normal numbers.
    have exponent : ((max 0 1 : Nat) : Int) - 1075 = -((1074 : Nat) : Int) := by norm_num
    simp only [subnormal, if_true]
    rw [exponent, zpow_neg, Rat.mkRat_eq_div, pow2_cast, div_eq_mul_inv]
    rfl
  · simp only [subnormal, if_false]
    by_cases small : e < 1075
    · have exponent : ((max e 1 : Nat) : Int) - 1075 = -((1075 - e : Nat) : Int) := by omega
      rw [if_pos small, exponent, zpow_neg, Rat.mkRat_eq_div, pow2_cast, div_eq_mul_inv]
      rfl
    · have exponent : ((max e 1 : Nat) : Int) - 1075 = ((e - 1075 : Nat) : Int) := by omega
      rw [if_neg small, exponent, ← pow2_cast]
      push_cast
      rfl

/-- The neighbour above a number is one unit in its last place away, also across a power of two. -/
theorem value_succ (k : Nat) : value (k + 1) = (significand k + 1) * (2 : ℚ) ^ unitExponent k := by
  rw [value_eq]
  unfold significand unitExponent
  have positive := pow2_pos 52
  have split : pow2 52 * (k / pow2 52) + k % pow2 52 = k := Nat.div_add_mod k _
  have bound : k % pow2 52 < pow2 52 := Nat.mod_lt _ positive
  by_cases carry : k % pow2 52 + 1 = pow2 52
  · -- The fraction overflows: the next exponent starts with a zero fraction.
    have next : k + 1 = pow2 52 * (k / pow2 52 + 1) := by rw [mul_add]; omega
    rw [next, Nat.mul_div_cancel_left _ positive, Nat.mul_mod_right]
    have castCarry : ((k % pow2 52 : Nat) : ℚ) + 1 = pow2 52 := by exact_mod_cast carry
    -- The unit doubles with the exponent, except between the subnormal and the first normal numbers.
    by_cases subnormal : k / pow2 52 = 0
    · simp only [subnormal, if_true]
      simp [castCarry]
    · have exponent : ∀ e : Nat, e ≠ 0 →
          ((max (e + 1) 1 : Nat) : Int) - 1075 = ((max e 1 : Nat) - 1075) + 1 := by omega
      simp only [subnormal, Nat.add_one_ne_zero, if_false, exponent _ subnormal, Nat.add_zero]
      rw [zpow_add₀ (by norm_num), Nat.cast_add, add_assoc, castCarry]
      ring
  · -- The exponent field stays and the fraction grows by one.
    have next : k + 1 = pow2 52 * (k / pow2 52) + (k % pow2 52 + 1) := by omega
    have inside : k % pow2 52 + 1 < pow2 52 := by omega
    have quotient : (k + 1) / pow2 52 = k / pow2 52 := by
      rw [next, Nat.mul_add_div positive, Nat.div_eq_of_lt inside, Nat.add_zero]
    have remainder : (k + 1) % pow2 52 = k % pow2 52 + 1 := by
      rw [next, Nat.mul_add_mod, Nat.mod_eq_of_lt inside]
    rw [quotient, remainder]
    split_ifs <;> push_cast <;> ring

theorem value_strictMono : StrictMono value := by
  apply strictMono_nat_of_lt_succ
  intro k
  rw [value_succ, value_eq k]
  have positive : (0 : ℚ) < 2 ^ unitExponent k := by positivity
  linarith

theorem value_zero : value 0 = 0 := by
  rw [value_eq]
  simp [significand]

theorem value_nonneg (k : Nat) : 0 ≤ value k := by
  rw [← value_zero]
  exact value_strictMono.monotone (Nat.zero_le k)

/-! ## Finding an index -/

theorem scaledFloor_eq (n d : Nat) (s : Int) : scaledFloor n d s = ⌊(n / d : ℚ) * 2 ^ s⌋₊ := by
  unfold scaledFloor
  split_ifs with sign
  · obtain ⟨t, rfl⟩ := Int.eq_ofNat_of_zero_le sign
    have numerator : (n / d : ℚ) * 2 ^ (t : Int) = ((n * pow2 t : Nat) : ℚ) / (d : Nat) := by
      rw [Nat.cast_mul, pow2_cast]
      ring
    rw [numerator, Nat.floor_div_eq_div]
    rfl
  · obtain ⟨t, ht⟩ := Int.eq_ofNat_of_zero_le (show 0 ≤ -s by omega)
    have denominator : (n / d : ℚ) * 2 ^ s = ((n : Nat) : ℚ) / ((d * pow2 t : Nat) : ℚ) := by
      rw [Nat.cast_mul, pow2_cast, ← ht, zpow_neg, div_mul_eq_div_div, div_inv_eq_mul]
    rw [denominator, Nat.floor_div_eq_div, ht]
    rfl

theorem exponentOf_spec {n d : Nat} (hn : n ≠ 0) (hd : d ≠ 0) :
    (2 : ℚ) ^ exponentOf n d ≤ n / d ∧ (n / d : ℚ) < 2 ^ (exponentOf n d + 1) := by
  have denominator : (0 : ℚ) < d := by exact_mod_cast Nat.pos_of_ne_zero hd
  have two : (2 : ℚ) ≠ 0 := by norm_num
  have nLow : (2 : ℚ) ^ (n.log2 : Int) ≤ n := by
    rw [zpow_natCast]; exact_mod_cast Nat.log2_self_le hn
  have nHigh : (n : ℚ) < 2 ^ ((n.log2 : Int) + 1) := by
    have := @Nat.lt_log2_self n
    rw [← Nat.cast_succ, zpow_natCast]; exact_mod_cast this
  have dLow : (2 : ℚ) ^ (d.log2 : Int) ≤ d := by
    rw [zpow_natCast]; exact_mod_cast Nat.log2_self_le hd
  have dHigh : (d : ℚ) < 2 ^ ((d.log2 : Int) + 1) := by
    have := @Nat.lt_log2_self d
    rw [← Nat.cast_succ, zpow_natCast]; exact_mod_cast this
  -- The difference of the logarithms is right or one too large; the test tells which.
  have high : (n / d : ℚ) < 2 ^ ((n.log2 : Int) - d.log2 + 1) := by
    rw [div_lt_iff₀ denominator]
    calc (n : ℚ) < 2 ^ ((n.log2 : Int) + 1) := nHigh
      _ = 2 ^ ((n.log2 : Int) - d.log2 + 1) * 2 ^ (d.log2 : Int) := by
        rw [← zpow_add₀ two]; ring_nf
      _ ≤ 2 ^ ((n.log2 : Int) - d.log2 + 1) * d := by gcongr
  have low : (2 : ℚ) ^ ((n.log2 : Int) - d.log2 - 1) ≤ n / d := by
    rw [le_div_iff₀ denominator]
    calc (2 : ℚ) ^ ((n.log2 : Int) - d.log2 - 1) * d
        ≤ 2 ^ ((n.log2 : Int) - d.log2 - 1) * 2 ^ ((d.log2 : Int) + 1) := by gcongr
      _ = 2 ^ (n.log2 : Int) := by rw [← zpow_add₀ two]; ring_nf
      _ ≤ n := nLow
  have test : scaledFloor n d (-((n.log2 : Int) - d.log2)) = 0 ↔
      (n / d : ℚ) < 2 ^ ((n.log2 : Int) - d.log2) := by
    rw [scaledFloor_eq, Nat.floor_eq_zero, zpow_neg, ← div_eq_mul_inv, div_lt_one (by positivity)]
  unfold exponentOf
  by_cases small : scaledFloor n d (-((n.log2 : Int) - d.log2)) = 0
  · simp only [small, if_true, sub_add_cancel]
    exact ⟨low, test.mp small⟩
  · simp only [small, if_false]
    exact ⟨not_lt.mp (mt test.mpr small), high⟩

theorem value_indexOf {scale : Int} {sig : Nat} (lowest : -1074 ≤ scale) (high : sig < 2 * pow2 52)
    (low : pow2 52 ≤ sig ∨ scale = -1074) :
    value (indexOf scale sig) = sig * (2 : ℚ) ^ scale ∧
      value (indexOf scale sig + 1) = (sig + 1) * (2 : ℚ) ^ scale := by
  suffices parts : significand (indexOf scale sig) = sig ∧ unitExponent (indexOf scale sig) = scale by
    rw [value_succ, value_eq, parts.1, parts.2]
    exact ⟨rfl, rfl⟩
  have positive := pow2_pos 52
  unfold significand unitExponent indexOf
  by_cases normal : pow2 52 ≤ sig
  · -- The hidden bit of the significand carries into the exponent field.
    have index : (scale + 1074).toNat * pow2 52 + sig =
        pow2 52 * ((scale + 1074).toNat + 1) + (sig - pow2 52) := by
      rw [mul_add, mul_comm]; omega
    have inside : sig - pow2 52 < pow2 52 := by omega
    rw [index, Nat.mul_add_div positive, Nat.mul_add_mod, Nat.div_eq_of_lt inside,
      Nat.mod_eq_of_lt inside]
    simp only [Nat.add_zero, Nat.add_one_ne_zero, if_false]
    omega
  · -- Nothing carries: the exponent field is zero and the fraction is the significand.
    have subnormal : scale = -1074 := low.resolve_left normal
    have inside : sig < pow2 52 := by omega
    rw [subnormal]
    simp [Nat.div_eq_of_lt inside, Nat.mod_eq_of_lt inside]

theorem floorIndexDiv_spec {n d : Nat} (hd : d ≠ 0) :
    value (floorIndexDiv n d) ≤ n / d ∧ (n / d : ℚ) < value (floorIndexDiv n d + 1) := by
  unfold floorIndexDiv
  by_cases hn : n = 0
  · simp only [hn, if_true, Nat.cast_zero, zero_div]
    exact ⟨value_zero.le, value_zero ▸ value_strictMono Nat.zero_lt_one⟩
  obtain ⟨low, high⟩ := exponentOf_spec hn hd
  simp only [hn, if_false]
  generalize exponentOf n d = e at low high
  generalize hscale : max (e - 52) (-1074) = scale
  have two : (2 : ℚ) ≠ 0 := by norm_num
  have unit : (0 : ℚ) < 2 ^ scale := by positivity
  have castPow : ((pow2 52 : Nat) : ℚ) = 2 ^ (52 : Int) := pow2_cast 52
  have nonneg : (0 : ℚ) ≤ n / d * 2 ^ (-scale) := by positivity
  have floorLe : (scaledFloor n d (-scale) : ℚ) ≤ n / d * 2 ^ (-scale) := by
    rw [scaledFloor_eq]; exact Nat.floor_le nonneg
  have ltFloor : (n / d : ℚ) * 2 ^ (-scale) < scaledFloor n d (-scale) + 1 := by
    rw [scaledFloor_eq]; exact Nat.lt_floor_add_one _
  -- In units of `2 ^ scale` the quotient is less than `2 ^ 53`, so its floor is a significand.
  have sigHigh : scaledFloor n d (-scale) < 2 * pow2 52 := by
    have : (scaledFloor n d (-scale) : ℚ) < 2 * pow2 52 := by
      calc (scaledFloor n d (-scale) : ℚ) ≤ n / d * 2 ^ (-scale) := floorLe
        _ < 2 ^ (e + 1) * 2 ^ (-scale) := by gcongr
        _ = 2 ^ (e + 1 - scale) := by rw [← zpow_add₀ two, sub_eq_add_neg]
        _ ≤ 2 ^ (53 : Int) := by gcongr <;> [norm_num; omega]
        _ = 2 * pow2 52 := by rw [castPow]; norm_num
    exact_mod_cast this
  have sigLow : pow2 52 ≤ scaledFloor n d (-scale) ∨ scale = -1074 := by
    by_cases subnormal : scale = -1074
    · exact .inr subnormal
    · left
      -- The scale was not raised to the lowest one, so the leading bit of the quotient is there.
      have exponent : e = scale + 52 := by omega
      rw [scaledFloor_eq]
      apply Nat.le_floor
      calc ((pow2 52 : Nat) : ℚ) = 2 ^ e * 2 ^ (-scale) := by
            rw [castPow, ← zpow_add₀ two]; congr 1; omega
        _ ≤ n / d * 2 ^ (-scale) := by gcongr
  obtain ⟨here, next⟩ := value_indexOf (by omega) sigHigh sigLow
  have unscale : (n / d : ℚ) = n / d * 2 ^ (-scale) * 2 ^ scale := by
    rw [mul_assoc, ← zpow_add₀ two, neg_add_cancel, zpow_zero, mul_one]
  rw [here, next]
  constructor
  · rw [unscale]; gcongr
  · rw [unscale]; gcongr

theorem num_div_den_of_nonneg {q : ℚ} (h : 0 ≤ q) : ((q.num.toNat : Nat) : ℚ) / q.den = q := by
  have num : ((q.num.toNat : Nat) : Int) = q.num := Int.toNat_of_nonneg (Rat.num_nonneg.mpr h)
  have cast : ((q.num.toNat : Nat) : ℚ) = q.num := by exact_mod_cast congrArg (Int.cast (R := ℚ)) num
  rw [cast, Rat.num_div_den]

theorem value_floorIndex_le {q : ℚ} (h : 0 ≤ q) : value (floorIndex q) ≤ q := by
  have spec := (floorIndexDiv_spec (n := q.num.toNat) q.den_nz).1
  rwa [num_div_den_of_nonneg h] at spec

theorem lt_value_succ_floorIndex {q : ℚ} (h : 0 ≤ q) : q < value (floorIndex q + 1) := by
  have spec := (floorIndexDiv_spec (n := q.num.toNat) q.den_nz).2
  rwa [num_div_den_of_nonneg h] at spec

/-! ## Directed rounding -/

theorem belowNonneg_le {q : ℚ} (h : 0 ≤ q) : belowNonneg q ≤ q :=
  le_trans (value_strictMono.monotone (Nat.min_le_left _ _)) (value_floorIndex_le h)

theorem le_aboveNonneg {q : ℚ} (h : 0 ≤ q) : Bound.fin q ≤ aboveNonneg q := by
  have above : q ≤ value (if value (floorIndex q) = q then floorIndex q else floorIndex q + 1) := by
    split_ifs with exact
    · exact exact.ge
    · exact (lt_value_succ_floorIndex h).le
  unfold aboveNonneg
  dsimp only
  split_ifs at above ⊢ <;> simp [above]

theorem neg_le_fin {b : Bound} {q : ℚ} : -b ≤ Bound.fin q ↔ Bound.fin (-q) ≤ b := by
  cases b with
  | negInf => exact Iff.rfl
  | fin x => exact neg_le (a := x) (b := q)
  | posInf => exact ⟨fun _ => trivial, fun _ => trivial⟩

theorem roundDown_le (q : ℚ) : roundDown q ≤ Bound.fin q := by
  unfold roundDown
  split_ifs with sign
  · exact belowNonneg_le sign
  · exact neg_le_fin.mpr (le_aboveNonneg (by linarith))

theorem le_roundUp (q : ℚ) : Bound.fin q ≤ roundUp q := by
  unfold roundUp
  split_ifs with sign
  · exact le_aboveNonneg sign
  · have below := belowNonneg_le (q := -q) (by linarith)
    exact Bound.fin_le_fin.mpr (by linarith)

/-! ## Square roots -/

theorem sq_value_stepDown_le {q : ℚ} (h : 0 ≤ q) (k : Nat) :
    value (stepDown q k) * value (stepDown q k) ≤ q := by
  induction k with
  | zero => simpa [stepDown, value_zero] using h
  | succ k ih =>
    unfold stepDown
    split_ifs with found
    · exact found
    · exact ih

theorem le_sq_value_stepUp {q : ℚ} (reachable : q ≤ value lastFinite * value lastFinite) (k : Nat) :
    q ≤ value (stepUp q k) * value (stepUp q k) := by
  fun_induction stepUp q k with
  | case1 k found => exact found
  | case2 k missed below ih => exact ih
  | case3 k missed above =>
    -- The search stopped at the last finite number, which is large enough by assumption.
    have order : value lastFinite ≤ value k := value_strictMono.monotone (not_lt.mp above)
    exact reachable.trans (mul_le_mul order order (value_nonneg _) (value_nonneg _))

theorem lastFinite_parts :
    significand lastFinite + 1 = 2 * pow2 52 ∧ unitExponent lastFinite = (971 : Nat) := by
  have positive := pow2_pos 52
  have index : lastFinite = pow2 52 * 2046 + (pow2 52 - 1) := by unfold lastFinite; omega
  have inside : pow2 52 - 1 < pow2 52 := by omega
  have quotient : lastFinite / pow2 52 = 2046 := by
    rw [index, Nat.mul_add_div positive, Nat.div_eq_of_lt inside]
  have remainder : lastFinite % pow2 52 = pow2 52 - 1 := by
    rw [index, Nat.mul_add_mod, Nat.mod_eq_of_lt inside]
  constructor
  · rw [significand, quotient, remainder, if_neg (by norm_num)]
    omega
  · rw [unitExponent, quotient]
    norm_num

theorem value_succ_lastFinite_le : value (lastFinite + 1) ≤ value lastFinite * value lastFinite := by
  obtain ⟨bits, exponent⟩ := lastFinite_parts
  have large : (2 : ℚ) ≤ significand lastFinite := by
    have power : 2 ≤ pow2 52 := Nat.pow_le_pow_right (n := 2) (by norm_num) (show 1 ≤ 52 by norm_num)
    have : 2 ≤ significand lastFinite := by omega
    exact_mod_cast this
  rw [value_succ, value_eq, exponent, zpow_natCast]
  generalize (significand lastFinite : ℚ) = s at large
  have unit : (1 : ℚ) ≤ 2 ^ 971 := one_le_pow₀ (by norm_num)
  generalize (2 : ℚ) ^ 971 = u at unit
  nlinarith [mul_nonneg (by linarith : (0 : ℚ) ≤ s - 2) (by linarith : (0 : ℚ) ≤ s + 1),
    mul_nonneg (by linarith : (0 : ℚ) ≤ u - 1) (by nlinarith : (0 : ℚ) ≤ s * s * u)]

theorem le_pickNearest (k : Nat) (order : Ordering) : k ≤ pickNearest k order := by
  cases order with
  | lt => exact le_rfl
  | gt => exact Nat.le_succ k
  | eq =>
    unfold pickNearest
    dsimp only
    split_ifs <;> omega

/-- A rational that has a nearest number is below the square of the last one. -/
theorem le_sq_lastFinite_of_nearest? {q : ℚ} (h : 0 ≤ q) {k : Nat} (near : nearest? q = some k) :
    q ≤ value lastFinite * value lastFinite := by
  have floorLe : floorIndex q ≤ lastFinite := by
    unfold nearest? at near
    dsimp only at near
    split_ifs at near with finite
    exact (le_pickNearest _ _).trans finite
  calc q ≤ value (floorIndex q + 1) := (lt_value_succ_floorIndex h).le
    _ ≤ value (lastFinite + 1) := value_strictMono.monotone (by omega)
    _ ≤ value lastFinite * value lastFinite := value_succ_lastFinite_le

theorem sq_le_of_sqrtDown? {q r : ℚ} (h : 0 ≤ q) (found : sqrtDown? q = some r) :
    0 ≤ r ∧ r * r ≤ q := by
  obtain ⟨k, -, rfl⟩ := Option.map_eq_some_iff.mp found
  exact ⟨value_nonneg _, sq_value_stepDown_le h _⟩

theorem le_sq_of_sqrtUp? {q r : ℚ} (h : 0 ≤ q) (found : sqrtUp? q = some r) :
    0 ≤ r ∧ q ≤ r * r := by
  obtain ⟨k, near, rfl⟩ := Option.map_eq_some_iff.mp found
  exact ⟨value_nonneg _, le_sq_value_stepUp (le_sq_lastFinite_of_nearest? h near) _⟩

end SkewBox.Binary64
