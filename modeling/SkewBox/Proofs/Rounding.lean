import SkewBox.Proofs.Enclosure

/-!
# Rounding to binary64

The grid holds the numbers of the format and no others, the nearest number is found with ties going to
the even index, and rounding in a direction gives the closest number on that side.  It comes to the same
to take the nearest number and to move by one step from a number on the wrong side.

* `Binary64.Representable`: the finite numbers of the format, as the standard describes them.
* `Binary64.IsNearest`, `nearest?_eq_some_iff`: rounding to nearest.
* `Binary64.directed_rounding_exact`: rounding up and down.
-/

namespace SkewBox.Binary64

/-! ## Numbers of the format -/

/-- A finite number of binary64: an integer of at most 53 bits in units of a power of two that the
exponent field can name. -/
def Representable (q : ℚ) : Prop :=
  ∃ m e : ℤ, |m| < 2 ^ 53 ∧ -1074 ≤ e ∧ e ≤ 971 ∧ q = m * 2 ^ e

/-- The number is a finite number of binary64. -/
def OnGrid (q : ℚ) : Prop := ∃ k ≤ lastFinite, q = value k ∨ q = -value k

theorem Representable.neg {q : ℚ} (h : Representable q) : Representable (-q) := by
  obtain ⟨m, e, bits, low, high, rfl⟩ := h
  exact ⟨-m, e, by rwa [abs_neg], low, high, by push_cast; ring⟩

theorem OnGrid.neg {q : ℚ} (h : OnGrid q) : OnGrid (-q) := by
  obtain ⟨k, finite, rfl | rfl⟩ := h
  · exact ⟨k, finite, .inr rfl⟩
  · exact ⟨k, finite, .inl (neg_neg _)⟩

theorem two_mul_pow2 : 2 * pow2 52 = 2 ^ 53 := (pow_succ' 2 52).symm

theorem significand_lt (k : ℕ) : significand k < 2 ^ 53 := by
  have inside : k % pow2 52 < pow2 52 := Nat.mod_lt _ (pow2_pos 52)
  rw [← two_mul_pow2, significand]
  split_ifs <;> omega

theorem representable_value {k : ℕ} (finite : k ≤ lastFinite) : Representable (value k) := by
  have field : k / pow2 52 ≤ 2046 := by
    have positive := pow2_pos 52
    refine Nat.lt_succ_iff.mp ((Nat.div_lt_iff_lt_mul positive).mpr ?_)
    rw [lastFinite] at finite
    omega
  refine ⟨significand k, unitExponent k, ?_, ?_, ?_, by rw [value_eq, Int.cast_natCast]⟩
  · rw [abs_of_nonneg (by positivity)]
    exact_mod_cast significand_lt k
  all_goals
    rw [unitExponent]
    omega

/-- An integer of at most 53 bits in units of a power of two is on the grid, which goes on past the last
finite number. -/
theorem exists_value_eq {m : ℕ} {e : ℤ} (bits : m < 2 ^ 53) (low : -1074 ≤ e) :
    ∃ k, value k = m * (2 : ℚ) ^ e := by
  rw [← two_mul_pow2] at bits
  obtain ⟨n, rfl⟩ : ∃ n : ℕ, e = n - 1074 := ⟨(e + 1074).toNat, by omega⟩
  clear low
  induction n generalizing m with
  | zero => exact ⟨_, (value_indexOf (by omega) bits (.inr (by norm_num))).1⟩
  | succ n ih =>
    by_cases normal : pow2 52 ≤ m
    · exact ⟨_, (value_indexOf (by omega) bits (.inl normal)).1⟩
    · -- The leading bit is free, so half the unit does as well.
      obtain ⟨k, found⟩ := ih (m := 2 * m) (by omega)
      refine ⟨k, found.trans ?_⟩
      have unit : (2 : ℚ) ^ ((n + 1 : ℕ) - 1074 : ℤ) = 2 * 2 ^ (n - 1074 : ℤ) := by
        rw [← zpow_one_add₀ two_ne_zero]
        congr 1
        push_cast
        ring
      rw [unit]
      push_cast
      ring

theorem Representable.onGrid {q : ℚ} (h : Representable q) : OnGrid q := by
  wlog nonneg : 0 ≤ q generalizing q
  · rw [← neg_neg q]
    exact (this h.neg (by linarith)).neg
  obtain ⟨m, e, bits, low, high, rfl⟩ := h
  have unit : (0 : ℚ) < 2 ^ e := by positivity
  have sign : 0 ≤ m := by exact_mod_cast nonneg_of_mul_nonneg_left nonneg unit
  obtain ⟨m, rfl⟩ := Int.eq_ofNat_of_zero_le sign
  rw [abs_of_nonneg sign] at bits
  have bits : m < 2 ^ 53 := by exact_mod_cast bits
  obtain ⟨k, found⟩ := exists_value_eq bits low
  refine ⟨k, ?_, .inl (by rw [found, Int.cast_natCast])⟩
  -- The number past the last finite one has a significand of 54 bits in the greatest unit.
  obtain ⟨full, exponent⟩ := lastFinite_parts
  have past : value (lastFinite + 1) = (2 ^ 53 : ℕ) * (2 : ℚ) ^ (971 : ℤ) := by
    rw [value_succ, exponent, ← two_mul_pow2, ← full]
    norm_num
  have below : value k < value (lastFinite + 1) := by
    rw [found, past]
    have significand : (m : ℚ) < (2 ^ 53 : ℕ) := by exact_mod_cast bits
    calc (m : ℚ) * 2 ^ e < (2 ^ 53 : ℕ) * 2 ^ e := by gcongr
      _ ≤ (2 ^ 53 : ℕ) * 2 ^ (971 : ℤ) := by gcongr; norm_num
  exact Nat.lt_succ_iff.mp (value_strictMono.lt_iff_lt.mp below)

theorem onGrid_iff {q : ℚ} : OnGrid q ↔ Representable q := by
  refine ⟨?_, Representable.onGrid⟩
  rintro ⟨k, finite, rfl | rfl⟩
  · exact representable_value finite
  · exact (representable_value finite).neg

/-! ## Rounding to nearest -/

section Nearest

variable {K : Type*} [Field K] [LinearOrder K] [IsStrictOrderedRing K]

/-- Number `k` is nearest to `x`; of two numbers that are equally near it is the one with the even index. -/
structure IsNearest (x : K) (k : ℕ) : Prop where
  nearest : ∀ j, |x - value k| ≤ |x - value j|
  even : ∀ j, j ≠ k → |x - value j| = |x - value k| → k % 2 = 0

theorem cast_value_lt_iff {j k : ℕ} : (value j : K) < value k ↔ j < k :=
  Rat.cast_lt.trans value_strictMono.lt_iff_lt

theorem IsNearest.eq {x : K} {j k : ℕ} (hj : IsNearest x j) (hk : IsNearest x k) : j = k := by
  wlog order : j < k generalizing j k
  · rcases Nat.lt_trichotomy j k with less | same | more
    · exact this hj hk less
    · exact same
    · exact (this hk hj more).symm
  have same : |x - value j| = |x - value k| := le_antisymm (hj.nearest k) (hk.nearest j)
  have apart : (value j : K) < value k := cast_value_lt_iff.mpr order
  -- Two different numbers at the same distance have `x` in the middle.
  have middle : x - value j = value k - x := by
    cases abs_eq_abs.mp same with
    | inl equal => linarith
    | inr opposite => linarith
  have neighbours : k = j + 1 := by
    by_contra further
    have above : (value j : K) < value (j + 1) := cast_value_lt_iff.mpr (Nat.lt_succ_self j)
    have below : (value (j + 1) : K) < value k := cast_value_lt_iff.mpr (by omega)
    have nearer : |x - value (j + 1)| < |x - value j| := by
      rw [abs_of_nonneg (by linarith : 0 ≤ x - value j), abs_lt]
      constructor <;> linarith
    exact absurd (hj.nearest (j + 1)) nearer.not_ge
  have evenLeft := hj.even k order.ne' same.symm
  have evenRight := hk.even j order.ne same
  omega

/-- Every number but two neighbours lies further from what is between them than one of these. -/
theorem closer_neighbour {x : K} {k : ℕ} (low : (value k : K) ≤ x) (high : x < value (k + 1)) {j : ℕ}
    (notHere : j ≠ k) (notNext : j ≠ k + 1) :
    |x - value k| < |x - value j| ∨ |x - value (k + 1)| < |x - value j| := by
  cases Nat.lt_or_gt_of_ne notHere with
  | inl less =>
    have further : (value j : K) < value k := cast_value_lt_iff.mpr less
    left
    rw [abs_of_nonneg (by linarith), abs_of_nonneg (by linarith)]
    linarith
  | inr more =>
    have further : (value (k + 1) : K) < value j := cast_value_lt_iff.mpr (by omega)
    right
    rw [abs_of_nonpos (by linarith), abs_of_nonpos (by linarith)]
    linarith

/-- The nearer of two neighbours is nearest to what is between them, and the other can only tie with it. -/
theorem isNearest_of_neighbours {x : K} {k a b : ℕ} (low : (value k : K) ≤ x) (high : x < value (k + 1))
    (pair : a = k ∧ b = k + 1 ∨ a = k + 1 ∧ b = k) (le : |x - value a| ≤ |x - value b|)
    (tie : |x - value b| = |x - value a| → a % 2 = 0) : IsNearest x a := by
  have others : ∀ j, j ≠ a → j ≠ b → |x - value a| < |x - value j| := by
    intro j notA notB
    cases pair with
    | inl pair =>
      obtain ⟨rfl, rfl⟩ := pair
      exact (closer_neighbour low high notA notB).elim id le.trans_lt
    | inr pair =>
      obtain ⟨rfl, rfl⟩ := pair
      exact (closer_neighbour low high notB notA).elim le.trans_lt id
  constructor
  · intro j
    by_cases isA : j = a
    · exact (congrArg (fun i => |x - value i|) isA).ge
    by_cases isB : j = b
    · exact isB ▸ le
    exact (others j isA isB).le
  · intro j notA same
    by_cases isB : j = b
    · exact tie (isB ▸ same)
    exact absurd same (others j notA isB).ne'

/-- A number between two neighbours is nearest to the one that its place to their middle picks. -/
theorem isNearest_pickNearest {x : K} {k : ℕ} {order : Ordering} (low : (value k : K) ≤ x)
    (high : x < value (k + 1)) (lt : order = .lt → 2 * x < value k + value (k + 1))
    (eq : order = .eq → 2 * x = value k + value (k + 1))
    (gt : order = .gt → (value k + value (k + 1) : K) < 2 * x) : IsNearest x (pickNearest k order) := by
  have here : |x - value k| = x - value k := abs_of_nonneg (by linarith)
  have next : |x - value (k + 1)| = value (k + 1) - x := by
    rw [abs_of_nonpos (by linarith), neg_sub]
  cases order with
  | lt =>
    have side := lt rfl
    have nearer : |x - value k| < |x - value (k + 1)| := by
      rw [here, next]
      linarith
    exact isNearest_of_neighbours low high (.inl ⟨rfl, rfl⟩) nearer.le fun same => absurd same nearer.ne'
  | gt =>
    have side := gt rfl
    have nearer : |x - value (k + 1)| < |x - value k| := by
      rw [here, next]
      linarith
    exact isNearest_of_neighbours low high (.inr ⟨rfl, rfl⟩) nearer.le fun same => absurd same nearer.ne'
  | eq =>
    have side := eq rfl
    have same : |x - value k| = |x - value (k + 1)| := by
      rw [here, next]
      linarith
    unfold pickNearest
    dsimp only
    split_ifs with even
    · exact isNearest_of_neighbours low high (.inl ⟨rfl, rfl⟩) same.le fun _ => even
    · exact isNearest_of_neighbours low high (.inr ⟨rfl, rfl⟩) same.ge fun _ => by omega

end Nearest

theorem orderOf_eq_lt {a b : ℚ} : orderOf a b = .lt ↔ a < b := by
  unfold orderOf
  split_ifs with less same <;> simp [less]

theorem orderOf_eq_eq {a b : ℚ} : orderOf a b = .eq ↔ a = b := by
  unfold orderOf
  split_ifs with less same
  · simp [less.ne]
  · simp [same]
  · simp [same]

theorem orderOf_eq_gt {a b : ℚ} : orderOf a b = .gt ↔ b < a := by
  unfold orderOf
  split_ifs with less same
  · simp [less.le]
  · simp [same]
  · simp [lt_of_le_of_ne (not_lt.mp less) (Ne.symm same)]

/-- Among all indices, also those past the last finite number, the nearest one is found. -/
theorem isNearest_pick {q : ℚ} (h : 0 ≤ q) : IsNearest q (pickNearest (floorIndex q)
    (orderOf q ((value (floorIndex q) + value (floorIndex q + 1)) / 2))) := by
  apply isNearest_pickNearest
  · exact value_floorIndex_le h
  · exact lt_value_succ_floorIndex h
  · intro order
    have side := orderOf_eq_lt.mp order
    simp only [Rat.cast_id]
    linarith
  · intro order
    have side := orderOf_eq_eq.mp order
    simp only [Rat.cast_id]
    linarith
  · intro order
    have side := orderOf_eq_gt.mp order
    simp only [Rat.cast_id]
    linarith

theorem nearest?_eq_some_iff {q : ℚ} (h : 0 ≤ q) {k : ℕ} :
    nearest? q = some k ↔ IsNearest q k ∧ k ≤ lastFinite := by
  unfold nearest?
  dsimp only
  rw [Option.ite_none_right_eq_some, Option.some.injEq]
  constructor
  · rintro ⟨finite, rfl⟩
    exact ⟨isNearest_pick h, finite⟩
  · rintro ⟨nearest, finite⟩
    have same := (isNearest_pick h).eq nearest
    exact ⟨same ▸ finite, same⟩

/-! ## Rounding in a direction -/

theorem value_le_iff {q : ℚ} (h : 0 ≤ q) {j : ℕ} : value j ≤ q ↔ j ≤ floorIndex q := by
  constructor
  · intro le
    have below := le.trans_lt (lt_value_succ_floorIndex h)
    exact Nat.lt_succ_iff.mp (value_strictMono.lt_iff_lt.mp below)
  · intro le
    exact (value_strictMono.monotone le).trans (value_floorIndex_le h)

/-- The least index whose value is at least `q`. -/
def ceilIndex (q : ℚ) : ℕ := if value (floorIndex q) = q then floorIndex q else floorIndex q + 1

theorem le_value_iff {q : ℚ} (h : 0 ≤ q) {j : ℕ} : q ≤ value j ↔ ceilIndex q ≤ j := by
  unfold ceilIndex
  split_ifs with exact
  · rw [← value_strictMono.le_iff_le, exact]
  · have below : value (floorIndex q) < q := lt_of_le_of_ne (value_floorIndex_le h) exact
    constructor
    · intro le
      exact value_strictMono.lt_iff_lt.mp (below.trans_le le)
    · intro le
      exact (lt_value_succ_floorIndex h).le.trans (value_strictMono.monotone le)

/-- The number at an index, `+∞` past the last finite one. -/
def numberAt (k : ℕ) : Bound := if k ≤ lastFinite then .fin (value k) else .posInf

theorem roundUp_of_nonneg {q : ℚ} (h : 0 ≤ q) : roundUp q = numberAt (ceilIndex q) := if_pos h

theorem roundDown_of_nonneg {q : ℚ} (h : 0 ≤ q) :
    roundDown q = .fin (value (min (floorIndex q) lastFinite)) := if_pos h

theorem roundUp_eq_neg (q : ℚ) : roundUp q = -roundDown (-q) := Precision.binary64.roundRat_up_eq q

theorem roundDown_eq_neg (q : ℚ) : roundDown q = -roundUp (-q) := by
  rw [roundUp_eq_neg, neg_neg, Bound.neg_neg']

/-- The finite numbers of the format and one infinity. -/
def numbersWith (infinity : Bound) : Set Bound := {b | b = infinity ∨ ∃ r, Representable r ∧ b = .fin r}

theorem numberAt_mem (k : ℕ) : numberAt k ∈ numbersWith .posInf := by
  unfold numberAt
  split_ifs with finite
  · exact .inr ⟨value k, representable_value finite, rfl⟩
  · exact .inl rfl

theorem neg_mem_numbersWith {b infinity : Bound} (h : b ∈ numbersWith infinity) :
    -b ∈ numbersWith (-infinity) := by
  cases h with
  | inl same => exact .inl (congrArg _ same)
  | inr finite =>
    obtain ⟨r, representable, rfl⟩ := finite
    exact .inr ⟨-r, representable.neg, rfl⟩

theorem roundUp_mem (q : ℚ) : roundUp q ∈ numbersWith .posInf := by
  by_cases sign : 0 ≤ q
  · rw [roundUp_of_nonneg sign]
    exact numberAt_mem _
  · rw [roundUp_eq_neg, roundDown_of_nonneg (by linarith)]
    exact .inr ⟨_, (representable_value (Nat.min_le_right ..)).neg, rfl⟩

theorem roundUp_le {q r : ℚ} (grid : OnGrid r) (le : q ≤ r) : roundUp q ≤ .fin r := by
  obtain ⟨j, finite, sides⟩ := grid
  by_cases sign : 0 ≤ q
  · -- From a number at or above zero, only those at or above zero are reached.
    have positive : r = value j := by
      cases sides with
      | inl same => exact same
      | inr opposite => linarith [value_nonneg j]
    have index : ceilIndex q ≤ j := (le_value_iff sign).mp (positive ▸ le)
    rw [roundUp_of_nonneg sign, numberAt, if_pos (index.trans finite), positive]
    exact Bound.fin_le_fin.mpr (value_strictMono.monotone index)
  · have flipped : 0 ≤ -q := by linarith
    rw [roundUp_eq_neg, roundDown_of_nonneg flipped]
    apply Bound.fin_le_fin.mpr
    cases sides with
    | inl same => linarith [value_nonneg j, value_nonneg (min (floorIndex (-q)) lastFinite)]
    | inr opposite =>
      have index : j ≤ floorIndex (-q) := (value_le_iff flipped).mp (by linarith)
      have further := value_strictMono.monotone (Nat.le_min.mpr ⟨index, finite⟩)
      linarith

theorem roundUp_isLeast (q : ℚ) : IsLeast {b ∈ numbersWith .posInf | .fin q ≤ b} (roundUp q) := by
  constructor
  · exact ⟨roundUp_mem q, le_roundUp q⟩
  · rintro b ⟨member, le⟩
    cases member with
    | inl infinite => exact infinite ▸ Bound.le_posInf _
    | inr finite =>
      obtain ⟨r, representable, rfl⟩ := finite
      exact roundUp_le representable.onGrid (Bound.fin_le_fin.mp le)

theorem roundDown_isGreatest (q : ℚ) :
    IsGreatest {b ∈ numbersWith .negInf | b ≤ .fin q} (roundDown q) := by
  rw [roundDown_eq_neg]
  obtain ⟨⟨member, le⟩, least⟩ := roundUp_isLeast (-q)
  constructor
  · exact ⟨neg_mem_numbersWith member, neg_le_fin.mpr le⟩
  · rintro b ⟨member, le⟩
    apply Bound.le_neg.mpr
    exact least ⟨neg_mem_numbersWith member, Bound.le_neg.mpr (by simpa using le)⟩

theorem roundUp_mono : Monotone roundUp := fun q q' le =>
  (roundUp_isLeast q').mono (roundUp_isLeast q) fun _ above =>
    ⟨above.1, (Bound.fin_le_fin.mpr le).trans above.2⟩

theorem roundDown_mono : Monotone roundDown := fun q q' le =>
  (roundDown_isGreatest q).mono (roundDown_isGreatest q') fun _ below =>
    ⟨below.1, below.2.trans (Bound.fin_le_fin.mpr le)⟩

theorem fin_mem_numbersWith {q : ℚ} (infinity : Bound) (infinite : infinity.isFinite = false) :
    .fin q ∈ numbersWith infinity ↔ Representable q := by
  constructor
  · rintro (same | ⟨r, representable, same⟩)
    · rw [← same] at infinite
      simp [Bound.isFinite] at infinite
    · exact Bound.fin.inj same ▸ representable
  · exact fun representable => .inr ⟨q, representable, rfl⟩

theorem roundUp_eq_self_iff {q : ℚ} : roundUp q = .fin q ↔ Representable q := by
  rw [← fin_mem_numbersWith .posInf rfl]
  constructor
  · intro kept
    exact kept ▸ roundUp_mem q
  · intro member
    exact le_antisymm ((roundUp_isLeast q).2 ⟨member, le_rfl⟩) (le_roundUp q)

theorem roundDown_eq_self_iff {q : ℚ} : roundDown q = .fin q ↔ Representable q := by
  rw [← fin_mem_numbersWith .negInf rfl]
  constructor
  · intro kept
    exact kept ▸ (roundDown_isGreatest q).1.1
  · intro member
    exact le_antisymm (roundDown_le q) ((roundDown_isGreatest q).2 ⟨member, le_rfl⟩)

theorem onGrid_of_roundDown {q r : ℚ} (h : roundDown q = .fin r) : OnGrid r := by
  have member := (roundDown_isGreatest q).1.1
  rw [h, fin_mem_numbersWith .negInf rfl] at member
  exact member.onGrid

/-! ### From the nearest number -/

/-- A nearest number at or below `q` is the greatest such number, one at or above `q` the least. -/
theorem IsNearest.index {q : ℚ} (h : 0 ≤ q) {i : ℕ} (nearest : IsNearest q i) :
    (value i ≤ q → i = floorIndex q) ∧ (q ≤ value i → i = ceilIndex q) := by
  constructor
  · intro low
    have index := (value_le_iff h).mp low
    have closer : |q - value i| ≤ |q - value (floorIndex q)| := nearest.nearest (floorIndex q)
    rw [abs_of_nonneg (by linarith), abs_of_nonneg (by linarith [value_floorIndex_le h])] at closer
    exact le_antisymm index (value_strictMono.le_iff_le.mp (by linarith))
  · intro high
    have index := (le_value_iff h).mp high
    have above : q ≤ value (ceilIndex q) := (le_value_iff h).mpr le_rfl
    have closer : |q - value i| ≤ |q - value (ceilIndex q)| := nearest.nearest (ceilIndex q)
    rw [abs_of_nonpos (by linarith), abs_of_nonpos (by linarith)] at closer
    exact le_antisymm (value_strictMono.le_iff_le.mp (by linarith)) index

theorem IsNearest.roundUp_eq {q : ℚ} (h : 0 ≤ q) {i : ℕ} (nearest : IsNearest q i) :
    roundUp q = numberAt (if value i < q then i + 1 else i) := by
  rw [roundUp_of_nonneg h]
  obtain ⟨low, high⟩ := nearest.index h
  split_ifs with below
  · have index := low below.le
    rw [ceilIndex, if_neg (index ▸ below.ne), index]
  · rw [high (not_lt.mp below)]

theorem IsNearest.roundDown_eq {q : ℚ} (h : 0 ≤ q) {i : ℕ} (nearest : IsNearest q i) :
    roundDown q = .fin (value (min (if q < value i then i - 1 else i) lastFinite)) := by
  rw [roundDown_of_nonneg h]
  obtain ⟨low, high⟩ := nearest.index h
  split_ifs with above
  · have index := high above.le
    have apart : value (floorIndex q) ≠ q := by
      intro same
      rw [index, ceilIndex, if_pos same, same] at above
      exact lt_irrefl q above
    rw [index, ceilIndex, if_neg apart, Nat.add_sub_cancel]
  · rw [low (not_lt.mp above)]

/-- **Directed rounding.** Rounding up gives the least number of the format or `+∞` that is at least `q`,
rounding down the greatest one or `-∞` that is at most `q`.  So one is the other on the other side of
zero, both keep the order, and both keep exactly the numbers of the format.  Above zero both are found
from the nearest number by at most one step; a nearest number past the last finite one is rounded up to
`+∞` and down to the last finite one.  Below zero the steps go the other way from the number nearest to
`-q`, with its sign changed. -/
theorem directed_rounding_exact :
    (∀ q, IsLeast {b ∈ numbersWith .posInf | .fin q ≤ b} (roundUp q) ∧
      IsGreatest {b ∈ numbersWith .negInf | b ≤ .fin q} (roundDown q) ∧
      roundDown q = -roundUp (-q) ∧
      (roundUp q = .fin q ↔ Representable q) ∧ (roundDown q = .fin q ↔ Representable q)) ∧
    Monotone roundUp ∧ Monotone roundDown ∧
    (∀ q, 0 ≤ q → ∃ i, IsNearest q i ∧
      roundUp q = numberAt (if value i < q then i + 1 else i) ∧
      roundDown q = .fin (value (min (if q < value i then i - 1 else i) lastFinite))) ∧
    ∀ q, q ≤ 0 → ∃ i, IsNearest (-q) i ∧
      roundDown q = -numberAt (if value i < -q then i + 1 else i) ∧
      roundUp q = .fin (-value (min (if -q < value i then i - 1 else i) lastFinite)) := by
  refine ⟨fun q => ?_, roundUp_mono, roundDown_mono, fun q nonneg => ?_, fun q nonpos => ?_⟩
  · exact ⟨roundUp_isLeast q, roundDown_isGreatest q, roundDown_eq_neg q, roundUp_eq_self_iff,
      roundDown_eq_self_iff⟩
  · have nearest := isNearest_pick nonneg
    exact ⟨_, nearest, nearest.roundUp_eq nonneg, nearest.roundDown_eq nonneg⟩
  · have nonneg : 0 ≤ -q := neg_nonneg.mpr nonpos
    have nearest := isNearest_pick nonneg
    refine ⟨_, nearest, ?_, ?_⟩
    · rw [roundDown_eq_neg, nearest.roundUp_eq nonneg]
    · rw [← neg_neg q, roundUp_eq_neg, neg_neg, nearest.roundDown_eq nonneg, Bound.neg_fin]

/-- The rational half way between the last finite number and the power of two behind it. -/
def halfwayPast : ℚ := 2 ^ 1024 - 2 ^ 970

example : nearest? halfwayPast = none ∧ roundUp halfwayPast = .posInf ∧
    roundDown halfwayPast = .fin (value lastFinite) := by decide +kernel

theorem directed_rounding_exact_halfway :
    0 ≤ halfwayPast ∧
      (∃ i, IsNearest halfwayPast i ∧
        roundUp halfwayPast = numberAt (if value i < halfwayPast then i + 1 else i) ∧
        roundDown halfwayPast =
          .fin (value (min (if halfwayPast < value i then i - 1 else i) lastFinite))) ∧
      roundUp (-halfwayPast) ≤ roundUp halfwayPast ∧ roundDown (-halfwayPast) ≤ roundDown halfwayPast := by
  have nonneg : 0 ≤ halfwayPast := sub_nonneg.mpr (pow_le_pow_right₀ (by norm_num) (by norm_num))
  obtain ⟨-, up, down, near, -⟩ := directed_rounding_exact
  have order : -halfwayPast ≤ halfwayPast := neg_le_self nonneg
  exact ⟨nonneg, near halfwayPast nonneg, up order, down order⟩

end SkewBox.Binary64
