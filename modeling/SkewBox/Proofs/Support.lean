import SkewBox.Proofs.Bounds

/-!
# Exact ranges

Where every range holds a rational and nothing is rounded, a combination of ranges holds exactly the
combinations of their members.  The axes are independent, so any choice of members is taken at some
point: the range of a direction is then exactly what the direction takes on the points of a frame.

* `Interval.Filled`, `Frame.Filled`, `Parallelotope.Filled`: ranges that hold a rational.
* `Frame.Regular.exists_of_boundDirection`: the range of a direction is attained.
-/

namespace SkewBox

variable {K : Type*} [Field K] [LinearOrder K] [IsStrictOrderedRing K]

/-! ## Ends -/

namespace Precision

variable {a b : Bound} {x y z : K}

theorem below_of_exact_mul {c : ℚ} (pos : 0 < c) (h : (exact.mul .down (.fin c) a).Below (c * x)) :
    a.Below x := by
  cases a with
  | negInf => trivial
  | fin q =>
    have scaled : ((c * q : ℚ) : K) ≤ c * x := h
    rw [Rat.cast_mul] at scaled
    exact le_of_mul_le_mul_left scaled (by exact_mod_cast pos)
  | posInf =>
    rw [mul_fin_posInf _ _ pos] at h
    exact h.elim

theorem above_of_exact_mul {c : ℚ} (pos : 0 < c) (h : (exact.mul .up (.fin c) a).Above (c * x)) :
    a.Above x := by
  cases a with
  | negInf =>
    rw [mul_fin_negInf _ _ pos] at h
    exact h.elim
  | fin q =>
    have scaled : (c : K) * x ≤ ((c * q : ℚ) : K) := h
    rw [Rat.cast_mul] at scaled
    exact le_of_mul_le_mul_left scaled (by exact_mod_cast pos)
  | posInf => trivial

/-- A number below a sum of ends is reached from members `x` and `y` below these ends by raising the
first as far as its end allows and then the second. -/
theorem exists_above_add (hx : a.Above x) (hy : b.Above y) (h : (exact.add .up a b).Above z)
    (le : x + y ≤ z) : ∃ x' y', x ≤ x' ∧ a.Above x' ∧ y ≤ y' ∧ b.Above y' ∧ z = x' + y' := by
  by_cases room : a.Above (z - y)
  · exact ⟨z - y, y, by linarith, room, le_rfl, hy, by ring⟩
  · cases a with
    | negInf => exact hx.elim
    | posInf => exact absurd trivial room
    | fin q =>
      have short : (q : K) < z - y := not_le.mp room
      refine ⟨q, z - q, hx, le_rfl, by linarith, ?_, by ring⟩
      cases b with
      | negInf => exact hy.elim
      | posInf => trivial
      | fin r =>
        have sum : z ≤ ((q + r : ℚ) : K) := h
        rw [Rat.cast_add] at sum
        show z - q ≤ (r : K)
        linarith

theorem exact_add_up_neg (a b : Bound) : exact.add .up (-a) (-b) = -exact.add .down a b := by
  cases a <;> cases b <;> simp [add, roundRat, Rounding.widest, add_comm]

theorem exists_below_add (hx : a.Below x) (hy : b.Below y) (h : (exact.add .down a b).Below z)
    (le : z ≤ x + y) : ∃ x' y', x' ≤ x ∧ a.Below x' ∧ y' ≤ y ∧ b.Below y' ∧ z = x' + y' := by
  have sum : (exact.add .up (-a) (-b)).Above (-z) := by
    rw [exact_add_up_neg]
    exact Bound.neg_above.mpr h
  obtain ⟨x', y', hx', ax', hy', by', total⟩ := exists_above_add
    (Bound.neg_above.mpr hx) (Bound.neg_above.mpr hy) sum (by linarith)
  rw [← neg_neg x', Bound.neg_above] at ax'
  rw [← neg_neg y', Bound.neg_above] at by'
  exact ⟨-x', -y', by linarith, ax', by linarith, by', by linarith⟩

end Precision

/-! ## Intervals -/

namespace Interval

variable {I J : Interval} {x z : K}

/-- The interval holds a rational number. -/
def Filled (I : Interval) : Prop := ∃ q : ℚ, I.Has q

theorem filled_iff : I.Filled ↔ I.lo ≤ I.hi ∧ I.lo ≠ .posInf ∧ I.hi ≠ .negInf := by
  obtain ⟨lo, hi⟩ := I
  constructor
  · rintro ⟨q, low, high⟩
    refine ⟨Bound.le_of_below_above low high, ?_, ?_⟩
    · rintro rfl
      exact low
    · rintro rfl
      exact high
  · rintro ⟨ordered, low, high⟩
    cases lo with
    | posInf => exact absurd rfl low
    | fin q => exact ⟨q, le_rfl, Bound.above_ratCast.mpr ordered⟩
    | negInf =>
      cases hi with
      | negInf => exact absurd rfl high
      | fin q => exact ⟨q, trivial, le_rfl⟩
      | posInf => exact ⟨0, top_has⟩

instance : DecidablePred Filled := fun _ => decidable_of_iff _ filled_iff.symm

theorem has_ratCast {q : ℚ} : I.Has (q : K) ↔ I.Has q := by
  have ends : ∀ a : Bound, (a.Below (q : K) ↔ a.Below q) ∧ (a.Above (q : K) ↔ a.Above q) := by
    intro a
    cases a <;> simp
  exact and_congr (ends I.lo).1 (ends I.hi).2

theorem Filled.exists_has (h : I.Filled) : ∃ x : K, I.Has x := by
  obtain ⟨q, hq⟩ := h
  exact ⟨q, has_ratCast.mpr hq⟩

theorem Filled.ordered (h : I.Filled) : I.lo ≤ I.hi := by
  obtain ⟨q, hq⟩ := h
  exact hq.ordered

theorem filled_getD {Is : List Interval} (filled : ∀ I ∈ Is, I.Filled) (i : ℕ) :
    (Is.getD i .top).Filled := by
  by_cases hi : i < Is.length
  · rw [List.getD_eq_getElem _ _ hi]
    exact filled _ (List.getElem_mem hi)
  · rw [List.getD_eq_default _ _ (not_lt.mp hi)]
    exact ⟨0, top_has⟩

theorem neg_has_iff : I.neg.Has x ↔ I.Has (-x) := by
  constructor
  · intro h
    by_cases ordered : I.lo ≤ I.hi
    · simp only [neg, isBottom_eq_false_iff.mpr ordered, Bool.false_eq_true, if_false] at h
      rw [← neg_neg x] at h
      exact ⟨Bound.neg_above.mp h.2, Bound.neg_below.mp h.1⟩
    · have empty : I.isBottom = true := by simpa [← isBottom_eq_false_iff] using ordered
      simp only [neg, empty, if_true] at h
      exact absurd h.ordered ordered
  · intro h
    simpa using neg_has h

theorem scale_has_iff {c : ℚ} (nonzero : c ≠ 0) : (I.scale .exact c).Has (c * x) ↔ I.Has x := by
  refine ⟨fun h => ?_, scale_has c⟩
  by_cases ordered : I.lo ≤ I.hi
  · cases lt_or_gt_of_ne nonzero with
    | inl neg =>
      have flipped : 0 < -c := neg_pos.mpr neg
      have product : (c : K) * x = ((-c : ℚ) : K) * -x := by push_cast; ring
      rw [scale_of_neg neg ordered, product] at h
      exact ⟨Bound.neg_above.mp (Precision.above_of_exact_mul flipped h.2),
        Bound.neg_below.mp (Precision.below_of_exact_mul flipped h.1)⟩
    | inr pos =>
      rw [scale_of_pos pos ordered] at h
      exact ⟨Precision.below_of_exact_mul pos h.1, Precision.above_of_exact_mul pos h.2⟩
  · have empty : I.isBottom = true := by simpa [← isBottom_eq_false_iff] using ordered
    simp only [scale, empty, if_true] at h
    exact absurd h.ordered ordered

theorem scale_has_iff_exists {c : ℚ} (filled : I.Filled) :
    (I.scale .exact c).Has z ↔ ∃ x, I.Has x ∧ z = c * x := by
  constructor
  · intro h
    by_cases zero : c = 0
    · obtain ⟨x, hx⟩ := filled.exists_has (K := K)
      rw [zero, scale_zero filled.ordered] at h
      exact ⟨x, hx, by simp [zero, h.eq_zero rfl]⟩
    · have cancel : z = c * (z / c) := by
        rw [mul_div_cancel₀]
        exact_mod_cast zero
      rw [cancel, scale_has_iff zero] at h
      exact ⟨z / c, h, cancel⟩
  · rintro ⟨x, hx, rfl⟩
    exact scale_has c hx

theorem Filled.scale {c : ℚ} (h : I.Filled) : (I.scale .exact c).Filled := by
  obtain ⟨q, hq⟩ := h
  exact ⟨c * q, by simpa using scale_has (p := .exact) c hq⟩

theorem Filled.neg (h : I.Filled) : I.neg.Filled := by
  obtain ⟨q, hq⟩ := h
  exact ⟨-q, neg_has hq⟩

theorem add_has_iff (hI : I.Filled) (hJ : J.Filled) :
    (I.add .exact J).Has z ↔ ∃ x y, I.Has x ∧ J.Has y ∧ z = x + y := by
  constructor
  · intro h
    obtain ⟨x, hx⟩ := hI.exists_has (K := K)
    obtain ⟨y, hy⟩ := hJ.exists_has (K := K)
    simp only [add, hx.isBottom, hy.isBottom, Bool.or_self, Bool.false_eq_true, if_false] at h
    cases le_total (x + y) z with
    | inl le =>
      obtain ⟨x', y', above, hx', above', hy', rfl⟩ := Precision.exists_above_add hx.2 hy.2 h.2 le
      exact ⟨x', y', ⟨hx.1.trans_le above, hx'⟩, ⟨hy.1.trans_le above', hy'⟩, rfl⟩
    | inr ge =>
      obtain ⟨x', y', below, hx', below', hy', rfl⟩ := Precision.exists_below_add hx.1 hy.1 h.1 ge
      exact ⟨x', y', ⟨hx', hx.2.trans_ge below⟩, ⟨hy', hy.2.trans_ge below'⟩, rfl⟩
  · rintro ⟨x, y, hx, hy, rfl⟩
    exact add_has hx hy

theorem Filled.add (hI : I.Filled) (hJ : J.Filled) : (I.add .exact J).Filled := by
  obtain ⟨q, hq⟩ := hI
  obtain ⟨r, hr⟩ := hJ
  exact ⟨q + r, add_has hq hr⟩

theorem sub_has_iff (hI : I.Filled) (hJ : J.Filled) :
    (I.sub .exact J).Has z ↔ ∃ x y, I.Has x ∧ J.Has y ∧ z = x - y := by
  rw [sub, add_has_iff hI hJ.neg]
  constructor
  · rintro ⟨x, y, hx, hy, rfl⟩
    exact ⟨x, -y, hx, neg_has_iff.mp hy, by ring⟩
  · rintro ⟨x, y, hx, hy, rfl⟩
    exact ⟨x, -y, hx, neg_has hy, by ring⟩

end Interval

omit [IsStrictOrderedRing K] in
theorem Frame.has_of_isTop {f : Frame} {x : ℕ → K} (h : f.isTop) : f.Has x := fun d hd =>
  Interval.has_of_isTop (List.all_eq_true.mp h d.2 (List.of_mem_zip hd).2)

/-! ## Combinations -/

namespace Precision

theorem dot_step_eq {acc I : Interval} (c : ℚ) (hacc : acc.lo ≤ acc.hi) (hI : I.lo ≤ I.hi) :
    (if c = 0 then acc
      else ⟨exact.add .down acc.lo (I.scale exact c).lo, exact.add .up acc.hi (I.scale exact c).hi⟩) =
      acc.add exact (I.scale exact c) := by
  by_cases zero : c = 0
  · subst zero
    obtain ⟨lo, hi⟩ := acc
    rw [if_pos rfl, Interval.scale_zero hI, Interval.add, Interval.isBottom_eq_false_iff.mpr hacc]
    cases lo <;> cases hi <;> simp [Interval.zero, Interval.point, Interval.isBottom, add, roundRat]
  · rw [if_neg zero, Interval.add, Interval.isBottom_eq_false_iff.mpr hacc,
      Interval.isBottom_eq_false_iff.mpr (Interval.scale_ordered c hI)]
    rfl

/-- A sum of scaled intervals, started from an accumulator, holds no more than the combinations of
their members. -/
theorem exists_of_foldl_has {cs : Vec} {Is : List Interval} {acc : Interval} {v : K}
    (fits : cs.length ≤ Is.length) (start : acc.Filled) (filled : ∀ I ∈ Is, I.Filled)
    (h : ((cs.zip Is).foldl (fun acc (c, I) =>
      if c = 0 then acc
      else
        let term := I.scale exact c
        ⟨exact.add .down acc.lo term.lo, exact.add .up acc.hi term.hi⟩) acc).Has v) :
    ∃ (a : K) (y : ℕ → K), acc.Has a ∧ (∀ i, (Is.getD i .top).Has (y i)) ∧ v = a + cs.eval y := by
  induction cs generalizing Is acc v with
  | nil =>
    have members : ∀ i, ∃ y : K, (Is.getD i .top).Has y := fun i =>
      (Interval.filled_getD filled i).exists_has
    choose y hy using members
    exact ⟨v, y, by simpa using h, hy, by simp⟩
  | cons c cs ih =>
    cases Is with
    | nil => simp at fits
    | cons I Is =>
      obtain ⟨first, filled⟩ := List.forall_mem_cons.mp filled
      simp only [List.zip_cons_cons, List.foldl_cons, dot_step_eq c start.ordered first.ordered] at h
      -- From the tail comes the sum with the head inside; taking it apart gives a member for the head.
      obtain ⟨a, y, ha, hy, rfl⟩ := ih (by simpa using fits) (start.add first.scale) filled h
      obtain ⟨a', s, ha', hs, rfl⟩ := (Interval.add_has_iff start first.scale).mp ha
      obtain ⟨t, ht, rfl⟩ := (Interval.scale_has_iff_exists first).mp hs
      refine ⟨a', fun i => if i = 0 then t else y (i - 1), ha', fun i => ?_, ?_⟩
      · cases i with
        | zero => simpa using ht
        | succ i => simpa using hy i
      · simp [Vec.eval_cons, add_assoc]

theorem exists_of_dot_has {cs : Vec} {Is : List Interval} {v : K} (fits : cs.length ≤ Is.length)
    (filled : ∀ I ∈ Is, I.Filled) (h : (exact.dot cs Is).Has v) :
    ∃ y : ℕ → K, (∀ i, (Is.getD i .top).Has (y i)) ∧ v = cs.eval y := by
  obtain ⟨a, y, ha, hy, rfl⟩ := exists_of_foldl_has fits ⟨0, Interval.zero_has⟩ filled h
  rw [ha.eq_zero rfl, zero_add]
  exact ⟨y, hy, rfl⟩

end Precision

/-! ## Frames -/

namespace Frame

variable {f : Frame} {n : ℕ}

/-- Every range holds a rational number. -/
def Filled (f : Frame) : Prop := ∀ I ∈ f.ranges, I.Filled

instance (f : Frame) : Decidable f.Filled := inferInstanceAs (Decidable (∀ I ∈ f.ranges, I.Filled))

theorem Regular.exists_image (regular : f.Regular n) (y : ℕ → K) :
    ∃ x : ℕ → K, ∀ i < n, f.axes.image x i = y i := by
  obtain ⟨w, -, inverse⟩ := regular.exists_solve
  exact ⟨w.image y, fun i hi => inverse.image_image' regular.axes.shape y hi⟩

theorem Regular.exists_has (regular : f.Regular n) (filled : f.Filled) : ∃ x : ℕ → K, f.Has x := by
  have members : ∀ i, ∃ y : K, (f.ranges.getD i .top).Has y := fun i =>
    (Interval.filled_getD filled i).exists_has
  choose y hy using members
  obtain ⟨x, image⟩ := regular.exists_image y
  refine ⟨x, regular.has_iff_lt.mpr fun i hi => ?_⟩
  rw [image i hi]
  exact hy i

theorem Regular.exists_of_boundDirection (regular : f.Regular n) (filled : f.Filled) {cfg : Settings}
    (exact : cfg.precision = .exact) {r : Vec} (length : r.length = n) {I : Interval}
    (bounded : f.boundDirection cfg r = .ok I) {v : K} (h : I.Has v) :
    ∃ x : ℕ → K, f.Has x ∧ r.eval x = v := by
  obtain ⟨lam, found, coords⟩ := regular.exists_coords r
  rw [boundDirection, found, ok_bind, exact] at bounded
  obtain rfl := Except.ok.inj bounded
  obtain ⟨y, members, rfl⟩ := Precision.exists_of_dot_has
    (coords.length.trans regular.ranges.symm).le filled h
  obtain ⟨x, image⟩ := regular.exists_image y
  refine ⟨x, regular.has_iff_lt.mpr fun i hi => ?_, ?_⟩
  · rw [image i hi]
    exact members i
  · rw [← coords.eval regular.axes.shape length x]
    exact Vec.eval_congr fun i hi => image i (coords.length ▸ hi)

end Frame

/-- Every range of the value, unless it is empty, holds a rational number. -/
def Parallelotope.Filled (a : Parallelotope) : Prop := ∀ f, a.frame? = some f → f.Filled

theorem Parallelotope.filled_mk {s : Space} {f : Frame} (h : f.Filled) : Filled ⟨s, some f⟩ := by
  intro g hg
  obtain rfl := Option.some.inj hg
  exact h

end SkewBox
