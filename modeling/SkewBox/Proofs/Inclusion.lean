import SkewBox.Proofs.Join
import SkewBox.Proofs.Support

/-!
# Inclusion

The inclusion test compares the range of every restricted row of the second value over the first
with the range that the row has.  It never claims too much; without rounding, and with ranges that
hold a rational each, it decides inclusion of the rational points.

* `Parallelotope.leq_total`: what the answer of the test means.
* `Parallelotope.inclusion_decided`: inclusion and equality, whatever the axes are.
-/

namespace SkewBox

variable {K : Type*} [Field K] [LinearOrder K] [IsStrictOrderedRing K]

/-! ## Intervals -/

theorem Bound.le_of_below {a b : Bound} {q : ℚ} (hq : b.Below q) (haq : a.Below q)
    (h : ∀ r ≤ q, b.Below r → a.Below r) : a ≤ b := by
  cases b with
  | posInf => exact hq.elim
  | fin r => exact Bound.below_ratCast.mp (h r hq le_rfl)
  | negInf =>
    cases a with
    | negInf => exact le_rfl
    | posInf => exact haq.elim
    | fin r =>
      -- A number just below the end of `a` would have to be above it.
      have below : r ≤ min q (r - 1) := h (min q (r - 1)) (min_le_left ..) trivial
      have above := below.trans (min_le_right q (r - 1))
      linarith

theorem Bound.le_of_above {a b : Bound} {q : ℚ} (hq : a.Above q) (hbq : b.Above q)
    (h : ∀ r, q ≤ r → a.Above r → b.Above r) : a ≤ b := by
  rw [← Bound.neg_le_neg_iff]
  refine Bound.le_of_below (q := -q) (Bound.neg_below.mpr hq) (Bound.neg_below.mpr hbq) ?_
  intro r hr below
  rw [← neg_neg r, Bound.neg_below] at below ⊢
  exact h (-r) (by linarith) below

namespace Interval

variable {I J : Interval} {x : K}

theorem leq_has (h : I.leq J) (hx : I.Has x) : J.Has x := by
  simp only [leq, hx.isBottom, Bool.false_or, Bool.and_eq_true, decide_eq_true_eq] at h
  exact ⟨hx.1.anti h.1.2, hx.2.mono h.2⟩

theorem leq_of_has (filled : I.Filled) (h : ∀ q : ℚ, I.Has q → J.Has q) : I.leq J := by
  obtain ⟨q, hq⟩ := filled
  have lower : J.lo ≤ I.lo := Bound.le_of_below hq.1 (h q hq).1 fun r below hr =>
    (h r ⟨hr, hq.2.trans_ge below⟩).1
  have upper : I.hi ≤ J.hi := Bound.le_of_above hq.2 (h q hq).2 fun r above hr =>
    (h r ⟨hq.1.trans_le above, hr⟩).2
  simp [leq, (h q hq).isBottom, lower, upper]

end Interval

/-! ## Values -/

namespace Parallelotope

variable {a b : Parallelotope} {cfg : Settings} {W : Parallelotope → Prop} {mayFail : Prop}

/-- Whether every row holds over a frame.  The answer "yes" is right; without rounding the answer
"no" is right for the rational points, too. -/
theorem exists_insideRows (cfg : Settings) {f : Frame} {n : ℕ} (regular : f.Regular n) {rows : List Direction}
    (length : ∀ d ∈ rows, d.1.length = n) :
    ∃ r, insideRows cfg f rows = .ok r ∧
      (r = true → ∀ x : ℕ → K, f.Has x → ∀ d ∈ rows, d.2.Has (d.1.eval x)) ∧
      (cfg.precision = .exact → f.Filled →
        (∀ x : ℕ → ℚ, f.Has x → ∀ d ∈ rows, d.2.Has (d.1.eval x)) → r = true) := by
  induction rows with
  | nil => exact ⟨true, rfl, by simp, by simp⟩
  | cons row rows ih =>
    obtain ⟨r, I⟩ := row
    obtain ⟨first, rest⟩ := List.forall_mem_cons.mp length
    obtain ⟨answer, run, sound, complete⟩ := ih rest
    simp only [List.forall_mem_cons]
    by_cases free : I.isTop
    · refine ⟨answer, by rw [insideRows, if_pos free, run], ?_, ?_⟩
      · exact fun yes x has => ⟨Interval.has_of_isTop free, sound yes x has⟩
      · exact fun exact filled inside => complete exact filled fun x has => (inside x has).2
    · obtain ⟨J, bounded, has⟩ := regular.exists_boundDirection (K := K) cfg first
      by_cases included : J.leq I
      · refine ⟨answer, ?_, ?_, ?_⟩
        · rw [insideRows, if_neg free, bounded, ok_bind, if_pos included, run]
        · exact fun yes x hx => ⟨Interval.leq_has included (has x hx), sound yes x hx⟩
        · exact fun exact filled inside => complete exact filled fun x has => (inside x has).2
      · refine ⟨false, ?_, by simp, ?_⟩
        · rw [insideRows, if_neg free, bounded, ok_bind, if_neg included]
          rfl
        · -- Every number in the range is attained at a point, so the range would be included.
          intro exact filled inside
          obtain ⟨J', bounded', has'⟩ := regular.exists_boundDirection (K := ℚ) cfg first
          obtain rfl := Except.ok.inj (bounded.symm.trans bounded')
          obtain ⟨x, hx⟩ := regular.exists_has (K := ℚ) filled
          refine absurd (Interval.leq_of_has ⟨_, has' x hx⟩ fun q hq => ?_) included
          obtain ⟨y, hy, rfl⟩ := regular.exists_of_boundDirection filled exact first bounded hq
          exact (inside y hy).1

theorem leq_total (ha : a.Shaped False) (hb : b.Shaped False) (space : a.space = b.space) :
    Op.Meets W W mayFail (a.leq cfg b) fun r =>
      (r = true → ∀ x : ℕ → K, a.Has x → b.Has x) ∧
      (cfg.precision = .exact → a.Filled → (∀ x : ℕ → ℚ, a.Has x → b.Has x) → r = true) := by
  unfold leq
  refine (Op.meets_lift_ok (P := fun _ => True) (if_pos space) trivial).bind fun _ _ => ?_
  split
  · rename_i empty
    exact Op.meets_pure ⟨fun _ x has => absurd has (not_has_of_none empty x), fun _ _ _ => rfl⟩
  · rename_i f hf empty
    refine Op.meets_pure ⟨nofun, fun _ filled inside => ?_⟩
    -- With a rational in each range the value has a point, which the empty set has not.
    obtain ⟨x, hx⟩ := (ha f hf).1.exists_has (K := ℚ) (filled f hf)
    exact absurd (inside x ((has_iff_of_frame hf).mpr hx)) (not_has_of_none empty x)
  · rename_i f g hf hg
    obtain ⟨regular, -⟩ := hb g hg
    split
    · rename_i free
      refine Op.meets_pure ⟨fun _ x _ => ?_, fun _ _ _ => rfl⟩
      rw [has_iff_of_frame hg]
      exact Frame.has_of_isTop free
    · refine (Op.invert_meets (ha f hf).1).bind ?_
      rintro _ ⟨w, regular', rfl⟩
      have length : ∀ d ∈ g.rows, d.1.length = a.space.size := fun d hd =>
        space ▸ regular.axes.shape.width d.1 (List.of_mem_zip hd).1
      obtain ⟨r, run, sound, complete⟩ := exists_insideRows (K := K) cfg regular' length
      refine Op.meets_lift_ok run ⟨fun yes x has => ?_, fun exact filled inside => ?_⟩
      · rw [has_iff_of_frame hg]
        exact sound yes x ((has_iff_of_frame hf).mp has)
      · refine complete exact (filled f hf) fun x has => ?_
        exact (has_iff_of_frame hg).mp (inside x ((has_iff_of_frame hf).mpr has))

theorem equal_total (ha : a.Shaped False) (hb : b.Shaped False) (space : a.space = b.space) :
    Op.Meets W W mayFail (a.equal cfg b) fun r =>
      (r = true → ∀ x : ℕ → K, a.Has x ↔ b.Has x) ∧
      (cfg.precision = .exact → a.Filled → b.Filled → (∀ x : ℕ → ℚ, a.Has x ↔ b.Has x) →
        r = true) := by
  unfold equal
  refine (leq_total (K := K) ha hb space).bind fun r forward => ?_
  cases r with
  | false =>
    refine Op.meets_pure ⟨nofun, fun exact filled _ same => ?_⟩
    exact forward.2 exact filled fun x => (same x).mp
  | true =>
    refine (Op.about_meets (leq_total (K := K) hb ha space.symm)).imp fun r backward => ⟨?_, ?_⟩
    · exact fun yes x => ⟨forward.1 rfl x, backward.1 yes x⟩
    · exact fun exact _ filled same => backward.2 exact filled fun x => (same x).mpr

theorem has_of_leq (ha : a.WellFormed) (hb : b.WellFormed) (space : a.space = b.space)
    (yes : (a.leq cfg b).Yields (· = true)) {x : ℕ → K} (hx : a.Has x) : b.Has x := by
  obtain ⟨r, report, run, yes⟩ := yes
  have answer : Op.Meets (fun _ => True) (fun _ => True) True (a.leq cfg b) _ :=
    leq_total (K := K) ha.weaken hb.weaken space
  exact (answer.of_start run).1 yes x hx

theorem has_iff_of_equal (ha : a.WellFormed) (hb : b.WellFormed) (space : a.space = b.space)
    (yes : (a.equal cfg b).Yields (· = true)) (x : ℕ → K) : a.Has x ↔ b.Has x := by
  obtain ⟨r, report, run, yes⟩ := yes
  have answer : Op.Meets (fun _ => True) (fun _ => True) True (a.equal cfg b) _ :=
    equal_total (K := K) ha.weaken hb.weaken space
  exact (answer.of_start run).1 yes x

theorem leq_yields (ha : a.WellFormed) (hb : b.WellFormed) (space : a.space = b.space)
    (exact : cfg.precision = .exact) (filled : a.Filled) :
    (a.leq cfg b).Yields fun r => r = true ↔ ∀ x : ℕ → ℚ, a.Has x → b.Has x := by
  obtain ⟨r, report, run, sound, complete⟩ :=
    (leq_total (K := ℚ) (W := fun _ => True) ha.weaken hb.weaken space).yields
  exact ⟨r, report, run, sound, complete exact filled⟩

/-- Without rounding, and where every range holds a rational, the inclusion test decides inclusion of
the rational points, so that it is reflexive and transitive, and the equality test decides equality of
the rational points.  With rounding a positive answer is still right. -/
theorem inclusion_decided (cfg : Settings) {a b : Parallelotope} (ha : a.WellFormed)
    (hb : b.WellFormed) (space : a.space = b.space) :
    (cfg.precision = .exact → a.Filled → b.Filled →
      (a.leq cfg b).Yields (fun r => r = true ↔ ∀ x : ℕ → ℚ, a.Has x → b.Has x) ∧
      (a.equal cfg b).Yields (fun r => r = true ↔ ∀ x : ℕ → ℚ, a.Has x ↔ b.Has x) ∧
      (a.leq cfg a).Yields (· = true) ∧
      ∀ c : Parallelotope, c.WellFormed → b.space = c.space → c.Filled →
        (a.leq cfg b).Yields (· = true) → (b.leq cfg c).Yields (· = true) →
        (a.leq cfg c).Yields (· = true)) ∧
    ((a.leq cfg b).Yields (· = true) → ∀ x : ℕ → K, a.Has x → b.Has x) := by
  refine ⟨fun exact filled filled' => ⟨leq_yields ha hb space exact filled, ?_, ?_, ?_⟩,
    fun yes x => has_of_leq ha hb space yes⟩
  · obtain ⟨r, report, run, right, complete⟩ :=
      (equal_total (K := ℚ) (W := fun _ => True) ha.weaken hb.weaken space).yields
    exact ⟨r, report, run, right, complete exact filled filled'⟩
  · obtain ⟨r, report, run, decides⟩ := leq_yields ha ha rfl exact filled
    exact ⟨r, report, run, decides.mpr fun _ => id⟩
  · intro c hc space' _ first second
    obtain ⟨r, report, run, decides⟩ := leq_yields ha hc (space.trans space') exact filled
    exact ⟨r, report, run, decides.mpr fun x has =>
      has_of_leq hb hc space' second (has_of_leq ha hb space first has)⟩

/-- The square `0 ≤ x ≤ 2`, `0 ≤ y ≤ 2`. -/
def squareSample : Parallelotope :=
  ⟨⟨0, 2⟩, some ⟨[[1, 0], [0, 1]], [⟨.fin 0, .fin 2⟩, ⟨.fin 0, .fin 2⟩], none⟩⟩

/-- The band `-2 ≤ x - y ≤ 2`, `x + y ≥ 0`, which holds the square. -/
def bandSample : Parallelotope :=
  ⟨⟨0, 2⟩, some ⟨[[1, -1], [1, 1]], [⟨.fin (-2), .fin 2⟩, ⟨.fin 0, .posInf⟩], none⟩⟩

theorem squareSample_wellFormed : squareSample.WellFormed := by
  refine shaped_mk (Frame.regular_of_invert? ⟨rfl, by decide⟩ rfl ?_) fun _ => ?_
  · decide +kernel
  · decide +kernel

theorem bandSample_wellFormed : bandSample.WellFormed := by
  refine shaped_mk (Frame.regular_of_invert? ⟨rfl, by decide⟩ rfl ?_) fun _ => ?_
  · decide +kernel
  · decide +kernel

/-- The square lies in the band, so the test says, and the band does not lie in the square. -/
theorem inclusion_decided_sample :
    (squareSample.leq {} bandSample).Yields (fun r => r = true ↔
      ∀ x : ℕ → ℚ, squareSample.Has x → bandSample.Has x) ∧
    (bandSample.equal {} squareSample).Yields (fun r => r = true ↔
      ∀ x : ℕ → ℚ, bandSample.Has x ↔ squareSample.Has x) ∧
    ∀ x : ℕ → ℚ, squareSample.Has x → bandSample.Has x := by
  have square : squareSample.Filled := filled_mk (by decide)
  have band : bandSample.Filled := filled_mk (by decide)
  have forward := inclusion_decided (K := ℚ) {} squareSample_wellFormed bandSample_wellFormed rfl
  have backward := inclusion_decided (K := ℚ) {} bandSample_wellFormed squareSample_wellFormed rfl
  refine ⟨(forward.1 rfl square band).1, (backward.1 rfl band square).2.1, forward.2 ?_⟩
  exact ⟨true, _, Prod.ext (by decide +kernel) rfl, rfl⟩

end Parallelotope

end SkewBox
