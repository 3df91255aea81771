import SkewBox.Constraints
import SkewBox.Proofs.Expressions
import SkewBox.Proofs.Points

/-!
# Ranges of expressions over a value

The range of a direction, a dimension or an affine expression holds its values at every point of
integers of the value, and so does an affine expression with rational coefficients that replaces
one with interval coefficients.

* `Parallelotope.boundAffine_meets`, `linearize_meets`, `quasiLinearize_meets`.
* `Affine.dense_eq_ok`: an expression with rational coefficients as a vector.
-/

namespace SkewBox

variable {K : Type*} [Field K] [LinearOrder K]

namespace Interval

variable {I : Interval} {x : K}

theorem eq_point (point : I.isPoint) : I = .point I.midpoint := by
  obtain ⟨lo, hi⟩ := I
  simp only [isPoint, Bool.and_eq_true, decide_eq_true_eq] at point
  obtain ⟨rfl, finite⟩ := point
  cases lo with
  | fin q => simp [Interval.point, midpoint]
  | negInf => contradiction
  | posInf => contradiction

theorem has_iff_eq_midpoint (point : I.isPoint) : I.Has x ↔ x = (I.midpoint : ℚ) := by
  rw [← point_has, ← eq_point point]

theorem Has.eq_midpoint (hx : I.Has x) (point : I.isPoint) : x = (I.midpoint : ℚ) :=
  (has_iff_eq_midpoint point).mp hx

theorem midpoint_has (point : I.isPoint) : I.Has ((I.midpoint : ℚ) : K) :=
  (has_iff_eq_midpoint point).mpr rfl

end Interval

theorem Vec.free_set {terms : List (ℕ × Interval)} {term : ℕ × Interval} {r : Vec} {n : ℕ}
    (fresh : term.1 ∉ terms.map (·.1))
    (free : ∀ t ∈ term :: terms, t.1 < n ∧ r.getD t.1 0 = 0) (q : ℚ) :
    ∀ t ∈ terms, t.1 < n ∧ (r.set term.1 q).getD t.1 0 = 0 := by
  intro t ht
  obtain ⟨inside, zero⟩ := free t (List.mem_cons_of_mem _ ht)
  have other : t.1 ≠ term.1 := fun same => fresh (List.mem_map.mpr ⟨t, ht, same⟩)
  refine ⟨inside, ?_⟩
  rwa [List.getD_eq_getElem?_getD, List.getElem?_set_ne (Ne.symm other),
    ← List.getD_eq_getElem?_getD]

variable [IsStrictOrderedRing K]

namespace Frame

variable {f : Frame} {s : Space} (cfg : Settings)

theorem Regular.exists_boundDirection {n : ℕ} (regular : f.Regular n) {r : Vec}
    (length : r.length = n) :
    ∃ I, f.boundDirection cfg r = .ok I ∧ ∀ x : ℕ → K, f.Has x → I.Has (r.eval x) := by
  obtain ⟨lam, found, coords⟩ := regular.exists_coords r
  refine ⟨_, by rw [boundDirection, found, ok_bind]; rfl, fun x has => ?_⟩
  rw [← coords.eval regular.axes.shape length x]
  exact cfg.precision.dot_has (coords.length.trans regular.ranges.symm).le
    ((has_iff regular.same).mp has)

/-- The range of a dimension holds what the points have there, if these are integers at an integer
dimension. -/
theorem Regular.exists_boundDimension (regular : f.Regular s.size) {d : ℕ} (inside : d < s.size) :
    ∃ I, f.boundDimension cfg s d = .ok I ∧
      ∀ x : ℕ → K, (d < s.ints → ∃ z : ℤ, x d = z) → f.Has x → I.Has (x d) := by
  obtain ⟨w, solved, inverse⟩ := regular.exists_solve
  refine ⟨_, by rw [boundDimension, solved, ok_bind]; rfl, fun x whole has => ?_⟩
  have range : (cfg.precision.dot (w.getD d []) f.ranges).Has (x d) := by
    have fits : (w.getD d []).length ≤ f.ranges.length := by
      rw [inverse.shape.getD_length inside, regular.ranges]
    -- A dimension is the combination of the rows with the coefficients in its row of the inverse.
    rw [← inverse.image_image regular.axes.shape x inside]
    exact cfg.precision.dot_has fits ((has_iff regular.same).mp has)
  split
  · rename_i integer
    simp only [Space.isInt, Bool.and_eq_true, decide_eq_true_eq] at integer
    obtain ⟨z, value⟩ := whole integer.1
    rw [value] at range ⊢
    exact Interval.tighten_has range
  · exact range

theorem Regular.exists_splitTerm (regular : f.Regular s.size) {d : ℕ} (inside : d < s.size)
    (c : Interval) :
    ∃ rest, f.splitTerm cfg s d c = .ok (c.midpoint, rest) ∧
      ∀ x : ℕ → K, s.Admits x → f.Has x → ∀ (t : K) (I : Interval) (k : K), c.Has t → I.Has k →
        (rest.elim I (I.add cfg.precision)).Has (k + (t - (c.midpoint : ℚ)) * x d) := by
  by_cases point : c.isPoint
  · -- A rational coefficient is its own middle and leaves no rest.
    refine ⟨none, by simp [splitTerm, point, pure, Except.pure], ?_⟩
    intro x _ _ t I k ht hk
    rw [ht.eq_midpoint point, sub_self, zero_mul, add_zero]
    exact hk
  · obtain ⟨J, bounded, has⟩ := regular.exists_boundDimension (K := K) cfg inside
    refine ⟨some ((c.sub cfg.precision (.point c.midpoint)).mul cfg.precision J), ?_, ?_⟩
    · simp [splitTerm, point, bounded, pure, Except.pure]
    · intro x admits hx t I k ht hk
      have middle : (Interval.point c.midpoint).Has ((c.midpoint : ℚ) : K) :=
        Interval.point_has.mpr rfl
      exact Interval.add_has hk (Interval.mul_has (Interval.sub_has ht middle) (has x (admits d) hx))

theorem Regular.exists_addTerms (regular : f.Regular s.size) {terms : List (ℕ × Interval)}
    (distinct : (terms.map (·.1)).Nodup) {r : Vec} (length : r.length = s.size)
    (free : ∀ t ∈ terms, t.1 < s.size ∧ r.getD t.1 0 = 0) (extra : Interval) :
    ∃ r' extra', terms.foldlM (f.addTerm cfg s) (r, extra) = .ok (r', extra') ∧
      r'.length = s.size ∧
      ∀ x : ℕ → K, s.Admits x → f.Has x → ∀ v k, TermsTake terms x v → extra.Has k →
        ∃ k', extra'.Has k' ∧ r.eval x + v + k = r'.eval x + k' := by
  induction terms generalizing r extra with
  | nil =>
    refine ⟨r, extra, rfl, length, ?_⟩
    rintro x - - _ k rfl hk
    exact ⟨k, hk, by ring⟩
  | cons term terms ih =>
    obtain ⟨d, c⟩ := term
    obtain ⟨fresh, distinct⟩ := List.nodup_cons.mp distinct
    obtain ⟨inside, zero⟩ := free (d, c) (List.mem_cons_self ..)
    simp only at inside zero
    obtain ⟨rest, split, value⟩ := regular.exists_splitTerm (K := K) cfg inside c
    obtain ⟨r', extra', run, length', sums⟩ := ih distinct (r := r.set d c.midpoint)
      (by simp [length]) (Vec.free_set fresh free c.midpoint) (rest.elim extra (extra.add cfg.precision))
    refine ⟨r', extra', ?_, length', ?_⟩
    · rw [List.foldlM_cons, addTerm, split]
      exact run
    · rintro x admits has _ k ⟨t, v, ht, hv, rfl⟩ hk
      -- The middle of the coefficient goes into the direction, whose entry was zero so far, and the
      -- rest into the range.
      have direction : Vec.eval (r.set d c.midpoint) x = r.eval x + (c.midpoint : ℚ) * x d := by
        rw [Vec.eval_set (length ▸ inside), zero, sub_zero]
      obtain ⟨k', hk', total⟩ := sums x admits has v _ hv (value x admits has t extra k ht hk)
      refine ⟨k', hk', ?_⟩
      rw [← total, direction]
      ring

theorem Regular.exists_boundAffine (regular : f.Regular s.size) {e : Affine}
    (inside : ∀ t ∈ e.terms, t.1 < s.size) :
    ∃ I, f.boundAffine cfg s e = .ok I ∧
      e.BoundedBy (fun x : ℕ → K => s.Admits x ∧ f.Has x) I := by
  obtain ⟨r, extra, run, length, sums⟩ := regular.exists_addTerms (K := K) cfg e.distinct
    (r := Vec.zeros s.size) (by simp [Vec.zeros])
    (fun t ht => ⟨inside t ht, by simp [Vec.zeros, inside t ht]⟩) e.const
  obtain ⟨I, bounded, has⟩ := regular.exists_boundDirection (K := K) cfg length
  refine ⟨I.add cfg.precision extra, ?_, ?_⟩
  · rw [boundAffine, run, ok_bind]
    simp only [bounded, ok_bind]
    rfl
  · rintro x ⟨admits, hx⟩ _ ⟨v, k, hv, hk, rfl⟩
    obtain ⟨k', hk', total⟩ := sums x admits hx v k hv hk
    rw [Vec.eval_zeros, zero_add] at total
    rw [total]
    exact Interval.add_has (has x hx) hk'

end Frame

/-! ## Values -/

theorem le_foldl_max {l : List ℤ} {a b : ℤ} (h : b ≤ a ∨ b ∈ l) : b ≤ l.foldl max a := by
  induction l generalizing a with
  | nil => exact h.resolve_right List.not_mem_nil
  | cons c l ih =>
    rcases h with h | h
    · exact ih (.inl (le_trans h (le_max_left a c)))
    · rcases List.mem_cons.mp h with rfl | h
      · exact ih (.inl (le_max_right a b))
      · exact ih (.inr h)

theorem foldl_max_lt {l : List ℤ} {a b : ℤ} (first : a < b) (h : ∀ d ∈ l, d < b) :
    l.foldl max a < b := by
  induction l generalizing a with
  | nil => exact first
  | cons c l ih =>
    obtain ⟨next, rest⟩ := List.forall_mem_cons.mp h
    exact ih (max_lt first next) rest

theorem Affine.le_maxDim {e : Affine} {t : ℕ × Interval} (ht : t ∈ e.terms) :
    (t.1 : ℤ) ≤ e.maxDim :=
  le_foldl_max (.inr (List.mem_map.mpr ⟨t, ht, rfl⟩))

theorem Affine.maxDim_lt {e : Affine} {n : ℕ} (inside : ∀ t ∈ e.terms, t.1 < n) : e.maxDim < n := by
  apply foldl_max_lt (by omega)
  intro d member
  obtain ⟨t, ht, rfl⟩ := List.mem_map.mp member
  exact Int.ofNat_lt.mpr (inside t ht)

namespace Parallelotope

variable {a : Parallelotope} {cfg : Settings} {W : Parallelotope → Prop} {e : Affine}

/-- The points of integers of the value. -/
def Points (a : Parallelotope) (x : ℕ → K) : Prop := a.space.Admits x ∧ a.Has x

theorem checkAffine_eq_ok (inside : ∀ t ∈ e.terms, t.1 < a.space.size) : a.checkAffine e = .ok () :=
  if_neg (not_le.mpr (Affine.maxDim_lt inside))

theorem checkAffine_meets {mayFail : Prop} (fails : (¬ ∀ t ∈ e.terms, t.1 < a.space.size) → mayFail) :
    Op.Meets W W mayFail (liftM (a.checkAffine e) : Op Unit) fun _ =>
      ∀ t ∈ e.terms, t.1 < a.space.size := by
  unfold checkAffine
  split
  · rename_i outside
    refine Op.meets_throw _ (fails fun inside => ?_)
    exact absurd (Affine.maxDim_lt inside) (not_lt.mpr outside)
  · rename_i inside
    refine Op.meets_lift_ok rfl fun t ht => ?_
    have bound := Affine.le_maxDim ht
    omega

theorem boundAffine_meets {mayFail : Prop} (regular : a.Shaped False)
    (fails : (¬ ∀ t ∈ e.terms, t.1 < a.space.size) → mayFail) :
    Op.Meets W W mayFail (a.boundAffine cfg e) (e.BoundedBy fun x : ℕ → K => a.Points x) := by
  unfold boundAffine
  refine (checkAffine_meets fails).bind fun _ inside => ?_
  cases hf : a.frame? with
  | none =>
    exact Op.meets_pure fun x points => absurd points.2 (not_has_of_none hf x)
  | some f =>
    refine (Op.invert_meets (regular f hf).1).bind ?_
    rintro _ ⟨w, regular', rfl⟩
    obtain ⟨I, bounded, has⟩ := regular'.exists_boundAffine (K := K) cfg inside
    refine Op.meets_lift_ok bounded ?_
    rintro x ⟨admits, hx⟩ v hv
    exact has x ⟨admits, (has_iff_of_frame hf).mp hx⟩ v hv

theorem boundAffine_total (cfg : Settings) (regular : a.Shaped False)
    (inside : ∀ t ∈ e.terms, t.1 < a.space.size) :
    Op.Meets W W False (a.boundAffine cfg e) (e.BoundedBy fun x : ℕ → K => a.Points x) :=
  boundAffine_meets regular fun outside => outside inside

theorem linearize_meets (regular : a.Shaped False) (t : Term) :
    Op.Meets W W True (a.linearize cfg t) (t.LinearizedBy fun x : ℕ → K => a.Points x) := by
  unfold linearize
  split
  · exact Op.meets_throw _ trivial
  · exact Term.linearize_meets (fun e => boundAffine_meets regular fun _ => trivial) t

theorem boundDimension_meets {mayFail : Prop} (regular : a.Shaped False) {d : ℕ}
    (fails : a.space.size ≤ d → mayFail) :
    Op.Meets W W mayFail (a.boundDimension cfg (.int d)) fun I =>
      ∀ x : ℕ → K, (d < a.space.ints → ∃ z : ℤ, x d = z) → a.Has x → I.Has (x d) := by
  have refused : ∀ e, a.space.check (.int d) = .error e → mayFail := by
    intro e refused
    refine fails (not_lt.mp fun inside => ?_)
    rw [Space.check_eq_ok.mpr ⟨rfl, inside⟩] at refused
    cases refused
  unfold boundDimension
  refine (Op.meets_lift (fun _ ok => Space.check_eq_ok.mp ok) refused).bind ?_
  rintro d' ⟨same, inside⟩
  obtain rfl : d = d' := by simpa using same
  cases hf : a.frame? with
  | none =>
    exact Op.meets_pure fun x _ has => absurd has (not_has_of_none hf x)
  | some f =>
    refine (Op.invert_meets (regular f hf).1).bind ?_
    rintro _ ⟨w, regular', rfl⟩
    obtain ⟨I, bounded, has⟩ := regular'.exists_boundDimension (K := K) cfg inside
    refine Op.meets_lift_ok bounded fun x whole hx => ?_
    exact has x whole ((has_iff_of_frame hf).mp hx)

/-- A sum that takes, at the points with `S`, every value that terms take together with a
constant. -/
structure Encloses (S : (ℕ → K) → Prop) (terms : List (ℕ × Interval)) (const : Interval)
    (sum : List (ℕ × Interval) × Interval) : Prop where
  keys : sum.1.map (·.1) = terms.map (·.1)
  takes : ∀ x, S x → ∀ v k, TermsTake terms x v → const.Has k →
    ∃ v' k', TermsTake sum.1 x v' ∧ sum.2.Has k' ∧ v + k = v' + k'

theorem Encloses.append {S : (ℕ → K) → Prop} {done : List (ℕ × Interval)} {const const' c c' : Interval}
    {sum : List (ℕ × Interval) × Interval} {d : ℕ} (encloses : Encloses S done const sum)
    (exchange : ∀ x, S x → ∀ t k, c.Has t → sum.2.Has k →
      ∃ t' k', c'.Has t' ∧ const'.Has k' ∧ t * x d + k = t' * x d + k') :
    Encloses S (done ++ [(d, c)]) const (sum.1 ++ [(d, c')], const') := by
  refine ⟨by simp [encloses.keys], ?_⟩
  intro x points _ k total hk
  obtain ⟨v, _, hv, ⟨t, _, ht, rfl, rfl⟩, rfl⟩ := termsTake_append.mp total
  obtain ⟨v', k', hv', hk', same⟩ := encloses.takes x points v k hv hk
  obtain ⟨t', k'', ht', hk'', same'⟩ := exchange x points t k' ht hk'
  refine ⟨v' + t' * x d, k'', ?_, hk'', by linear_combination same + same'⟩
  exact termsTake_append.mpr ⟨v', t' * x d, hv', ⟨t', 0, ht', rfl, by ring⟩, rfl⟩

theorem takeMiddle_meets (regular : a.Shaped False) {done : List (ℕ × Interval)}
    {sum : List (ℕ × Interval) × Interval} {term : ℕ × Interval} {const : Interval}
    (encloses : Encloses (fun x : ℕ → K => a.Points x) done const sum) :
    Op.Meets W W True (a.takeMiddle cfg sum term)
      (Encloses (fun x : ℕ → K => a.Points x) (done ++ [term]) const) := by
  obtain ⟨d, c⟩ := term
  unfold takeMiddle
  by_cases point : c.isPoint
  · simp only [if_pos point]
    exact Op.meets_pure (encloses.append fun x _ t k ht hk => ⟨t, k, ht, hk, rfl⟩)
  · simp only [if_neg point]
    refine (boundDimension_meets (K := K) regular fun _ => trivial).bind fun range bounded => ?_
    refine Op.meets_pure (encloses.append fun x points t k ht hk => ?_)
    have middle : (Interval.point c.midpoint).Has ((c.midpoint : ℚ) : K) :=
      Interval.point_has.mpr rfl
    -- The chosen coefficient is its middle and a rest, which moves to the constant.
    refine ⟨(c.midpoint : ℚ), k + (t - (c.midpoint : ℚ)) * x d, middle, ?_, by ring⟩
    exact Interval.add_has hk
      (Interval.mul_has (Interval.sub_has ht middle) (bounded x (points.1 d) points.2))

/-- The expression with rational coefficients takes every value that the given one takes at a
point of the value; an expression that has rational coefficients stays. -/
theorem quasiLinearize_meets (regular : a.Shaped False) :
    Op.Meets W W True (a.quasiLinearize cfg e) fun e' =>
      (e.isScalar → e' = e) ∧ ∀ x : ℕ → K, a.Points x → ∀ v, e.Takes x v → e'.Takes x v := by
  unfold quasiLinearize
  refine (checkAffine_meets fun _ => trivial).bind fun _ _ => ?_
  by_cases scalar : e.isScalar
  · simp only [if_pos scalar]
    exact Op.meets_pure ⟨fun _ => rfl, fun _ _ _ => id⟩
  · simp only [if_neg scalar]
    -- The fold goes through the terms; the sum so far encloses those that are done.
    have start : Encloses (fun x : ℕ → K => a.Points x) [] e.const ([], e.const) :=
      ⟨rfl, fun x _ v k hv hk => ⟨v, k, hv, hk, rfl⟩⟩
    refine (Op.meets_foldlM (Encloses (fun x : ℕ → K => a.Points x) · e.const) start
      fun done term sum _ inv => takeMiddle_meets regular inv).bind fun sum encloses => ?_
    refine Op.inexact_meets.bind fun _ _ => Op.meets_pure ⟨fun h => absurd h scalar, ?_⟩
    rintro x points _ ⟨v, k, hv, hk, rfl⟩
    obtain ⟨v', k', hv', hk', same⟩ := encloses.takes x points v k hv hk
    rw [same]
    exact Affine.make_takes (encloses.keys ▸ e.distinct) hv' hk'

end Parallelotope

/-! ## Rational coefficients -/

namespace Affine

variable {e : Affine} {x : ℕ → K} {v : K}

theorem eval_of_termsTake {terms : List (ℕ × Interval)} (distinct : (terms.map (·.1)).Nodup)
    (points : ∀ t ∈ terms, t.2.isPoint) {r : Vec} {n : ℕ} (length : r.length = n)
    (free : ∀ t ∈ terms, t.1 < n ∧ r.getD t.1 0 = 0) (h : TermsTake terms x v) :
    Vec.eval (terms.foldl (fun v (d, c) => v.set d c.midpoint) r) x = r.eval x + v := by
  induction terms generalizing r v with
  | nil =>
    obtain rfl : v = 0 := h
    exact (add_zero _).symm
  | cons term terms ih =>
    obtain ⟨d, c⟩ := term
    obtain ⟨t, w, ht, hw, rfl⟩ := h
    obtain ⟨fresh, distinct⟩ := List.nodup_cons.mp distinct
    obtain ⟨inside, zero⟩ := free (d, c) (List.mem_cons_self ..)
    simp only at inside zero
    have points' : ∀ t ∈ terms, t.2.isPoint := fun t ht => points t (List.mem_cons_of_mem _ ht)
    rw [List.foldl_cons, ih distinct points' ((List.length_set ..).trans length)
      (Vec.free_set fresh free c.midpoint) hw, Vec.eval_set (length ▸ inside), zero, sub_zero,
      ht.eq_midpoint (points (d, c) (List.mem_cons_self ..))]
    ring

theorem dense_spec {n : ℕ} {row : Vec} (h : e.dense n = .ok row) :
    e.isScalar ∧ (∀ t ∈ e.terms, t.1 < n) ∧
      row = e.terms.foldl (fun v (d, c) => v.set d c.midpoint) (Vec.zeros n) := by
  unfold dense at h
  split at h
  · contradiction
  rename_i scalar
  split at h
  · contradiction
  rename_i inside
  refine ⟨by simpa using scalar, fun t ht => ?_, (Except.ok.inj h).symm⟩
  have bound := le_maxDim ht
  omega

theorem eval_of_dense {n : ℕ} {row : Vec} (h : e.dense n = .ok row) (terms : TermsTake e.terms x v) :
    row.eval x = v := by
  obtain ⟨scalar, inside, rfl⟩ := dense_spec h
  have points : ∀ t ∈ e.terms, t.2.isPoint := by simpa [isScalar] using scalar
  have free : ∀ t ∈ e.terms, t.1 < n ∧ (Vec.zeros n).getD t.1 0 = 0 := fun t ht =>
    ⟨inside t ht, by simp [Vec.zeros, inside t ht]⟩
  rw [eval_of_termsTake e.distinct points (by simp [Vec.zeros]) free terms, Vec.eval_zeros, zero_add]

theorem dense_eq_ok {n : ℕ} {row : Vec} (h : e.dense n = .ok row) :
    row.length = n ∧ ∀ (x : ℕ → K) v, e.Takes x v → e.const.Has (v - row.eval x) := by
  constructor
  · suffices general : ∀ (terms : List (ℕ × Interval)) (r : Vec),
        (terms.foldl (fun (v : Vec) (d, c) => v.set d c.midpoint) r).length = r.length by
      rw [(dense_spec h).2.2, general, Vec.zeros, List.length_replicate]
    intro terms
    induction terms with
    | nil => exact fun _ => rfl
    | cons term terms ih => exact fun r => (ih _).trans (List.length_set ..)
  · rintro x _ ⟨s, k, hs, hk, rfl⟩
    rwa [eval_of_dense h hs, add_sub_cancel_left]

omit [IsStrictOrderedRing K] in
theorem exists_termsTake {terms : List (ℕ × Interval)} (points : ∀ t ∈ terms, t.2.isPoint) (x : ℕ → K) :
    ∃ v, TermsTake terms x v := by
  induction terms with
  | nil => exact ⟨0, rfl⟩
  | cons term terms ih =>
    obtain ⟨d, I⟩ := term
    obtain ⟨point, rest⟩ := List.forall_mem_cons.mp points
    obtain ⟨w, hw⟩ := ih rest
    exact ⟨_, (I.midpoint : ℚ), w, Interval.midpoint_has point, hw, rfl⟩

/-- With rational coefficients, only the choice of the constant is free. -/
theorem takes_iff_of_dense {n : ℕ} {r : Vec} (h : e.dense n = .ok r) :
    e.Takes x v ↔ e.const.Has (v - r.eval x) := by
  refine ⟨(dense_eq_ok h).2 x v, fun has => ?_⟩
  obtain ⟨w, hw⟩ := exists_termsTake (by simpa [isScalar] using (dense_spec h).1) x
  refine ⟨w, v - r.eval x, hw, has, ?_⟩
  rw [eval_of_dense h hw, add_sub_cancel]

end Affine

end SkewBox
