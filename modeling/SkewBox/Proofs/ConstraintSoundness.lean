import SkewBox.Proofs.ExactConstraints
import SkewBox.Proofs.Linearization
import SkewBox.Proofs.Places
import SkewBox.Proofs.Refusals
import SkewBox.Proofs.SquareRoots

/-!
# Intersection with constraints keeps the solutions

Every constraint becomes a direction that its solutions satisfy: interval coefficients are replaced by
rational ones that enclose them on the value, a strict inequality by a weak one, and a congruence or a
disequality by nothing.  All this succeeds on constraints within the space; a constraint on a term fails
only where a square root is too large.

* `Constraint.Solved`: the points of a constraint on a term.
* `Parallelotope.Follow`: directions that hold at the points of a set.
* `Parallelotope.meetAffine_narrows`, `meetTerm_narrows`: the solutions are kept and nothing is added.
-/

namespace SkewBox

variable {K : Type*} [Field K] [LinearOrder K] {W W' : Parallelotope → Prop}

/-! ## Constraints without variables -/

/-- Some value that the term takes at `x` satisfies the constraint. -/
def Constraint.Solved (c : Constraint Term) (x : ℕ → K) : Prop :=
  ∃ v, c.expr.Takes x v ∧ c.rel.HoldsOf c.modulus v

variable [IsStrictOrderedRing K]

theorem Relation.mayHold_of_has {r : Relation} {I : Interval} {modulus : Option ℚ} {v : K} (hv : I.Has v)
    (holds : r.HoldsOf modulus v) : r.mayHold I modulus := by
  simp only [mayHold, hv.isBottom, Bool.false_eq_true, if_false]
  cases r with
  | eq =>
    obtain rfl : v = 0 := holds
    exact Interval.has_zero_iff.mp hv
  | ge =>
    have above : I.hi.Above ((0 : ℚ) : K) := Bound.Above.trans_ge hv.2 (by simpa [HoldsOf] using holds)
    simpa using Bound.above_ratCast.mp above
  | gt =>
    rw [decide_eq_true_eq]
    refine not_le.mp fun below => not_le_of_gt holds ?_
    simpa using hv.2.mono below
  | ne =>
    rw [Bool.not_eq_true', Bool.eq_false_iff]
    exact fun zero => holds (hv.eq_zero zero)
  | congr =>
    -- Only a number and a modulus other than zero decide anything.
    by_cases point : I.isPoint
    · have number := Interval.eq_point point
      generalize I.midpoint = q at number
      subst number
      obtain rfl := Interval.point_has.mp hv
      cases modulus with
      | none => rfl
      | some m =>
        by_cases zero : m = 0
        · simp [congruent?, Interval.point, zero]
        · exact (Constraint.congruent?_point zero).mpr (holds m rfl)
    · have undecided : congruent? I modulus = none := by
        unfold congruent?
        split
        · exact if_neg fun both => point both.1
        · rfl
      simp [undecided]

theorem Constraint.HoldsAt.mayHold {c : Constraint Affine} {x : ℕ → K} (holds : c.HoldsAt x)
    (constant : c.expr.isConstant) : c.rel.mayHold c.expr.const c.modulus := by
  obtain ⟨v, takes, relates⟩ := holds
  exact Relation.mayHold_of_has (takes.const_has constant) relates

/-! ## Rational coefficients -/

theorem Entries.mem_of_mem_collect {β : Type} {entries : List (ℕ × β)} {entry : ℕ × β}
    (h : entry ∈ collect entries) : entry ∈ entries := by
  have among : ∀ e ∈ collect entries, e ∈ entries := by
    refine List.foldlRecOn (motive := fun acc : List (ℕ × β) => ∀ e ∈ acc, e ∈ entries) entries _
      (by simp) fun acc old new hnew e he => ?_
    rcases mem_put he with rfl | before
    · exact hnew
    · exact old e before
  exact among entry h

theorem Affine.mem_of_mem_make {terms : List (ℕ × Interval)} {const : Interval} {t : ℕ × Interval}
    (h : t ∈ (make terms const).terms) : t ∈ terms :=
  Entries.mem_of_mem_collect (List.mem_of_mem_filter h)

section Coefficients

variable {e f : Affine} {P : Interval → Prop}

theorem Affine.forall_coeff_map (he : ∀ t ∈ e.terms, P t.2) {g : Interval → Interval}
    (keeps : ∀ I, P I → P (g I)) (const : Interval) :
    ∀ t ∈ (make (e.terms.map fun (d, c) => (d, g c)) const).terms, P t.2 := by
  intro t ht
  obtain ⟨u, hu, rfl⟩ := List.mem_map.mp (mem_of_mem_make ht)
  exact keeps _ (he u hu)

theorem Affine.forall_coeff_add (he : ∀ t ∈ e.terms, P t.2) (hf : ∀ t ∈ f.terms, P t.2)
    (keeps : ∀ I J, P I → P J → P (I.add .exact J)) : ∀ t ∈ (e.add f).terms, P t.2 := by
  intro t ht
  -- The coefficients of `f` are added to those of `e` one by one.
  refine List.foldlRecOn (motive := fun acc : List (ℕ × Interval) => ∀ t ∈ acc, P t.2) f.terms _
    he (fun acc old term mem t ht => ?_) t (mem_of_mem_make ht)
  rcases Entries.mem_put ht with rfl | before
  · dsimp only
    split
    · rename_i c' found
      exact keeps _ _ (old _ (Entries.mem_of_lookup found)) (hf term mem)
    · exact hf term mem
  · exact old t before

end Coefficients

namespace Parallelotope

variable {cfg : Settings} {a : Parallelotope} {e : Affine} {S T : (ℕ → K) → Prop}

theorem exists_dense (inside : ∀ t ∈ e.terms, t.1 < a.space.size) (scalar : e.isScalar) :
    ∃ r, e.dense a.space.size = .ok r := by
  have small := not_le.mpr (Affine.maxDim_lt inside)
  exact ⟨_, by rw [Affine.dense, scalar, Bool.not_true, if_neg Bool.false_ne_true, if_neg small]⟩

theorem boundDimension_total (regular : a.Shaped False) {d : ℕ} (inside : d < a.space.size) :
    Op.Meets W W False (a.boundDimension cfg (.int d)) fun _ => True :=
  (boundDimension_meets (K := ℚ) regular inside.not_ge).imp fun _ _ => trivial

theorem takeMiddle_total (regular : a.Shaped False) {sum : List (ℕ × Interval) × Interval}
    {term : ℕ × Interval} (inside : term.1 < a.space.size)
    (fits : ∀ t ∈ sum.1, t.2.isPoint ∧ t.1 < a.space.size) :
    Op.Meets W W False (a.takeMiddle cfg sum term) fun sum' =>
      ∀ t ∈ sum'.1, t.2.isPoint ∧ t.1 < a.space.size := by
  obtain ⟨d, c⟩ := term
  unfold takeMiddle
  by_cases point : c.isPoint
  · simp only [if_pos point]
    exact Op.meets_pure (List.forall_mem_append.mpr ⟨fits, by simpa using ⟨point, inside⟩⟩)
  · simp only [if_neg point]
    refine (boundDimension_total regular inside).bind fun range _ => Op.meets_pure ?_
    refine List.forall_mem_append.mpr ⟨fits, ?_⟩
    simpa [Interval.point, Interval.isPoint, Bound.isFinite] using inside

/-- An expression within the space has one with rational coefficients within the space that encloses it
on the value. -/
theorem quasiLinearize_total (regular : a.Shaped False) (inside : ∀ t ∈ e.terms, t.1 < a.space.size) :
    Op.Meets W W False (a.quasiLinearize cfg e) fun e' =>
      ((e.isScalar → e' = e) ∧ ∀ x : ℕ → K, a.Points x → ∀ v, e.Takes x v → e'.Takes x v) ∧
        ∃ r, e'.dense a.space.size = .ok r := by
  refine Op.meets_iff_ends.mpr ((quasiLinearize_meets regular).and_ends (Op.meets_iff_ends.mp ?_))
  unfold quasiLinearize
  rw [checkAffine_eq_ok inside]
  refine (Op.meets_lift_ok (P := fun _ => True) rfl trivial).bind fun _ _ => ?_
  by_cases scalar : e.isScalar
  · simp only [if_pos scalar]
    exact Op.meets_pure (exists_dense inside scalar)
  · simp only [if_neg scalar]
    refine (Op.meets_foldlM (fun _ sum => ∀ t ∈ sum.1, t.2.isPoint ∧ t.1 < a.space.size) (by simp)
      fun done term sum part fits => takeMiddle_total regular ?_ fits).bind fun sum fits => ?_
    · exact inside term (part.subset (List.mem_append_right _ (List.mem_singleton_self term)))
    · refine Op.inexact_meets.bind fun _ _ => Op.meets_pure (exists_dense (fun t ht => ?_) ?_)
      · exact (fits t (Affine.mem_of_mem_make ht)).2
      · exact List.all_eq_true.mpr fun t ht => (fits t (Affine.mem_of_mem_make ht)).1

/-! ## Directions -/

/-- The directions fit the space and hold on `S`; there are none only if nothing is in `S`. -/
def Follow (s : Space) (S : (ℕ → K) → Prop) : Option (List Direction) → Prop
  | none => ∀ x, ¬ S x
  | some dirs => ∀ d ∈ dirs, d.1.length = s.size ∧ ∀ x, S x → d.2.Has (d.1.eval x)

omit [IsStrictOrderedRing K] in
theorem Follow.anti {s : Space} {found : Option (List Direction)} (h : Follow s S found)
    (sub : ∀ x, T x → S x) : Follow s T found := by
  cases found with
  | none => exact fun x hx => h x (sub x hx)
  | some dirs => exact fun d hd => ⟨(h d hd).1, fun x hx => (h d hd).2 x (sub x hx)⟩

omit [IsStrictOrderedRing K] in
theorem Follow.append {s : Space} {dirs : List Direction} {found : Option (List Direction)}
    (first : Follow s S (some dirs)) (rest : Follow s S found) : Follow s S (found.map (dirs ++ ·)) := by
  cases found with
  | none => exact rest
  | some others => exact List.forall_mem_append.mpr ⟨first, rest⟩

/-- A strict lower end of a row moves up to the next integer where the row takes integers only. -/
theorem strictEnd_below {s : Space} {r : Vec} {lo : Bound} {x : ℕ → K} {w : K} (admits : s.Admits x)
    (low : lo.Below w) (strict : w < r.eval x) : (strictEnd cfg s r lo).Below (r.eval x) := by
  have weak : lo.Below (r.eval x) := low.trans_le strict.le
  cases lo with
  | negInf => exact weak
  | posInf => exact weak
  | fin q =>
    simp only [strictEnd]
    split
    · rename_i integral
      rw [Bool.and_eq_true] at integral
      obtain ⟨z, value⟩ := Space.integral_eval integral.2 admits
      rw [value] at strict ⊢
      have below : (q : K) < ((z : ℚ) : K) := by
        rw [Rat.cast_intCast]
        exact lt_of_le_of_lt low strict
      have next : q.floor + 1 ≤ z := Int.floor_lt.mpr (Rat.cast_lt.mp below)
      rw [Bound.fin_below]
      exact_mod_cast next
    · exact weak

theorem directionOf?_follow (regular : a.Shaped False) {c : Constraint Affine}
    (inside : ∀ t ∈ c.expr.terms, t.1 < a.space.size) :
    Op.Meets W W False (a.directionOf? cfg c) fun d =>
      Follow a.space (fun x : ℕ → K => a.Points x ∧ c.HoldsAt x) (some d.toList) := by
  unfold directionOf?
  refine (quasiLinearize_total (K := K) regular inside).bind ?_
  rintro e ⟨⟨-, encloses⟩, r, dense⟩
  refine (Op.meets_lift_ok dense rfl).bind ?_
  rintro _ rfl
  have length := (Affine.dense_eq_ok (K := K) dense).1
  -- All relations go the same way: a value that satisfies the constraint differs from the row by a member
  -- of the constant.
  have single : ∀ I : Interval, (∀ x : ℕ → K, a.Points x → ∀ v, e.const.Has (v - r.eval x) →
      c.rel.HoldsOf c.modulus v → I.Has (r.eval x)) →
      Follow a.space (fun x : ℕ → K => a.Points x ∧ c.HoldsAt x) (some [(r, I)]) := by
    refine fun I holds d hd => List.mem_singleton.mp hd ▸ ⟨length, ?_⟩
    rintro x ⟨points, v, takes, relates⟩
    exact holds x points v ((Affine.takes_iff_of_dense dense).mp (encloses x points v takes)) relates
  cases rel : c.rel with
  | ge =>
    refine Op.meets_pure (single _ fun x _ v has relates => ⟨?_, trivial⟩)
    have nonneg : 0 ≤ v := by simpa [rel, Relation.HoldsOf] using relates
    have low := Bound.neg_below.mpr has.2
    exact low.trans_le (by linarith)
  | gt =>
    refine Op.meets_pure (single _ fun x points v has relates => ⟨?_, trivial⟩)
    have pos : 0 < v := by simpa [rel, Relation.HoldsOf] using relates
    exact strictEnd_below points.1 (Bound.neg_below.mpr has.2) (by linarith)
  | eq =>
    refine Op.meets_pure (single _ fun x _ v has relates => ?_)
    obtain rfl : v = 0 := by simpa [rel, Relation.HoldsOf] using relates
    rw [zero_sub] at has
    exact ⟨by simpa using Bound.neg_below.mpr has.2, by simpa using Bound.neg_above.mpr has.1⟩
  | congr => exact Op.inexact_meets.bind fun _ _ => Op.meets_pure (by simp [Follow])
  | ne => exact Op.inexact_meets.bind fun _ _ => Op.meets_pure (by simp [Follow])

theorem rawDirections_follow (regular : a.Shaped False) {cs : List (Constraint Affine)}
    (inside : ∀ c ∈ cs, ∀ t ∈ c.expr.terms, t.1 < a.space.size) :
    Op.Meets W W False (rawDirections cfg a cs)
      (Follow a.space fun x : ℕ → K => a.Points x ∧ ∀ c ∈ cs, c.HoldsAt x) := by
  induction cs with
  | nil => exact Op.meets_pure (by simp [Follow])
  | cons c rest ih =>
    obtain ⟨first, others⟩ := List.forall_mem_cons.mp inside
    have later : ∀ x : ℕ → K, (a.Points x ∧ ∀ c' ∈ c :: rest, c'.HoldsAt x) →
        a.Points x ∧ ∀ c' ∈ rest, c'.HoldsAt x := fun x both =>
      ⟨both.1, (List.forall_mem_cons.mp both.2).2⟩
    have here : ∀ x : ℕ → K, (a.Points x ∧ ∀ c' ∈ c :: rest, c'.HoldsAt x) →
        a.Points x ∧ c.HoldsAt x := fun x both =>
      ⟨both.1, (List.forall_mem_cons.mp both.2).1⟩
    unfold rawDirections
    simp only [if_neg (not_le.mpr (Affine.maxDim_lt first))]
    by_cases constant : c.expr.isConstant
    · simp only [if_pos constant]
      split
      · exact (ih others).imp fun found follow => follow.anti later
      · rename_i fails
        -- A constraint that cannot hold has no points, and those behind it are not looked at.
        exact Op.meets_pure fun x both => fails ((here x both).2.mayHold constant)
    · simp only [if_neg constant]
      refine (directionOf?_follow (K := K) regular first).bind fun d direction => ?_
      refine (ih others).bind fun found follow => Op.meets_pure ?_
      exact (direction.anti here).append (follow.anti later)

theorem constraintDirections_follow (regular : a.Shaped False) {cs : List (Constraint Affine)}
    (inside : ∀ c ∈ cs, ∀ t ∈ c.expr.terms, t.1 < a.space.size) :
    Op.Meets W W False (constraintDirections cfg a cs)
      (Follow a.space fun x : ℕ → K => a.Points x ∧ ∀ c ∈ cs, c.HoldsAt x) := by
  unfold constraintDirections
  refine (rawDirections_follow (K := K) regular inside).bind fun raw follow => Op.meets_pure ?_
  cases raw with
  | none => exact follow
  | some dirs =>
    -- Merging fails only where no point satisfies the directions.
    have merges : ∀ x : ℕ → K, (a.Points x ∧ ∀ c ∈ cs, c.HoldsAt x) → _ := fun x hx =>
      exists_mergeDirections (p := cfg.precision) fun d hd => (follow d hd).2 x hx
    rw [Option.bind_some]
    cases eq : mergeDirections cfg.precision dirs with
    | none =>
      intro x hx
      obtain ⟨merged, some, -⟩ := merges x hx
      exact absurd (eq.symm.trans some) nofun
    | some merged =>
      intro d hd
      refine ⟨length_of_mergeDirections eq (fun d hd => (follow d hd).1) d hd, fun x hx => ?_⟩
      obtain ⟨merged', some, has⟩ := merges x hx
      obtain rfl := Option.some.inj (some.symm.trans eq)
      exact has d hd

/-! ## Affine constraints -/

theorem meetAffine_narrows (ha : a.WellFormed) {cs : List (Constraint Affine)}
    (inside : ∀ c ∈ cs, ∀ t ∈ c.expr.terms, t.1 < a.space.size) :
    Op.Keeps True False (a.meetAffine cfg cs)
      (a.Narrows True fun x : ℕ → K => ∀ c ∈ cs, c.HoldsAt x) := by
  unfold meetAffine
  cases hf : a.frame? with
  | none => exact Op.meets_pure (narrows_self ha)
  | some f =>
    obtain ⟨regular, ordered⟩ := ha f hf
    refine (constraintDirections_follow (K := K) ha.weaken inside).bind fun found follow => ?_
    cases found with
    | none =>
      refine Op.move_meets (shaped_bottom _)
        ⟨rfl, shaped_bottom _, fun x admits has holds => ?_, fun x has => ?_⟩
      · exact absurd ⟨⟨admits, has⟩, holds⟩ (follow x)
      · exact absurd has (not_has_of_none rfl x)
    | some dirs =>
      have width : ∀ d ∈ dirs, d.1.length = a.space.size := fun d hd => (follow d hd).1
      dsimp only
      split
      · rename_i top
        -- A value without restrictions has every point, so nothing can be added to it.
        have everywhere : ∀ x : ℕ → K, a.Has x := fun x =>
          (has_iff_of_frame hf).mpr (Frame.has_of_isTop (by simpa [isTop, hf] using top))
        refine (seed_meets (K := K) width).bind fun b covers => ?_
        refine Op.move_meets covers.wellFormed
          ⟨covers.space, covers.wellFormed, fun x admits has holds => ?_, fun x _ => everywhere x⟩
        exact covers.has x admits fun d hd => (follow d hd).2 x ⟨⟨admits, has⟩, holds⟩
      · refine (Op.kept_meets regular).bind ?_
        rintro g ⟨regular', ranges, axes⟩
        have same : ∀ x : ℕ → K, g.Has x ↔ a.Has x := fun x => by
          rw [has_iff_of_frame hf, Frame.Has, Frame.Has, Frame.rows, Frame.rows, ranges, axes]
        have ordered' : g.Ordered := fun I hI => ordered trivial I (ranges ▸ hI)
        refine (regular'.meetAll_keeps (K := K) (fun _ => ordered') width).bind fun c narrows => ?_
        refine Op.put_meets narrows.shaped.toParallelotope
          ⟨rfl, narrows.shaped.toParallelotope, fun x admits has holds => ?_, fun x has => ?_⟩
        · refine Cut.toParallelotope_has.mpr (narrows.keeps x admits ((same x).mpr has) fun d hd => ?_)
          exact (follow d hd).2 x ⟨⟨admits, has⟩, holds⟩
        · exact (same x).mp (narrows.within x (Cut.toParallelotope_has.mp has))

end Parallelotope

/-! ## Terms -/

namespace Interval

theorem sqrtBelow_error {b : Bound} {e : Error} (h : sqrtBelow b = .error e) : e = .fault .overflow := by
  unfold sqrtBelow at h
  split at h
  · split at h
    · contradiction
    · exact (Except.error.inj h).symm
  · exact (Except.error.inj h).symm

theorem sqrtAbove_error {b : Bound} {e : Error} (h : sqrtAbove b = .error e) : e = .fault .overflow := by
  unfold sqrtAbove at h
  split at h
  · split at h
    · contradiction
    · exact (Except.error.inj h).symm
  · contradiction

theorem sqrt_error {I : Interval} {e : Error} (h : I.sqrt = .error e) : e = .fault .overflow := by
  -- The upper end is computed on both ways through, and may be the one that is too large.
  have upper : ∀ lo : ℚ, (sqrtAbove I.hi >>= fun hi => pure ⟨.fin lo, hi⟩ : Except Error Interval) =
      .error e → e = .fault .overflow := by
    intro lo h
    cases high : sqrtAbove I.hi with
    | error e' =>
      rw [high] at h
      exact Except.error.inj h ▸ sqrtAbove_error high
    | ok hi =>
      rw [high] at h
      contradiction
  unfold sqrt at h
  split at h
  · contradiction
  split at h
  · exact upper 0 h
  cases low : sqrtBelow I.lo with
  | error e' =>
    rw [low] at h
    exact Except.error.inj h ▸ sqrtBelow_error low
  | ok lo =>
    rw [low] at h
    exact upper lo h

/-- A root of the range does not exist on the grid: the range starts at infinity, or a positive end is
too large to have a nearest number. -/
def Overflows (I : Interval) : Prop :=
  I.lo = .posInf ∨ ∃ q > 0, (I.lo = .fin q ∨ I.hi = .fin q) ∧ ¬ Binary64.NearFinite q

theorem overflows_of_sqrt {I : Interval} {e : Error} (h : I.sqrt = .error e) : I.Overflows := by
  by_contra fits
  obtain ⟨start, ends⟩ := not_or.mp fits
  obtain ⟨J, ok⟩ := exists_sqrt (lt_of_le_of_ne (Bound.le_posInf _) start) fun q q0 isEnd =>
    not_not.mp fun large => ends ⟨q, q0, isEnd, large⟩
  cases ok.symm.trans h

end Interval

namespace Parallelotope

variable {cfg : Settings} {a : Parallelotope}

/-- Below some root of the term, the range that is found on the value is too large for a root. -/
def RootOverflows (cfg : Settings) (a : Parallelotope) (t : Term) : Prop :=
  ∃ u ∈ t.roots, ∃ I : Interval, (∃ report, (a.boundTerm cfg u report).1 = .ok I) ∧ I.Overflows

/-- A constraint on a term becomes one on an affine expression that its solutions on the value satisfy. -/
theorem linearizeConstraint_ends (regular : a.Shaped False) (full : ¬ a.isBottom) {c : Constraint Term}
    (inside : ∀ d ∈ c.expr.dims, d < a.space.size) (modulus : c.rel = .congr → c.modulus ≠ none) :
    Op.Ends W W (fun e => e = .fault .overflow ∧ a.RootOverflows cfg c.expr)
      (a.linearizeConstraint cfg c) fun c' =>
      (∀ t ∈ c'.expr.terms, t.1 < a.space.size) ∧
        ∀ x : ℕ → K, a.Points x → c.Solved x → c'.HoldsAt x := by
  have linear : Op.Ends (fun _ => True) (fun _ => True)
      (fun e => e = .fault .overflow ∧ a.RootOverflows cfg c.expr) (a.linearize cfg c.expr)
      fun e : Affine => e.Over (List.range a.space.size) := by
    unfold linearize
    rw [if_neg (not_le.mpr (Term.maxDim_lt inside))]
    refine Term.linearize_ends (fun e he => ?_) (fun u hu I e ran failed => ?_)
      fun d hd => List.mem_range.mpr (inside d hd)
    swap
    · refine ⟨Interval.sqrt_error failed, u, hu, I, ?_, Interval.overflows_of_sqrt failed⟩
      have within : u.maxDim < a.space.size :=
        Term.maxDim_lt fun d hd => inside d (Term.dims_of_mem_roots hu hd)
      simpa only [boundTerm, if_neg full, linearize, if_neg (not_le.mpr within)] using ran
    refine ((boundAffine_total (K := ℚ) cfg regular fun t ht => ?_).imp fun _ _ => trivial).ends
    exact List.mem_range.mp (he (List.mem_map_of_mem ht))
  unfold linearizeConstraint
  -- One fact tells which values are taken, the other where the linearisation may fail.
  refine ((linearize_meets (K := K) regular c.expr).and_ends linear).bind ?_
  rintro e ⟨takes, mentions⟩
  have made : Constraint.make e c.rel c.modulus = .ok ⟨e, c.rel, c.modulus⟩ :=
    if_neg fun both => modulus both.1 both.2
  refine (Op.meets_lift_ok made ⟨fun t ht => ?_, fun x points solved => ?_⟩).ends
  · exact List.mem_range.mp (mentions (List.mem_map_of_mem ht))
  · obtain ⟨v, value, relates⟩ := solved
    exact ⟨v, takes x points v value, relates⟩

/-- Intersection with constraints on terms within the space keeps the points that satisfy them and adds
none, unless a root is too large. -/
theorem meetTerm_narrows (ha : a.WellFormed) {cs : List (Constraint Term)}
    (inside : ∀ c ∈ cs, ∀ d ∈ c.expr.dims, d < a.space.size)
    (modulus : ∀ c ∈ cs, c.rel = .congr → c.modulus ≠ none) :
    Op.Ends (·.Shaped True) (·.Shaped True)
      (fun e => e = .fault .overflow ∧ ∃ c ∈ cs, a.RootOverflows cfg c.expr) (a.meetTerm cfg cs)
      (a.Narrows True fun x : ℕ → K => ∀ c ∈ cs, c.Solved x) := by
  unfold meetTerm
  by_cases empty : a.isBottom
  · simp only [if_pos empty]
    exact Op.ends_pure (narrows_self ha)
  simp only [if_neg empty]
  refine (Op.ends_mapM fun c hc => (linearizeConstraint_ends (K := K) ha.weaken empty (inside c hc)
    (modulus c hc)).mono (fun e cause => ⟨cause.1, c, hc, cause.2⟩) fun _ => id).bind fun cs' linear => ?_
  have inside' : ∀ c' ∈ cs', ∀ t ∈ c'.expr.terms, t.1 < a.space.size := fun c' hc' => by
    obtain ⟨c, -, fits, -⟩ := exists_of_mem_right linear hc'
    exact fits
  refine ((meetAffine_narrows (K := K) ha inside').imp fun b narrows => ?_).ends
  refine ⟨narrows.space, narrows.shaped, fun x admits has solved => ?_, narrows.within⟩
  refine narrows.keeps x admits has fun c' hc' => ?_
  obtain ⟨c, hc, -, follows⟩ := exists_of_mem_right linear hc'
  exact follows x ⟨admits, has⟩ (solved c hc)

end Parallelotope

end SkewBox
