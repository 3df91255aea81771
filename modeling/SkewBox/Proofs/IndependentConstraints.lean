import SkewBox.Proofs.Independence
import SkewBox.Proofs.MergedDirections

/-!
# Constraints on independent directions

A value without restrictions takes independent directions as its axes, all of them, so that nothing is
left to intersect with and the mark of exactness stays set.

* `Op.Silent`: computations that return and leave the mark alone.
* `Parallelotope.Independent`: directions that are linearly independent.
* `Parallelotope.constraints_met`: what intersection with constraints keeps and adds.
-/

namespace SkewBox

/-! ## The mark -/

namespace Op

variable {α β : Type} {x : Op α} {f : α → Op β} {P : α → Prop} {Q : β → Prop}

/-- The computation returns a result with `P` and leaves the mark of exactness as it is. -/
def Silent (x : Op α) (P : α → Prop) : Prop :=
  ∀ r : Report, (x r).2.exact = r.exact ∧ ∃ a, (x r).1 = .ok a ∧ P a

theorem silent_pure {a : α} (h : P a) : Silent (pure a) P := fun _ => ⟨rfl, a, rfl, h⟩

theorem Silent.bind (hx : Silent x P) (hf : ∀ a, P a → Silent (f a) Q) : Silent (x >>= f) Q := by
  intro r
  obtain ⟨mark, a, run, ha⟩ := hx r
  obtain ⟨mark', b, run', hb⟩ := hf a ha (x r).2
  rw [run_bind, run]
  exact ⟨mark'.trans mark, b, run', hb⟩

theorem Silent.imp {P' : α → Prop} (hx : Silent x P) (h : ∀ a, P a → P' a) : Silent x P' := by
  intro r
  obtain ⟨mark, a, run, ha⟩ := hx r
  exact ⟨mark, a, run, h a ha⟩

theorem silent_lift {y : Except Error α} {a : α} (ok : y = .ok a) (h : P a) :
    Silent (liftM y : Op α) P := by
  subst ok
  exact fun _ => ⟨rfl, a, rfl, h⟩

theorem silent_move {P : Parallelotope → Prop} {a : Parallelotope} (h : P a) : Silent (move a) P :=
  fun _ => ⟨rfl, a, rfl, h⟩

theorem silent_aside (hx : Silent x P) : Silent (aside x) P := fun r => hx { exact := r.exact }

end Op

namespace Parallelotope

variable {dirs : List Direction}

/-! ## Independent directions -/

/-- The rows of the directions are linearly independent vectors. -/
def Independent (n : ℕ) (dirs : List Direction) : Prop :=
  Mat.Independent n (dirs.map (·.1))

theorem independent_iff {n : ℕ} :
    Independent n dirs ↔ LinearIndependent ℚ fun i : Fin dirs.length => (dirs.get i).1.toRow n := by
  have family : (fun i : Fin dirs.length => (dirs.get i).1.toRow n) =
      (fun i => Vec.toRow n ((dirs.map (·.1)).get i)) ∘ finCongr (List.length_map (·.1)).symm := by
    funext i
    simp
  rw [family, linearIndependent_equiv]
  rfl

theorem Independent.exists_point {n : ℕ} (independent : Independent n dirs)
    (width : ∀ d ∈ dirs, d.1.length = n) (i : Fin dirs.length) :
    ∃ x : ℕ → ℚ, (dirs.get i).1.eval x ≠ 0 ∧ ∀ j, j ≠ i → (dirs.get j).1.eval x = 0 := by
  have outside := linearIndependent_iff_notMem_span.mp (independent_iff.mp independent) i
  obtain ⟨f, nonzero, zero⟩ := Submodule.exists_le_ker_of_notMem outside
  obtain ⟨x, value⟩ := Vec.exists_eval_eq f
  have value : ∀ j, (dirs.get j).1.eval x = f ((dirs.get j).1.toRow n) := fun j =>
    value _ (width _ (List.get_mem dirs j))
  refine ⟨x, (value i).trans_ne nonzero, fun j apart => ?_⟩
  rw [value]
  exact zero (Submodule.subset_span ⟨j, ⟨trivial, apart⟩, rfl⟩)

theorem selectIndependent_eq {e : Echelon} (reduced : e.Reduced) (width : ∀ d ∈ dirs, d.1.length = e.size)
    (free : ∀ i : Fin dirs.length, ∃ x, e.Vanishes x ∧ (∀ j < i, (dirs.get j).1.eval x = 0) ∧
      (dirs.get i).1.eval x ≠ 0) :
    selectIndependent e dirs = .ok (dirs, []) := by
  induction dirs generalizing e with
  | nil => rfl
  | cons d dirs ih =>
    obtain ⟨first, others⟩ := List.forall_mem_cons.mp width
    obtain ⟨x, zero, -, nonzero⟩ := free ⟨0, by simp⟩
    -- The rows so far vanish at a point that is not the origin, so they are not a whole basis.
    have notFull : e.full = false := by
      rw [Bool.eq_false_iff]
      intro full
      have origin : ∀ j < d.1.length, x j = 0 := fun j hj =>
        reduced.kernel (by simpa [Echelon.full] using full) zero (first ▸ hj)
      exact nonzero ((Vec.eval_congr origin).trans (Vec.eval_zero d.1))
    obtain ⟨independent, e', run, added⟩ := reduced.exists_add first
    -- A dependent row would vanish with the rows before it, and this one does not.
    obtain rfl : independent = true := by
      by_contra dependent
      have same := added.same (Bool.eq_false_iff.mpr dependent)
      exact nonzero (reduced.vanishes_of_add first run (same ▸ zero)).2
    have rest : selectIndependent e' dirs = .ok (dirs, []) := by
      refine ih added.reduced (fun d hd => (others d hd).trans added.size.symm) fun i => ?_
      obtain ⟨y, zero', before, nonzero'⟩ := free i.succ
      refine ⟨y, added.vanishes y zero' (before 0 (Fin.succ_pos i)), fun j hj => ?_, nonzero'⟩
      exact before j.succ (Fin.succ_lt_succ_iff.mpr hj)
    simp [selectIndependent, notFull, run, rest, pure, Except.pure]

/-! ## Values -/

variable {cfg : Settings} {s : Space} {a : Parallelotope}

theorem seed_silent (exact : cfg.precision = .exact) (width : ∀ d ∈ dirs, d.1.length = s.size)
    (again : mergeDirections .exact dirs = some dirs) (independent : Independent s.size dirs) :
    Op.Silent (seed cfg s dirs) fun _ => True := by
  -- Every direction is chosen and none is left over, so the walk over the rest clears no mark.
  have selected : selectIndependent (.empty s.size) dirs = .ok (dirs, []) := by
    refine selectIndependent_eq (Echelon.reduced_empty s.size) width fun i => ?_
    obtain ⟨x, nonzero, zero⟩ := independent.exists_point width i
    exact ⟨x, Echelon.vanishes_empty _ x, fun j before => zero j before.ne, nonzero⟩
  obtain ⟨chosen, rest, e, selected', -, collected, count⟩ :=
    exists_selectIndependent (Echelon.reduced_empty s.size) width
  obtain ⟨rfl, rfl⟩ := Prod.mk.inj (Except.ok.inj (selected'.symm.trans selected))
  obtain ⟨units, completion, total⟩ := Mat.exists_completion (by simpa using width) collected
    (by simpa [Echelon.empty] using count)
  have shape := completed_shape width (by simpa using total)
  refine Op.silent_aside ?_
  rw [exact, again]
  refine (Op.silent_lift selected rfl).bind ?_
  rintro _ rfl
  refine (Op.silent_lift completion rfl).bind ?_
  rintro _ rfl
  refine (Op.silent_lift (ofParts_completed shape) rfl).bind ?_
  rintro _ rfl
  dsimp only
  split
  · exact Op.silent_pure trivial
  · exact (Op.silent_pure (P := fun _ => True) trivial).bind fun _ _ => Op.silent_pure trivial

/-! ## Constraints -/

theorem directionOf?_silent {c : Constraint Affine} (inside : ∀ t ∈ c.expr.terms, t.1 < a.space.size)
    (scalar : c.expr.isScalar) (linear : c.Linear) :
    Op.Silent (a.directionOf? cfg c) fun d => ∀ d' ∈ d, c.expr.dense a.space.size = .ok d'.1 := by
  obtain ⟨r, dense⟩ := exists_dense inside scalar
  have linearized : Op.Silent (a.quasiLinearize cfg c.expr) (· = c.expr) := by
    unfold quasiLinearize
    refine (Op.silent_lift (checkAffine_eq_ok inside) (P := fun _ => True) trivial).bind fun _ _ => ?_
    simp only [if_pos scalar]
    exact Op.silent_pure rfl
  unfold directionOf?
  refine linearized.bind ?_
  rintro _ rfl
  refine (Op.silent_lift dense rfl).bind ?_
  rintro _ rfl
  rcases linear.rel with rel | rel
  · rw [rel]
    exact Op.silent_pure (by simpa using dense)
  · rw [rel]
    exact Op.silent_pure (by simpa using dense)

theorem rawDirections_silent {cs : List (Constraint Affine)}
    (inside : ∀ c ∈ cs, ∀ t ∈ c.expr.terms, t.1 < a.space.size) (scalar : ∀ c ∈ cs, c.expr.isScalar)
    (linear : ∀ c ∈ cs, c.Linear) :
    Op.Silent (rawDirections cfg a cs) fun found => ∀ ds ∈ found, ∀ d ∈ ds, ∃ c ∈ cs,
      c.expr.dense a.space.size = .ok d.1 := by
  induction cs with
  | nil => exact Op.silent_pure (by simp)
  | cons c rest ih =>
    obtain ⟨first, inside⟩ := List.forall_mem_cons.mp inside
    obtain ⟨scalar₁, scalar⟩ := List.forall_mem_cons.mp scalar
    obtain ⟨linear₁, linear⟩ := List.forall_mem_cons.mp linear
    have later := (ih inside scalar linear).imp fun found origin ds hds d hd =>
      (origin ds hds d hd).imp fun c' => And.imp_left (List.mem_cons_of_mem c)
    unfold rawDirections
    simp only [if_neg (not_le.mpr (Affine.maxDim_lt first))]
    -- A constraint without variables has no direction: it holds everywhere or nowhere.
    split
    · split
      · exact later
      · exact Op.silent_pure (by simp)
    · refine (directionOf?_silent first scalar₁ linear₁).bind fun d here => later.bind fun found there => ?_
      refine Op.silent_pure fun ds hds d' hd' => ?_
      obtain ⟨rest', hrest, rfl⟩ := Option.map_eq_some_iff.mp hds
      rcases List.mem_append.mp hd' with new | old
      · exact ⟨c, List.mem_cons_self .., here d' (Option.mem_toList.mp new)⟩
      · exact there rest' hrest d' old

theorem constraintDirections_silent (exact : cfg.precision = .exact) {cs : List (Constraint Affine)}
    (inside : ∀ c ∈ cs, ∀ t ∈ c.expr.terms, t.1 < a.space.size) (scalar : ∀ c ∈ cs, c.expr.isScalar)
    (linear : ∀ c ∈ cs, c.Linear) :
    Op.Silent (constraintDirections cfg a cs) fun found => ∀ ds ∈ found, ∃ raw,
      mergeDirections .exact raw = some ds ∧ ∀ d ∈ raw, ∃ c ∈ cs, c.expr.dense a.space.size = .ok d.1 := by
  refine (rawDirections_silent inside scalar linear).bind fun raw origin => Op.silent_pure fun ds hds => ?_
  obtain ⟨dirs, hdirs, merged⟩ := Option.bind_eq_some_iff.mp hds
  rw [exact] at merged
  exact ⟨dirs, merged, origin dirs hdirs⟩

/-- The solutions of linear constraints with rational coefficients whose merged directions are
independent, over real dimensions: nothing is lost. -/
theorem meetAffine_denotes {K : Type*} [Field K] [LinearOrder K] [IsStrictOrderedRing K]
    (exact : cfg.precision = .exact) (ha : a.WellFormed) (real : a.space.ints = 0) (top : a.isTop)
    {cs : List (Constraint Affine)} (inside : ∀ c ∈ cs, ∀ t ∈ c.expr.terms, t.1 < a.space.size)
    (scalar : ∀ c ∈ cs, c.expr.isScalar) (linear : ∀ c ∈ cs, c.Linear)
    (independent : ∀ dirs report, (constraintDirections cfg a cs).start = (.ok (some dirs), report) →
      Independent a.space.size dirs) :
    ∃ b report, (a.meetAffine cfg cs).start = (.ok b, report) ∧ report.exact = true ∧
      b.Denotes a.space fun x : ℕ → K => ∀ c ∈ cs, c.HoldsAt x := by
  cases hf : a.frame? with
  | none => simp [isTop, hf] at top
  | some f =>
    have free : f.isTop := by simpa [isTop, hf] using top
    have solid : a.Solid := by
      intro g hg
      obtain rfl : f = g := Option.some.inj (hf.symm.trans hg)
      refine ⟨real, (ha f hf).1, fun I hI => ⟨0, Interval.has_of_isTop ?_⟩⟩
      exact List.all_eq_true.mp free I hI
    obtain ⟨mark, found, directions, merged⟩ := constraintDirections_silent exact inside scalar linear {}
    -- No step clears the mark, so the theorem about a set mark says which points there are.
    have silent : (a.meetAffine cfg cs {}).2.exact = true ∧ ∃ b, (a.meetAffine cfg cs {}).1 = .ok b := by
      unfold meetAffine
      rw [hf]
      dsimp only
      rw [Op.run_bind, directions]
      cases found with
      | none => exact ⟨mark, _, rfl⟩
      | some dirs =>
        obtain ⟨raw, merges, origin⟩ := merged dirs rfl
        have width := length_of_mergeDirections merges fun d hd => by
          obtain ⟨c, -, dense⟩ := origin d hd
          exact (Affine.dense_eq_ok (K := ℚ) dense).1
        have again := mergeDirections_idem merges
        have rows := independent dirs _ (Prod.ext directions rfl)
        have rest := (seed_silent exact width again rows).bind fun b _ =>
          Op.silent_move (P := fun _ => True) (a := b) trivial
        obtain ⟨mark', b, run, -⟩ := rest (constraintDirections cfg a cs {}).2
        simp only [if_pos top]
        exact ⟨mark'.trans mark, b, run⟩
    obtain ⟨exactly, b, returns⟩ := silent
    have run : (a.meetAffine cfg cs).start = (.ok b, (a.meetAffine cfg cs {}).2) := Prod.ext returns rfl
    refine ⟨b, _, run, exactly, ?_⟩
    have denotes := (meetAffine_lossless (K := K) exact a cs).exactly b _ run exactly solid linear
    refine denotes.congr fun x => ?_
    rw [has_iff_of_frame hf, and_iff_right (Frame.has_of_isTop free)]

theorem meetAffine_independent {K : Type*} [Field K] [LinearOrder K] [IsStrictOrderedRing K]
    (exact : cfg.precision = .exact) (ha : a.WellFormed) (real : a.space.ints = 0) (top : a.isTop)
    {cs : List (Constraint Affine)} (inside : ∀ c ∈ cs, ∀ t ∈ c.expr.terms, t.1 < a.space.size)
    (scalar : ∀ c ∈ cs, c.expr.isScalar) (linear : ∀ c ∈ cs, c.Linear)
    (independent : ∀ dirs report, (constraintDirections cfg a cs).start = (.ok (some dirs), report) →
      Independent a.space.size dirs) :
    ∃ b report, (a.meetAffine cfg cs).start = (.ok b, report) ∧ report.exact = true ∧
      ∀ x : ℕ → K, b.Has x ↔ ∀ c ∈ cs, c.HoldsAt x := by
  obtain ⟨b, report, run, mark, denotes⟩ :=
    meetAffine_denotes (K := K) exact ha real top inside scalar linear independent
  exact ⟨b, report, run, mark, denotes.has⟩

/-- Intersection with affine constraints within the space of a well-formed value returns, and with
constraints on terms it returns unless, below a square root in one of them, the range on the value starts
at infinity or has a positive end without a nearest number of the grid.  What it returns has every point
of integers of the value that satisfies the constraints for some choice of their coefficients, and no
point that the value has not.  Without rounding, over real dimensions only, a value without restrictions becomes the set of solutions of equations and inequalities with rational
coefficients and constants that are not empty, and no precision is lost, if their merged directions are
linearly independent. -/
theorem constraints_met {K : Type*} [Field K] [LinearOrder K] [IsStrictOrderedRing K] (cfg : Settings)
    {a : Parallelotope} (ha : a.WellFormed) :
    (∀ cs : List (Constraint Affine), (∀ c ∈ cs, ∀ t ∈ c.expr.terms, t.1 < a.space.size) →
      (a.meetAffine cfg cs).Yields fun b =>
        (∀ x : ℕ → K, a.space.Admits x → a.Has x → (∀ c ∈ cs, c.HoldsAt x) → b.Has x) ∧
          ∀ x : ℕ → K, b.Has x → a.Has x) ∧
    (∀ cs : List (Constraint Term), (∀ c ∈ cs, ∀ d ∈ c.expr.dims, d < a.space.size) →
      (∀ c ∈ cs, c.rel = .congr → c.modulus ≠ none) →
      ((a.meetTerm cfg cs).Yields fun b =>
        (∀ x : ℕ → K, a.space.Admits x → a.Has x → (∀ c ∈ cs, c.Solved x) → b.Has x) ∧
          ∀ x : ℕ → K, b.Has x → a.Has x) ∨
      (∃ report, (a.meetTerm cfg cs).start = (.error (.fault .overflow), report)) ∧
        ∃ c ∈ cs, a.RootOverflows cfg c.expr) ∧
    (cfg.precision = .exact → a.space.ints = 0 → a.isTop → ∀ cs : List (Constraint Affine),
      (∀ c ∈ cs, ∀ t ∈ c.expr.terms, t.1 < a.space.size) →
      (∀ c ∈ cs, (c.rel = .eq ∨ c.rel = .ge) ∧ c.expr.isScalar ∧ c.expr.const.Filled) →
      (∀ dirs report, (constraintDirections cfg a cs).start = (.ok (some dirs), report) →
        Independent a.space.size dirs) →
      ∃ b report, (a.meetAffine cfg cs).start = (.ok b, report) ∧ report.exact = true ∧
        ∀ x : ℕ → K, b.Has x ↔ ∀ c ∈ cs, c.HoldsAt x) := by
  refine ⟨fun cs inside => ?_, fun cs inside modulus => ?_, ?_⟩
  · obtain ⟨b, report, run, narrows⟩ := (meetAffine_narrows (K := K) ha inside).yields
    exact ⟨b, report, run, narrows.keeps, narrows.within⟩
  · rcases (meetTerm_narrows (K := K) ha inside modulus).yields_or_error with found | failed
    · obtain ⟨b, report, run, narrows⟩ := found
      exact .inl ⟨b, report, run, narrows.keeps, narrows.within⟩
    · obtain ⟨_, report, run, rfl, root⟩ := failed
      exact .inr ⟨⟨report, run⟩, root⟩
  · intro exact real top cs inside sharp independent
    exact meetAffine_independent exact ha real top inside (fun c hc => (sharp c hc).2.1)
      (fun c hc => ⟨(sharp c hc).1, (sharp c hc).2.2⟩) independent

/-- The constraints `x + y = 2` and `2 x - 2 y ≥ 0`, or down to `-1` on the right. -/
def acrossSample : List (Constraint Affine) :=
  [⟨.make [(0, .point 1), (1, .point 1)] (.point (-2)), .eq, none⟩,
    ⟨.make [(0, .point 2), (1, .point (-2))] ⟨.fin 0, .fin 1⟩, .ge, none⟩]

theorem acrossSample_independent {dirs : List Direction} {report : Report}
    (run : (constraintDirections {} (top ⟨0, 2⟩) acrossSample).start = (.ok (some dirs), report)) :
    Independent 2 dirs := by
  have directions : (constraintDirections {} (top ⟨0, 2⟩) acrossSample).start.1 =
      .ok (some [([1, 1], ⟨.fin 2, .fin 2⟩), ([1, -1], ⟨.fin (-1 / 2), .posInf⟩)]) := by decide +kernel
  rw [run] at directions
  obtain rfl := Option.some.inj (Except.ok.inj directions)
  refine independent_iff.mpr (Fintype.linearIndependent_iff.mpr fun (g : Fin 2 → ℚ) zero => ?_)
  have first : g 0 + g 1 = 0 := by
    have entry := congrFun zero 0
    rw [Finset.sum_apply] at entry
    simpa [Vec.toRow] using (Fin.sum_univ_two _).symm.trans entry
  have second : g 0 - g 1 = 0 := by
    have entry := congrFun zero 1
    rw [Finset.sum_apply] at entry
    simpa [Vec.toRow, sub_eq_add_neg] using (Fin.sum_univ_two _).symm.trans entry
  show ∀ i : Fin 2, g i = 0
  intro i
  fin_cases i
  · show g 0 = 0
    linarith
  · show g 1 = 0
    linarith

/-- The constraints `[1, 2] i - y > 0` and `i ≡ 0 (mod 2)`. -/
def evenSample : List (Constraint Affine) :=
  [⟨.make [(0, ⟨.fin 1, .fin 2⟩), (1, .point (-1))] .zero, .gt, none⟩,
    ⟨.make [(0, .point 1)] .zero, .congr, some 2⟩]

/-- The constraint `x y - 1 ≥ 0`. -/
def productSample : Constraint Term :=
  ⟨.bin .sub (.bin .mul (.var 0) (.var 1)) (.const (.point 1)), .ge, none⟩

theorem evenSample_holds : ∀ c ∈ evenSample, c.HoldsAt fun i => if i = 0 then 2 else (1 / 2 : ℚ) := by
  simp only [evenSample, List.forall_mem_cons, List.not_mem_nil, false_imp_iff, implies_true, and_true]
  constructor
  · refine ⟨3 / 2, ⟨3 / 2, 0, ⟨1, -1 / 2, ?_, ⟨-1, 0, ?_, rfl, ?_⟩, ?_⟩, Interval.zero_has, ?_⟩, ?_⟩
    all_goals norm_num [Interval.Has, Interval.point, Relation.HoldsOf]
  · refine ⟨2, ⟨2, 0, ⟨1, 0, ?_, rfl, ?_⟩, Interval.zero_has, ?_⟩, ?_⟩
    · norm_num
    · norm_num
    · norm_num
    · rintro _ ⟨rfl⟩
      exact ⟨1, by norm_num⟩

/-- A value with an integer dimension is met with the first two constraints in rounded arithmetic, the
plane with the product and with the two lines across. -/
theorem constraints_met_sample :
    slantedSample.WellFormed ∧ (top ⟨0, 2⟩).WellFormed ∧
    (slantedSample.meetAffine { precision := .binary64 } evenSample).Yields (fun b =>
      b.Has (fun i => if i = 0 then 2 else (1 / 2 : ℚ)) ∧ ∀ x : ℕ → ℚ, b.Has x → slantedSample.Has x) ∧
    ((top ⟨0, 2⟩).meetTerm {} [productSample]).Yields (·.Has fun _ => (1 : ℚ)) ∧
    ∃ b report, ((top ⟨0, 2⟩).meetAffine {} acrossSample).start = (.ok b, report) ∧
      report.exact = true ∧ ∀ x : ℕ → ℚ, b.Has x ↔ ∀ c ∈ acrossSample, c.HoldsAt x := by
  have slanted := slantedSample_wellFormed
  have plane := top_wellFormed ⟨0, 2⟩
  refine ⟨slanted, plane, ?_, ?_, ?_⟩
  · obtain ⟨b, report, run, keeps, within⟩ :=
      (constraints_met (K := ℚ) { precision := .binary64 } slanted).1 evenSample (by decide)
    refine ⟨b, report, run, keeps _ (fun d small => ?_) ⟨_, rfl, ?_⟩ evenSample_holds, within⟩
    · obtain rfl : d = 0 := Nat.lt_one_iff.mp small
      exact ⟨2, by norm_num⟩
    · norm_num [Frame.Has, Frame.rows, Interval.Has]
  · have inside : ∀ c ∈ [productSample], ∀ d ∈ c.expr.dims, d < 2 := by
      simp [productSample, Term.dims, Term.union]
    have outcome := (constraints_met (K := ℚ) {} plane).2.1 [productSample] inside (by decide)
    have rootless : ¬ ∃ c ∈ [productSample], (top ⟨0, 2⟩).RootOverflows {} c.expr := by
      simp [productSample, RootOverflows, Term.roots]
    obtain ⟨b, report, run, keeps, -⟩ := outcome.resolve_right fun failed => rootless failed.2
    refine ⟨b, report, run, keeps _ (fun d small => absurd small (Nat.not_lt_zero d)) ?_ ?_⟩
    · exact (has_iff_of_frame rfl).mpr (Frame.has_of_isTop (by decide))
    · rw [List.forall_mem_singleton]
      have product : Term.Takes (.bin .mul (.var 0) (.var 1)) (fun _ => (1 : ℚ)) 1 :=
        ⟨1, 1, rfl, rfl, by norm_num [BinOp.Takes]⟩
      exact ⟨0, ⟨1, 1, product, by norm_num [Term.Takes], by norm_num [BinOp.Takes]⟩, le_refl 0⟩
  · exact (constraints_met (K := ℚ) {} plane).2.2 rfl rfl (by decide) acrossSample (by decide)
      (by decide) fun dirs report run => acrossSample_independent run

end Parallelotope

end SkewBox
