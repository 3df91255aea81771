import SkewBox.Proofs.GroundedIntervals

/-!
# Values with infinite ends on their own side

Queries and intersections of values whose ranges are grounded, with constraints and directions that are
grounded, give grounded results and leave grounded values behind, also when they fail.  Nothing is asked
of the shape of a value.

* `Frame.Grounded`, `Parallelotope.Grounded`: values whose ranges are grounded.
* `Op.Grounds`: computations that leave such values, with one rule for each primitive operation.
* `Parallelotope.seed_grounds`, `meetAffine_grounds`, `meetTerm_grounds`: systems of constraints.
-/

namespace SkewBox

/-- The ranges are grounded. -/
def Frame.Grounded (f : Frame) : Prop := ∀ I ∈ f.ranges, I.Grounded

/-- The ranges of the value are grounded, if it has any. -/
def Parallelotope.Grounded (a : Parallelotope) : Prop := ∀ f, a.frame? = some f → f.Grounded

theorem Parallelotope.grounded_mk {s : Space} {f : Frame} (h : f.Grounded) : Grounded ⟨s, some f⟩ :=
  fun _ same => Option.some.inj same ▸ h

theorem Parallelotope.grounded_of_none {a : Parallelotope} (h : a.frame? = none) : a.Grounded :=
  fun _ same => absurd (h.symm.trans same) nofun

theorem Cut.grounded {c : Cut} (h : c.frame.Grounded) (s : Space) : (c.toParallelotope s).Grounded := by
  unfold toParallelotope
  split
  · exact Parallelotope.grounded_of_none rfl
  · exact Parallelotope.grounded_mk h

theorem Frame.Grounded.remember {f g : Frame} (h : f.Grounded) (run : f.remember = .ok g) :
    g.Grounded := by
  obtain ⟨w, -, same⟩ := bind_eq_ok.mp run
  exact Except.ok.inj same ▸ h

/-! ## Computations -/

namespace Op

variable {α : Type} {P : α → Prop} {s : Space} {f : Frame} {a : Parallelotope} {W : Parallelotope → Prop}

/-- The computation leaves a grounded value in its operand, and a result has `P`. -/
abbrev Grounds (x : Op α) (P : α → Prop) : Prop :=
  Meets Parallelotope.Grounded Parallelotope.Grounded True x P

theorem grounds_lift {y : Except Error α} (ok : ∀ a, y = .ok a → P a) :
    Meets W W True (liftM y : Op α) P :=
  meets_lift ok fun _ _ => trivial

theorem mapM_grounds {γ : Type} {step : γ → Op α} {items : List γ}
    (each : ∀ item ∈ items, Meets W W True (step item) P) :
    Meets W W True (items.mapM step) fun results => ∀ a ∈ results, P a := by
  refine (meets_mapM (R := fun _ => P) each).imp fun results all a ha => ?_
  obtain ⟨_, -, h⟩ := exists_of_mem_right all ha
  exact h

theorem write_grounds {c : Cut} (h : c.frame.Grounded) : Grounds (write s c) fun _ => True :=
  write_meets (c.grounded h s)

theorem put_grounds {c : Cut} (h : c.frame.Grounded) : Grounds (put s c) Parallelotope.Grounded :=
  put_meets (c.grounded h s) (c.grounded h s)

theorem refit_grounds (h : f.Grounded) : Grounds (refit s f) Parallelotope.Grounded :=
  refit_meets (Parallelotope.grounded_mk h) (Parallelotope.grounded_mk h)

theorem move_grounds (h : a.Grounded) : Grounds (move a) Parallelotope.Grounded := move_meets h h

theorem invert_grounds (h : f.Grounded) : Meets W W True (invert f) Frame.Grounded := by
  unfold invert
  refine (grounds_lift fun g run => h.remember run).bind fun g hg => ?_
  exact fun r left => ⟨left, hg⟩

theorem kept_grounds (h : f.Grounded) : Meets W W True (kept f) Frame.Grounded := by
  unfold kept
  refine get_meets.bind fun r _ => ?_
  split
  · exact grounds_lift fun g run => h.remember run
  · exact meets_pure h

end Op

/-! ## Frames -/

namespace Frame

variable {cfg : Settings} {s : Space} {f g : Frame} {W : Parallelotope → Prop}

theorem Grounded.setRow (h : f.Grounded) {I : Interval} (hI : I.Grounded) (i : ℕ) (row : Vec) :
    (f.setRow i row I).Grounded := Interval.grounded_set h hI i

theorem Grounded.setRange (h : f.Grounded) {I : Interval} (hI : I.Grounded) (i : ℕ) :
    (f.setRange i I).Grounded := Interval.grounded_set h hI i

theorem Grounded.rows (h : f.Grounded) : ∀ d ∈ f.rows, d.2.Grounded :=
  fun _ hd => h _ (List.of_mem_zip hd).2

theorem tighten_grounded (row : Vec) {I : Interval} (h : I.Grounded) : (tighten cfg s row I).Grounded := by
  unfold tighten
  split
  · exact h.tighten
  · exact h

theorem tightenAll_grounded {rows : List Vec} {Is : List Interval} (h : ∀ I ∈ Is, I.Grounded) :
    ∀ I ∈ (tightenAll cfg s rows Is).1, I.Grounded := by
  induction rows generalizing Is with
  | nil => exact h
  | cons row rows ih =>
    cases Is with
    | nil => exact h
    | cons I Is =>
      obtain ⟨first, rest⟩ := List.forall_mem_cons.mp h
      have tightened : (tighten cfg s row I).Grounded := tighten_grounded row first
      unfold tightenAll
      dsimp only
      split
      · exact List.forall_mem_cons.mpr ⟨tightened, rest⟩
      · exact List.forall_mem_cons.mpr ⟨tightened, ih rest⟩

theorem Grounded.normalize (h : f.Grounded) : (f.normalize cfg s).frame.Grounded :=
  tightenAll_grounded h

/-! ### Ranges -/

theorem Grounded.boundDirection (h : f.Grounded) {r : Vec} {I : Interval}
    (run : f.boundDirection cfg r = .ok I) : I.Grounded := by
  obtain ⟨lam, -, same⟩ := bind_eq_ok.mp run
  exact Except.ok.inj same ▸ cfg.precision.dot_grounded lam h

theorem Grounded.boundDimension (h : f.Grounded) {d : ℕ} {I : Interval}
    (run : f.boundDimension cfg s d = .ok I) : I.Grounded := by
  obtain ⟨inverse, -, same⟩ := bind_eq_ok.mp run
  have range := cfg.precision.dot_grounded (inverse.getD d []) h
  obtain rfl := Except.ok.inj same
  split
  · exact range.tighten
  · exact range

theorem Grounded.addTerm (h : f.Grounded) {sum sum' : Direction} {term : ℕ × Interval}
    (hsum : sum.2.Grounded) (hterm : term.2.Grounded) (run : f.addTerm cfg s sum term = .ok sum') :
    sum'.2.Grounded := by
  obtain ⟨⟨m, rest⟩, split, same⟩ := bind_eq_ok.mp run
  obtain rfl := Except.ok.inj same
  unfold splitTerm at split
  dsimp only at split
  split at split
  · obtain ⟨-, rfl⟩ := Prod.mk.inj (Except.ok.inj split)
    exact hsum
  · obtain ⟨range, bounded, same⟩ := bind_eq_ok.mp split
    obtain ⟨-, rfl⟩ := Prod.mk.inj (Except.ok.inj same)
    exact hsum.add ((hterm.sub (Interval.point_grounded _)).mul (h.boundDimension bounded))

theorem Grounded.boundAffine (h : f.Grounded) {e : Affine} (he : e.Grounded) {I : Interval}
    (run : f.boundAffine cfg s e = .ok I) : I.Grounded := by
  obtain ⟨⟨r, extra⟩, summed, rest⟩ := bind_eq_ok.mp run
  obtain ⟨range, bounded, same⟩ := bind_eq_ok.mp rest
  have constant : extra.Grounded := foldlM_ok_induction (fun sum : Direction => sum.2.Grounded) he.const
    (fun t ht _ _ hsum step => h.addTerm hsum (he.terms t ht) step) summed
  exact Except.ok.inj same ▸ (h.boundDirection bounded).add constant

/-! ### Intersection -/

theorem allowed_grounded {p : Precision} {lam : Vec} {target : Interval} {Is : List Interval} {k : ℕ}
    (htarget : target.Grounded) (h : ∀ I ∈ Is, I.Grounded) : (allowed p lam target Is k).Grounded :=
  (htarget.sub (p.dot_grounded _ h)).scale _

theorem propagate_grounded {p : Precision} {lam : Vec} {target : Interval} {ks : List ℕ}
    {Is : List Interval} (htarget : target.Grounded) (h : ∀ I ∈ Is, I.Grounded) :
    ∀ I ∈ (propagate p lam target ks Is).1, I.Grounded := by
  induction ks generalizing Is with
  | nil => exact h
  | cons k ks ih =>
    have narrowed : ((Is.getD k .top).meet (allowed p lam target Is k)).Grounded :=
      (Interval.grounded_getD h Interval.top_grounded k).meet (allowed_grounded htarget h)
    unfold propagate
    dsimp only
    split
    · exact Interval.grounded_set h narrowed k
    · exact ih (Interval.grounded_set h narrowed k)

theorem meetSkew_grounds (h : f.Grounded) {lam : Vec} {I : Interval} (hI : I.Grounded) :
    Op.Meets W W True (f.meetSkew cfg s lam I) (·.frame.Grounded) := by
  unfold meetSkew
  have target := hI.meet (cfg.precision.dot_grounded lam h)
  dsimp only
  split
  · exact Op.meets_pure h
  split
  · exact Op.meets_pure h
  refine Op.inexact_meets.bind fun _ _ => Op.meets_pure ?_
  have narrowed : Grounded { f with ranges := (propagate cfg.precision lam _ lam.support f.ranges).1 } :=
    propagate_grounded target h
  split
  · exact narrowed
  · exact narrowed.normalize

theorem meetCoords_grounds (h : f.Grounded) {r lam : Vec} {I : Interval} (hI : I.Grounded) :
    Op.Meets W W True (f.meetCoords cfg s r lam I) (·.frame.Grounded) := by
  unfold meetCoords
  refine Op.guard_meets (fun _ => trivial) fun _ => ?_
  split
  · rename_i k _
    have range := Interval.grounded_getD h Interval.top_grounded k
    exact Op.meets_pure (h.setRange (range.meet (hI.scale _)) k).normalize
  · split
    · rename_i k _
      exact Op.meets_pure (h.setRow hI k r).normalize
    · exact meetSkew_grounds h hI

theorem meetDirection_grounds (h : f.Grounded) {r : Vec} {I : Interval} (hI : I.Grounded) :
    Op.Grounds (f.meetDirection cfg s r I) (·.frame.Grounded) := by
  unfold meetDirection
  split
  · exact Op.meets_pure h
  split
  · exact Op.meets_pure h
  split
  · exact Op.meets_pure h
  refine (Op.grounds_lift fun g run => h.remember run).bind fun g hg => ?_
  refine (Op.write_grounds hg).bind fun _ _ => ?_
  exact (Op.lift_meets _).bind fun lam _ => meetCoords_grounds hg hI

theorem meetAll_grounds (h : f.Grounded) {dirs : List Direction} (hdirs : ∀ d ∈ dirs, d.2.Grounded) :
    Op.Grounds (meetAll cfg s dirs f) (·.frame.Grounded) := by
  induction dirs generalizing f with
  | nil => exact Op.meets_pure h
  | cons d dirs ih =>
    obtain ⟨r, I⟩ := d
    obtain ⟨first, rest⟩ := List.forall_mem_cons.mp hdirs
    rw [meetAll]
    refine (meetDirection_grounds h first).bind fun c hc => (Op.write_grounds hc).bind fun _ _ => ?_
    split
    · exact Op.meets_pure hc
    · exact ih hc rest

theorem meet_grounds (hf : f.Grounded) (hg : g.Grounded) :
    Op.Grounds (f.meet cfg s g) (·.frame.Grounded) := by
  unfold meet
  split
  · have both : Grounded { f with ranges := List.zipWith Interval.meet f.ranges g.ranges } :=
      Interval.grounded_zipWith fun I hI J hJ => (hf I hI).meet (hg J hJ)
    exact (Op.refit_grounds both).bind fun _ _ => Op.meets_pure both.normalize
  · exact meetAll_grounds hf hg.rows

end Frame

/-! ## Values -/

namespace Parallelotope

variable {cfg : Settings} {s : Space} {a b : Parallelotope} {W : Parallelotope → Prop}

/-! ### Queries -/

theorem boundDimension_grounds (ha : a.Grounded) (d : Datum) :
    Op.Meets W W True (a.boundDimension cfg d) Interval.Grounded := by
  refine (Op.lift_meets _).bind fun d _ => ?_
  cases hf : a.frame? with
  | none => exact Op.meets_pure Interval.bottom_grounded
  | some f =>
    refine (Op.invert_grounds (ha f hf)).bind fun g hg => ?_
    exact Op.grounds_lift fun I run => hg.boundDimension run

theorem boundAffine_grounds (ha : a.Grounded) {e : Affine} (he : e.Grounded) :
    Op.Meets W W True (a.boundAffine cfg e) Interval.Grounded := by
  refine (Op.lift_meets _).bind fun _ _ => ?_
  cases hf : a.frame? with
  | none => exact Op.meets_pure Interval.bottom_grounded
  | some f =>
    refine (Op.invert_grounds (ha f hf)).bind fun g hg => ?_
    exact Op.grounds_lift fun I run => hg.boundAffine he run

theorem linearize_grounds (ha : a.Grounded) {t : Term} (ht : t.Grounded) :
    Op.Meets W W True (a.linearize cfg t) Affine.Grounded := by
  unfold linearize
  split
  · exact Op.meets_throw _ trivial
  · exact Term.linearize_grounded (fun e he => boundAffine_grounds ha he) ht

theorem quasiLinearize_grounds (ha : a.Grounded) {e : Affine} (he : e.Grounded) :
    Op.Meets W W True (a.quasiLinearize cfg e) Affine.Grounded := by
  unfold quasiLinearize
  refine (Op.lift_meets _).bind fun _ _ => ?_
  split
  · exact Op.meets_pure he
  -- The width that a coefficient loses goes into the constant, times the range of its dimension.
  have step : ∀ (sum : List (ℕ × Interval) × Interval) (term : ℕ × Interval), term.2.Grounded →
      (∀ t ∈ sum.1, t.2.Grounded) ∧ sum.2.Grounded → Op.Meets W W True (a.takeMiddle cfg sum term)
        fun sum' => (∀ t ∈ sum'.1, t.2.Grounded) ∧ sum'.2.Grounded := by
    rintro sum ⟨d, c⟩ hc ⟨terms, const⟩
    unfold takeMiddle
    dsimp only
    split
    · exact Op.meets_pure ⟨List.forall_mem_append.mpr ⟨terms, by simpa using hc⟩, const⟩
    · refine (boundDimension_grounds ha _).bind fun range hrange => Op.meets_pure ⟨?_, ?_⟩
      · exact List.forall_mem_append.mpr ⟨terms, by simpa using Interval.point_grounded _⟩
      · exact const.add ((hc.sub (Interval.point_grounded _)).mul hrange)
  refine (Op.meets_foldlM (fun _ sum => (∀ t ∈ sum.1, t.2.Grounded) ∧ sum.2.Grounded)
    ⟨by simp, he.const⟩ fun done term sum part h => step sum term ?_ h).bind fun sum h => ?_
  · exact he.terms term (part.subset (List.mem_append_right _ (List.mem_singleton_self term)))
  · exact Op.inexact_meets.bind fun _ _ => Op.meets_pure (Affine.make_grounded h.1 h.2)

/-! ### Intersection -/

theorem meetDirection_grounds (ha : a.Grounded) {r : Vec} {I : Interval} (hI : I.Grounded) :
    Op.Grounds (a.meetDirection cfg r I) Grounded := by
  unfold meetDirection
  cases hf : a.frame? with
  | none => exact Op.meets_pure ha
  | some f =>
    exact (Frame.meetDirection_grounds (ha f hf) hI).bind fun c hc => Op.put_grounds hc

theorem meet_grounds (ha : a.Grounded) (hb : b.Grounded) : Op.Grounds (a.meet cfg b) Grounded := by
  unfold meet
  refine (Op.lift_meets _).bind fun _ _ => ?_
  cases hf : a.frame? with
  | none => exact Op.meets_pure ha
  | some f =>
    cases hg : b.frame? with
    | none => exact Op.move_grounds (grounded_of_none rfl)
    | some g => exact (Frame.meet_grounds (ha f hf) (hb g hg)).bind fun c hc => Op.put_grounds hc

theorem meetArray_grounds {values : List Parallelotope} (h : ∀ a ∈ values, a.Grounded) :
    Op.Grounds (meetArray cfg values) Grounded :=
  meetArray_meets h fun _ _ => meet_grounds

/-! ### Directions -/

theorem mergeDirections_grounded {p : Precision} {dirs merged : List Direction}
    (h : ∀ d ∈ dirs, d.2.Grounded) (run : mergeDirections p dirs = some merged) :
    ∀ d ∈ merged, d.2.Grounded :=
  ranges_of_mergeDirections run (fun d hd _ c _ => (h d hd).scale (1 / c)) fun _ _ hI hJ _ => hI.meet hJ

theorem perm_of_selectIndependent {e : Echelon} {dirs chosen rest : List Direction}
    (run : selectIndependent e dirs = .ok (chosen, rest)) : (chosen ++ rest).Perm dirs := by
  induction dirs generalizing e chosen rest with
  | nil =>
    obtain ⟨rfl, rfl⟩ := Prod.mk.inj (Except.ok.inj run)
    exact .nil
  | cons d dirs ih =>
    -- The direction goes to one of the two lists, whichever the test picks.
    have placed (independent : Bool) {e' : Echelon} {found : List Direction × List Direction}
        (later : selectIndependent e' dirs = .ok found)
        (same : (if independent then (d :: found.1, found.2) else (found.1, d :: found.2)) =
          (chosen, rest)) : (chosen ++ rest).Perm (d :: dirs) := by
      cases independent with
      | true =>
        obtain ⟨rfl, rfl⟩ := Prod.mk.inj same
        exact (ih later).cons d
      | false =>
        obtain ⟨rfl, rfl⟩ := Prod.mk.inj same
        exact List.perm_middle.trans ((ih later).cons d)
    rw [selectIndependent] at run
    split at run
    · rw [pure_bind] at run
      obtain ⟨found, later, same⟩ := bind_eq_ok.mp run
      exact placed false later (Except.ok.inj same)
    · obtain ⟨⟨independent, e'⟩, -, run⟩ := bind_eq_ok.mp run
      obtain ⟨found, later, same⟩ := bind_eq_ok.mp run
      exact placed independent later (Except.ok.inj same)

theorem Grounded.normalize (ha : a.Grounded) (cfg : Settings) : (a.normalize cfg).Grounded := by
  unfold Parallelotope.normalize
  split
  · exact ha
  · rename_i f hf
    exact Cut.grounded (ha f hf).normalize _

theorem seed_grounds {dirs : List Direction} (h : ∀ d ∈ dirs, d.2.Grounded) :
    Op.Meets W W True (seed cfg s dirs) Grounded := by
  refine Op.aside_meets (?_ : Op.Grounds _ _)
  split
  · exact Op.meets_pure (grounded_of_none rfl)
  rename_i merged run
  have grounded := mergeDirections_grounded h run
  refine (Op.grounds_lift fun _ selected => perm_of_selectIndependent selected).bind ?_
  rintro ⟨chosen, rest⟩ perm
  refine (Op.lift_meets _).bind fun units _ => ?_
  refine (Op.grounds_lift fun a whole => (ofParts_eq_ok whole).1).bind ?_
  rintro _ rfl
  -- The rows that complete the chosen ones are unrestricted.
  have ranges : Frame.Grounded ⟨chosen.map (·.1) ++ units.map (Vec.unit s.size),
      chosen.map (·.2) ++ units.map fun _ => .top, none⟩ := by
    intro I hI
    rcases List.mem_append.mp hI with mem | mem
    · obtain ⟨d, hd, rfl⟩ := List.mem_map.mp mem
      exact grounded d (perm.subset (List.mem_append_left _ hd))
    · obtain ⟨i, -, rfl⟩ := List.mem_map.mp mem
      exact Interval.top_grounded
  have normal := (grounded_mk (s := s) ranges).normalize cfg
  dsimp only
  split
  · exact Op.meets_pure normal
  · rename_i f hf
    refine (Frame.meetAll_grounds (normal f hf) fun d hd => ?_).bind
      fun c hc => Op.meets_pure (c.grounded hc s)
    exact grounded d (perm.subset (List.mem_append_right _ hd))

/-! ### Constraints -/

theorem strictEnd_ne_posInf {r : Vec} {lo : Bound} (h : lo ≠ .posInf) :
    strictEnd cfg s r lo ≠ .posInf := by
  unfold strictEnd
  split
  · split
    · exact nofun
    · exact h
  · exact h

theorem directionOf?_grounds (ha : a.Grounded) {c : Constraint Affine} (hc : c.expr.Grounded) :
    Op.Meets W W True (a.directionOf? cfg c) fun d => ∀ d' ∈ d, d'.2.Grounded := by
  unfold directionOf?
  refine (quasiLinearize_grounds ha hc).bind fun e he => (Op.lift_meets _).bind fun r _ => ?_
  have low : -e.const.hi ≠ .posInf := Bound.neg_ne_posInf he.const.hi
  cases c.rel with
  | ge =>
    refine Op.meets_pure fun d hd => ?_
    obtain rfl := Option.some.inj hd
    exact ⟨low, nofun⟩
  | gt =>
    refine Op.meets_pure fun d hd => ?_
    obtain rfl := Option.some.inj hd
    exact ⟨strictEnd_ne_posInf low, nofun⟩
  | eq =>
    refine Op.meets_pure fun d hd => ?_
    obtain rfl := Option.some.inj hd
    exact ⟨low, Bound.neg_ne_negInf he.const.lo⟩
  | congr => exact Op.inexact_meets.bind fun _ _ => Op.meets_pure (by simp)
  | ne => exact Op.inexact_meets.bind fun _ _ => Op.meets_pure (by simp)

theorem rawDirections_grounds (ha : a.Grounded) {cs : List (Constraint Affine)}
    (h : ∀ c ∈ cs, c.expr.Grounded) :
    Op.Meets W W True (rawDirections cfg a cs) fun found => ∀ ds ∈ found, ∀ d ∈ ds, d.2.Grounded := by
  induction cs with
  | nil => exact Op.meets_pure (by simp)
  | cons c rest ih =>
    obtain ⟨first, others⟩ := List.forall_mem_cons.mp h
    unfold rawDirections
    refine Op.guard_meets (fun _ => trivial) fun _ => ?_
    split
    · split
      · exact ih others
      · exact Op.meets_pure (by simp)
    · refine (directionOf?_grounds ha first).bind fun d here => (ih others).bind fun found there => ?_
      refine Op.meets_pure fun ds hds d' hd' => ?_
      obtain ⟨rest', hrest, rfl⟩ := Option.map_eq_some_iff.mp hds
      rcases List.mem_append.mp hd' with new | old
      · exact here d' (Option.mem_toList.mp new)
      · exact there rest' hrest d' old

theorem meetAffine_grounds (ha : a.Grounded) {cs : List (Constraint Affine)}
    (h : ∀ c ∈ cs, c.expr.Grounded) : Op.Grounds (a.meetAffine cfg cs) Grounded := by
  unfold meetAffine
  cases hf : a.frame? with
  | none => exact Op.meets_pure ha
  | some f =>
    have directions : Op.Grounds (constraintDirections cfg a cs) fun found =>
        ∀ ds ∈ found, ∀ d ∈ ds, d.2.Grounded := by
      refine (rawDirections_grounds ha h).bind fun raw grounded => Op.meets_pure fun ds hds => ?_
      obtain ⟨dirs, hdirs, merged⟩ := Option.bind_eq_some_iff.mp hds
      exact mergeDirections_grounded (grounded dirs hdirs) merged
    refine directions.bind fun found grounded => ?_
    cases found with
    | none => exact Op.move_grounds (grounded_of_none rfl)
    | some dirs =>
      dsimp only
      split
      · exact (seed_grounds (grounded dirs rfl)).bind fun b hb => Op.move_grounds hb
      · refine (Op.kept_grounds (ha f hf)).bind fun g hg => ?_
        exact (Frame.meetAll_grounds hg (grounded dirs rfl)).bind fun c hc => Op.put_grounds hc

theorem meetTerm_grounds (ha : a.Grounded) {cs : List (Constraint Term)}
    (h : ∀ c ∈ cs, c.expr.Grounded) : Op.Grounds (a.meetTerm cfg cs) Grounded := by
  unfold meetTerm
  split
  · exact Op.meets_pure ha
  have linear : ∀ c ∈ cs, Op.Grounds (a.linearizeConstraint cfg c) fun c' => c'.expr.Grounded := by
    intro c hc
    refine (linearize_grounds ha (h c hc)).bind fun e he => Op.grounds_lift fun c' made => ?_
    unfold Constraint.make at made
    split at made
    · contradiction
    · exact Except.ok.inj made ▸ he
  exact (Op.mapM_grounds linear).bind fun cs' grounded => meetAffine_grounds ha grounded

end Parallelotope

end SkewBox
