import SkewBox.Proofs.Emptying

/-!
# Checks before changes

An operation checks its arguments before it changes its operand.  Once the operand has changed nothing
is refused any more, so that a failure with a cause that the domain knows leaves the operand as it was.

* `Op.Careful`: computations that fail before any change, or below the level of the domain.
* `Call.run_careful`: every call that changes an operand.
-/

namespace SkewBox

namespace Op

variable {α β : Type} {W W' : Parallelotope → Prop} {x : Op α} {f : α → Op β} {P : α → Prop}

/-- Started with an operand that has no new content, the computation leaves it so if it fails, unless
the failure is one below the level of the domain. -/
def Careful (x : Op α) : Prop :=
  ∀ r : Report, r.left = none → ∀ e, (x r).1 = .error e →
    (∃ cause, e = .fault cause) ∨ (x r).2.left = none

theorem Meets.bind_careful (reads : Meets (fun _ => False) (fun _ => False) True x P)
    (hf : ∀ a, P a → Careful (f a)) : Careful (x >>= f) := by
  intro r start
  obtain ⟨empty, outcome⟩ := reads r fun a left => by simp [start] at left
  have unchanged : (x r).2.left = none := Option.eq_none_iff_forall_not_mem.mpr empty
  rw [run_bind]
  cases result : (x r).1 with
  | ok a =>
    rw [result] at outcome
    exact hf a outcome (x r).2 unchanged
  | error e =>
    intro _ _
    exact .inr unchanged

theorem Ends.careful (ends : Ends W W' (fun e => ∃ cause, e = .fault cause) x P) : Careful x := by
  intro r start e fails
  have outcome := (ends r fun a left => by simp [start] at left).2
  rw [fails] at outcome
  exact .inl outcome

theorem Meets.careful (total : Meets W W' False x P) : Careful x := total.ends.careful

theorem Refuses.careful (refuses : Refuses x) : Careful x := by
  obtain ⟨e, -, run⟩ := refuses
  intro r start _ _
  rw [run r]
  exact .inr start

theorem careful_of_returns (returns : ∀ r, ∃ a, (x r).1 = .ok a) : Careful x := by
  intro r _ e fails
  obtain ⟨a, returned⟩ := returns r
  cases returned.symm.trans fails

theorem careful_pure (a : α) : Careful (pure a : Op α) := careful_of_returns fun _ => ⟨a, rfl⟩

theorem careful_put (s : Space) (c : Cut) : Careful (put s c) := careful_of_returns fun _ => ⟨_, rfl⟩

theorem careful_refit (s : Space) (f : Frame) : Careful (refit s f) := careful_of_returns fun _ => ⟨_, rfl⟩

theorem careful_move (a : Parallelotope) : Careful (move a) := careful_of_returns fun _ => ⟨a, rfl⟩

theorem Careful.bind_pure (careful : Careful x) (g : α → β) : Careful (x >>= fun a => pure (g a)) := by
  intro r start e
  rw [run_bind_pure]
  cases result : (x r).1 with
  | ok a => exact nofun
  | error e' =>
    intro same
    cases same
    exact careful r start e result

end Op

namespace Parallelotope

variable {cfg : Settings} {a b : Parallelotope}

/-! ## Constraints and generators -/

theorem meetAffine_careful (ha : a.WellFormed) (cs : List (Constraint Affine)) :
    (a.meetAffine cfg cs).Careful := by
  unfold meetAffine
  cases hf : a.frame? with
  | none => exact Op.careful_pure a
  | some f =>
    obtain ⟨regular, -⟩ := ha f hf
    apply (constraintDirections_meets ha.weaken cs).bind_careful
    intro found widths
    cases found with
    | none => exact Op.careful_move _
    | some dirs =>
      have width := widths dirs rfl
      dsimp only
      split
      · apply (seed_meets (K := ℚ) width).bind_careful
        exact fun b _ => Op.careful_move b
      · apply (Op.kept_meets regular).bind_careful
        intro g kept
        -- From here on nothing is refused: cutting a regular frame does not fail.
        have cut : Op.Keeps False False (g.meetAll cfg a.space dirs >>= Op.put a.space) fun _ => True := by
          refine (kept.1.meetAll_keeps (K := ℚ) False.elim width).bind fun c narrows => ?_
          exact Op.put_meets narrows.shaped.toParallelotope trivial
        exact cut.careful

theorem meetTerm_careful (ha : a.WellFormed) (cs : List (Constraint Term)) :
    (a.meetTerm cfg cs).Careful := by
  unfold meetTerm
  split
  · exact Op.careful_pure a
  · refine (Op.meets_mapM (R := fun _ _ => True) fun c _ => ?_).bind_careful
      fun cs' _ => meetAffine_careful ha cs'
    refine (linearize_meets (K := ℚ) ha.weaken c.expr).bind fun e _ => ?_
    exact Op.lift_meets _

theorem addRays_careful (ha : a.WellFormed) (gens : List Generator) : (a.addRays gens).Careful := by
  unfold addRays
  apply (Op.meets_forM (R := fun _ => True) fun g _ => Op.lift_meets _).bind_careful
  intro _ _
  cases hf : a.frame? with
  | none => exact Op.careful_pure a
  | some f =>
    obtain ⟨regular, ordered⟩ := ha f hf
    apply (Op.meets_foldlM (fun _ h => h.Regular a.space.size ∧ h.Ordered)
      ⟨regular, ordered trivial⟩ fun _ g h _ hh => addRay_keeps hh.1 hh.2 g).bind_careful
    exact fun h _ => Op.careful_put a.space ⟨h, false⟩

theorem addEpsilon_careful (eps : Datum) : (a.addEpsilon cfg eps).Careful := by
  unfold addEpsilon
  apply (Op.lift_meets _).bind_careful
  intro e _
  split
  · exact Op.careful_refit _ _
  · exact Op.careful_pure a

/-! ## Two values -/

theorem checkSpace_careful {β : Type} {f : Unit → Op β}
    (rest : a.space = b.space → ∀ u, (f u).Careful) : Op.Careful (liftM (a.checkSpace b) >>= f) :=
  (Op.meets_lift (fun _ checked => checkSpace_eq_ok checked) fun _ _ => trivial).bind_careful
    fun u same => rest same u

theorem meet_careful (ha : a.WellFormed) (hb : b.WellFormed) : (a.meet cfg b).Careful := by
  by_cases same : a.space = b.space
  · exact (meet_keeps (K := ℚ) ha hb.weaken same).careful
  · exact checkSpace_careful fun equal => absurd equal same

theorem join_careful (ha : a.WellFormed) (hb : b.WellFormed) : (a.join cfg b).Careful := by
  by_cases same : a.space = b.space
  · exact (joinAt_total ha hb same.symm 1).careful
  · exact checkSpace_careful fun equal => absurd equal same

theorem combine_careful (ha : a.WellFormed) (hb : b.WellFormed) (same : a.space = b.space)
    (step : Interval → Interval → Interval) : (combine cfg a b step).Careful :=
  (combine_meets ha hb same (False.elim : False → _)).careful

theorem narrowing_careful (ha : a.WellFormed) (hb : b.WellFormed) : (a.narrowing cfg b).Careful := by
  refine checkSpace_careful fun same _ => ?_
  split
  · exact Op.careful_pure a
  · exact Op.careful_move _
  · have refined : Op.Meets (·.WellFormed) (·.Shaped False) False (combine cfg a b narrowRange)
        fun c => c.Shaped False ∧ (a.frame?.isSome → c.frame?.isSome) :=
      combine_meets ha hb same False.elim
    have tidied : Op.Meets (·.WellFormed) (·.Shaped False) False
        (do (← combine cfg a b narrowRange).tidy cfg) fun _ => True :=
      refined.bind_total fun c narrowed => (tidy_keeps (K := ℚ) narrowed.1).imp fun _ _ => trivial
    exact tidied.careful

end Parallelotope

open Parallelotope

theorem Combination.run_careful {cfg : Settings} {a b : Parallelotope} (ha : a.WellFormed)
    (hb : b.WellFormed) (thresholds : List Datum) (c : Combination) :
    (c.run cfg thresholds a b).Careful := by
  cases c with
  | meet => exact meet_careful ha hb
  | join => exact join_careful ha hb
  | widening => exact checkSpace_careful fun same _ => combine_careful ha hb same _
  | wideningThresholds ts =>
    refine checkSpace_careful fun same _ => ?_
    apply (Op.meets_mapM (R := fun _ _ => True) fun _ _ => Op.lift_meets _).bind_careful
    exact fun _ _ => combine_careful ha hb same _
  | narrowing => exact narrowing_careful ha hb
  | addEpsilonBin eps =>
    refine checkSpace_careful fun same _ => (Op.lift_meets _).bind_careful fun e _ => ?_
    split
    · exact Op.careful_pure a
    · exact combine_careful ha hb same _

/-! ## One value -/

/-- A change of dimensions refuses its arguments at once, or fails below the level of the domain. -/
theorem Transform.reshapes_careful {cfg : Settings} {a : Parallelotope} {t : Transform}
    (ha : a.WellFormed) (kind : t.reshapes) : (t.run cfg a).Careful := by
  by_cases accepted : t.Accepts a.space
  · exact ((t.run_ends cfg ha accepted).mono (fun e h => ⟨.sort, h.1⟩) fun _ => id).careful
  · exact (t.run_refuses cfg kind accepted).careful

theorem Transform.run_careful {cfg : Settings} {a : Parallelotope} (ha : a.WellFormed)
    (t : Transform) : (t.run cfg a).Careful := by
  have tidy : (a.tidy cfg).Careful :=
    (tidy_keeps (K := ℚ) ha.weaken : Op.Keeps False False (a.tidy cfg) _).careful
  cases t with
  | minimize => exact tidy
  | canonicalize => exact tidy
  | approximate => exact tidy
  | closure => exact Op.careful_pure a
  | meetAffine cs => exact meetAffine_careful ha cs
  | meetTerm cs => exact meetTerm_careful ha cs
  | addRays gens => exact addRays_careful ha gens
  | addEpsilon eps => exact addEpsilon_careful eps
  | _ => exact reshapes_careful ha rfl

/-! ## Transfers -/

namespace Parallelotope

variable {cfg : Settings} {a : Parallelotope} {target : Target} {W : Parallelotope → Prop}

theorem affineMap_dense (ha : a.Shaped False) (dims : List ℕ) (exprs : List Affine) :
    Op.Meets W W True (a.affineMap cfg dims exprs) fun m =>
      ∀ e ∈ m.exprs, ∃ row, e.dense a.space.size = .ok row := by
  unfold affineMap
  refine Op.meets_foldlM
    (fun _ (m : AffineMap) => ∀ e ∈ m.exprs, ∃ row, e.dense a.space.size = .ok row) (by simp) ?_
  rintro done ⟨d, e⟩ m - rows
  refine (quasiLinearize_meets (K := ℚ) ha).bind fun e' _ => ?_
  refine (Op.meets_lift (fun _ ok => ok) fun _ _ => trivial).bind fun row dense => ?_
  refine Op.meets_pure fun e'' mem => ?_
  rcases List.mem_append.mp mem with old | new
  · exact rows e'' old
  · exact ⟨row, List.mem_singleton.mp new ▸ dense⟩

theorem finish_careful (ha : a.WellFormed) (ht : target.WellFormed) (space : target.InSpace a.space) :
    (a.finish cfg target).Careful := (finish_keeps (K := ℚ) ha ht space).careful

theorem move_finish_careful {s : Space} {g : Frame} (regular : g.Regular s.size)
    (ht : target.WellFormed) (space : target.InSpace s) :
    Op.Careful (do (← Op.move ⟨s, some g⟩).finish cfg target) := by
  have shaped : Shaped False ⟨s, some g⟩ := shaped_mk regular False.elim
  have moved : Op.Meets (·.WellFormed) (·.Shaped False) False (Op.move ⟨s, some g⟩)
      (· = ⟨s, some g⟩) := Op.move_meets shaped rfl
  have finished : Op.Meets (·.WellFormed) (·.WellFormed) False
      (do (← Op.move ⟨s, some g⟩).finish cfg target) (Finishes ⟨s, some g⟩ target ℚ) := by
    apply moved.bind_total
    rintro _ rfl
    exact finish_meets shaped rfl ht space
  exact finished.careful

theorem assignAffine_careful (ha : a.WellFormed) (ht : target.WellFormed) (data : List Datum)
    (exprs : List Affine) : (a.assignAffine cfg data exprs target).Careful := by
  unfold assignAffine
  apply (checkTransfer_meets ht).bind_careful
  rintro dims ⟨rfl, distinct, inside, same, space⟩
  cases hf : a.frame? with
  | none => exact finish_careful ha ht space
  | some f =>
    dsimp only
    split
    · exact finish_careful ha ht space
    · apply Op.Meets.bind_careful ((affineMap_meets (S := fun x : ℕ → ℚ => a.Points x) distinct inside
        same fun e _ => (quasiLinearize_meets ha.weaken).imp fun e' => And.right).and
          (affineMap_dense ha.weaken dims exprs))
      rintro m ⟨maps, rows⟩
      -- From here on nothing fails, since every expression has its row.
      have fails : ∀ e ∈ m.exprs, ∀ cause, e.dense a.space.size = .error cause → False := by
        intro e mem cause error
        obtain ⟨row, dense⟩ := rows e mem
        rw [dense] at error
        cases error
      have finished : ∀ {x : Op Parallelotope} {takes : (ℕ → ℚ) → List ℚ → Prop},
          Op.Keeps True False x (a.Assigns dims .none takes) →
            Op.Careful (do (← x).finish cfg target) := by
        intro x takes assigns
        have total : Op.Keeps True False (do (← x).finish cfg target) fun _ => True :=
          assigns.bind fun b assigned => (finish_keeps (K := ℚ) assigned.wellFormed ht
            (assigned.space ▸ space)).imp fun _ _ => trivial
        exact total.careful
      cases found : m.matrix.invert? with
      | some w =>
        apply (assignInvertible_meets (K := ℚ) (ha f hf).1 maps.shape found maps.consts).bind_careful
        exact fun g image => move_finish_careful image.1 ht space
      | none =>
        dsimp only
        split
        · exact finished
            (assignThroughFresh_meets ha distinct inside (same.trans maps.count.symm) fails)
        · rename_i mentioned
          have free : ∀ e ∈ m.exprs, ∀ d ∈ dims, e.coeff? d = none := by simpa using mentioned
          exact finished (assignForgetting_meets ha distinct inside free fails)

theorem assignTerm_careful (ha : a.WellFormed) (ht : target.WellFormed) (data : List Datum)
    (terms : List Term) : (a.assignTerm cfg data terms target).Careful := by
  unfold assignTerm
  apply (checkTransfer_meets ht).bind_careful
  rintro dims ⟨-, -, -, -, space⟩
  split
  · exact finish_careful ha ht space
  · apply (Op.meets_mapM (R := fun _ _ => True) fun t _ =>
      (linearize_meets (K := ℚ) ha.weaken t).imp fun _ _ => trivial).bind_careful
    exact fun exprs _ => assignAffine_careful ha ht data exprs

theorem substituteAffine_careful (ha : a.WellFormed) (ht : target.WellFormed) (data : List Datum)
    (exprs : List Affine) : (a.substituteAffine cfg data exprs target).Careful := by
  unfold substituteAffine
  apply (checkTransfer_meets ht).bind_careful
  rintro dims ⟨rfl, distinct, inside, same, space⟩
  cases hf : a.frame? with
  | none => exact finish_careful ha ht space
  | some f =>
    dsimp only
    split
    · exact finish_careful ha ht space
    · apply (mapBefore_meets (K := ℚ) ha distinct inside same).bind_careful
      intro m maps
      apply (Op.meets_lift_ok (Mat.mul_eq maps.shape) rfl).bind_careful
      rintro _ rfl
      obtain ⟨shape, lengths⟩ := composed_lengths (ha f hf).1 maps.shape cfg.precision
      apply (Op.meets_lift (P := fun found => Mat.isInvertible _ = .ok found) (fun _ run => run)
        fun _ _ => trivial).bind_careful
      intro invertible found
      cases invertible with
      | true =>
        have regular : (composed cfg.precision f m).Regular a.space.size :=
          Frame.regular_mk (Mat.regular_of_isInvertible shape found) lengths
        exact move_finish_careful regular ht space
      | false =>
        -- The product is singular, so it is rebuilt from directions; that and the rest cannot fail.
        simp only [Bool.false_eq_true, if_false]
        apply Op.inexact_meets.bind_careful
        intro _ _
        apply (seed_meets (K := ℚ) fun d hd => shape.width _ (List.of_mem_zip hd).1).bind_careful
        intro b covers
        have total : Op.Keeps True False (do (← Op.move b).finish cfg target)
            (b.Finishes target ℚ) := by
          apply (Op.move_meets (P := (· = b)) covers.wellFormed rfl).bind
          rintro _ rfl
          exact finish_keeps covers.wellFormed ht (covers.space ▸ space)
        exact total.careful

theorem substituteTerm_careful (ha : a.WellFormed) (ht : target.WellFormed) (data : List Datum)
    (terms : List Term) : (a.substituteTerm cfg data terms target).Careful := by
  unfold substituteTerm
  apply (checkTransfer_meets ht).bind_careful
  rintro dims ⟨-, -, -, -, space⟩
  split
  · exact finish_careful ha ht space
  · apply (before_meets (K := ℚ) ha).bind_careful
    rintro source ⟨-, wellFormed, -⟩
    apply Op.Meets.bind_careful (Op.aside_meets (Op.meets_mapM (R := fun _ _ => True) fun t _ =>
      (linearize_meets (K := ℚ) wellFormed.weaken t).imp fun _ _ => trivial : Op.Keeps True True _ _))
    exact fun exprs _ => substituteAffine_careful ha ht data exprs

end Parallelotope

theorem Transfer.run_careful {cfg : Settings} {a : Parallelotope} (ha : a.WellFormed)
    {target : Target} (ht : target.WellFormed) (t : Transfer) : (t.run cfg a target).Careful := by
  cases t with
  | assignAffine dims exprs => exact assignAffine_careful ha ht dims exprs
  | substituteAffine dims exprs => exact substituteAffine_careful ha ht dims exprs
  | assignTerm dims terms => exact assignTerm_careful ha ht dims terms
  | substituteTerm dims terms => exact substituteTerm_careful ha ht dims terms

/-! ## Calls -/

theorem Call.run_careful {cfg : Settings} {ops : Operands} (sound : ops.Sound)
    (thresholds : List Datum) (consume : Bool) {c : Call} {r : Ref} (subject : c.subject? = some r) :
    (c.run cfg thresholds ops consume).Careful := by
  cases c with
  | transform t a => exact (t.run_careful (sound.wellFormed a)).bind_pure Effect.change
  | combine c a b =>
    exact (c.run_careful (sound.wellFormed a) (sound.wellFormed b) thresholds).bind_pure Effect.change
  | transfer t a target =>
    exact (t.run_careful (sound.wellFormed a)
      (targetOf_wellFormed sound consume a target)).bind_pure Effect.change
  | _ => cases subject

end SkewBox
