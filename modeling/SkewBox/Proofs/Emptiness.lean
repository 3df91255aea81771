import SkewBox.Proofs.GroundedOperations
import SkewBox.Proofs.Sessions

/-!
# Emptiness

A value is called empty when it has no rows.  A value with rows has a rational point as soon as each of
its ranges holds a rational, since the rows are independent; and a range with its ends in order holds
one unless it is an infinity alone.  Such ranges come from the data of calls only.

* `Session.Grounded`: sessions all of whose objects are grounded.
* `Session.Grounded.perform`, `performAll`: a step with grounded data, and a run of such steps.
* `Session.emptiness_decided`: which values of a run have no point.
-/

namespace SkewBox

namespace Parallelotope

variable {a : Parallelotope}

theorem WellFormed.exists_has_iff (ha : a.WellFormed) :
    (∃ x : ℕ → ℚ, a.Has x) ↔ ∃ f, a.frame? = some f ∧ ∀ I ∈ f.ranges, ¬ I.Lone := by
  constructor
  · rintro ⟨x, f, hf, has⟩
    obtain ⟨regular, ordered⟩ := ha f hf
    refine ⟨f, hf, fun I hI => (Interval.filled_iff_not_lone (ordered trivial I hI)).mp ?_⟩
    obtain ⟨i, inside, rfl⟩ := List.mem_iff_getElem.mp hI
    refine ⟨f.axes.image x i, ?_⟩
    rw [← List.getD_eq_getElem _ .top inside]
    exact (Frame.has_iff regular.same).mp has i
  · rintro ⟨f, hf, proper⟩
    obtain ⟨regular, ordered⟩ := ha f hf
    have filled : f.Filled := fun I hI =>
      (Interval.filled_iff_not_lone (ordered trivial I hI)).mpr (proper I hI)
    obtain ⟨x, has⟩ := regular.exists_has (K := ℚ) filled
    exact ⟨x, f, hf, has⟩

theorem WellFormed.forall_not_has_iff (ha : a.WellFormed) :
    (∀ x : ℕ → ℚ, ¬ a.Has x) ↔
      a.isBottom = true ∨ ∃ f, a.frame? = some f ∧ ∃ I ∈ f.ranges, I.Lone := by
  rw [← not_exists, ha.exists_has_iff]
  cases hf : a.frame? with
  | none => simp [isBottom, hf]
  | some f => simp [isBottom, hf]

theorem Grounded.remember (ha : a.Grounded) : a.remember.Grounded := by
  unfold Parallelotope.remember
  split
  · exact ha
  · rename_i f hf
    split
    · rename_i g run
      exact grounded_mk ((ha f hf).remember run)
    · exact ha

end Parallelotope

namespace Session

variable {s : Session} {x : Run}

/-! ## Steps -/

/-- Every object is grounded. -/
def Grounded (s : Session) : Prop :=
  ∀ (i : Ref) (o : Object), s.objects[i]? = some o → o.value.Grounded

theorem Grounded.value (grounded : s.Grounded) (r : Ref) : (s.value r).Grounded := by
  unfold Session.value
  split
  · rename_i o found
    exact grounded r o found
  · exact Parallelotope.grounded_of_none rfl

theorem Grounded.remember (grounded : s.Grounded) (rs : List Ref) : (s.remember rs).Grounded := by
  unfold Session.remember
  refine List.foldlRecOn (motive := Session.Grounded) rs _ grounded fun t ht r _ i o found => ?_
  obtain ⟨p, hp, rfl⟩ := Option.map_eq_some_iff.mp ((List.getElem?_modify ..).symm.trans found)
  split
  · exact (ht i p hp).remember
  · exact ht i p hp

theorem Grounded.write (grounded : s.Grounded) (sound : s.Sound) (r : Ref) {a : Parallelotope}
    (ha : a.Grounded) (w : Stored) : (s.write r a w).Grounded := by
  -- No other object shares the rows, so that none sees what was written there.
  intro i o found
  obtain ⟨p, hp, rfl⟩ := Option.map_eq_some_iff.mp ((sound.getElem?_write r a w i).symm.trans found)
  split
  · exact ha
  · exact grounded i p hp

theorem Grounded.add (grounded : s.Grounded) (owner : ℕ) {a : Parallelotope} (ha : a.Grounded) :
    (s.add owner a none).2.Grounded := by
  intro i o found
  rcases getElem?_concat_eq_some found with old | ⟨-, rfl⟩
  · exact grounded i o old
  · exact ha

/-- A run gives grounded values, and leaves such a value where it fails. -/
structure Run.Grounded (x : Run) : Prop where
  left : ∀ a, x.report.left = some a → a.Grounded
  effect : ∀ e, x.result = .ok e → e.Grounded

theorem Grounded.runCall (grounded : s.Grounded) (sound : s.Sound) (cfg : Settings)
    (thresholds : List Datum) (consume : Bool) {c : Call} (hc : c.Grounded cfg.limits) :
    (s.runCall cfg thresholds consume c).Grounded := by
  have kept : Op.Grounds (c.run cfg thresholds s.operands consume) Effect.Grounded :=
    Call.run_grounds sound.operands grounded.value thresholds consume hc
  obtain ⟨left, result⟩ := kept {} fun _ h => nomatch h
  refine ⟨left, fun e ok => ?_⟩
  have returned : (c.run cfg thresholds s.operands consume {}).1 = .ok e := ok
  rwa [returned] at result

theorem Run.Grounded.content (hx : x.Grounded) (sound : x.Sound) {a : Parallelotope} (ha : a.Grounded) :
    (x.content a).Grounded := by
  unfold Run.content
  split
  · rename_i b ok
    exact hx.effect _ ok
  · rename_i b y ok
    exact (sound.effect _ ok).elim
  · cases left : x.report.left with
    | none => exact ha
    | some b => exact hx.left b left

theorem Grounded.follow (grounded : s.Grounded) (sound : s.Sound) (hx : x.Grounded) (run : x.Sound) :
    (s.follow x).Grounded := by
  have remembered := grounded.remember x.touched
  unfold Session.follow
  dsimp only
  split
  · exact remembered
  · rename_i r subject
    have content := hx.content run (remembered.value r)
    refine remembered.write (sound.remember x.touched) r ?_ _
    split
    · exact content.remember
    · exact content

theorem Grounded.settle (grounded : s.Grounded) (sound : s.Sound) (hx : x.Grounded) (run : x.Sound)
    (owner : ℕ) : (s.settle owner x).2.Grounded := by
  have followed := grounded.follow sound hx run
  unfold Session.settle
  cases result : x.result with
  | error e => exact followed
  | ok e =>
    have effect := hx.effect e result
    cases e with
    | answer y => exact followed
    | changeFor a y => exact (run.effect _ result).elim
    | createBare a spare => exact (run.effect _ result).elim
    | create a used => cases used <;> exact followed.add owner effect
    | change a =>
      dsimp only
      split
      · exact followed
      · exact followed.add owner effect

theorem Grounded.withDomains (grounded : s.Grounded) (domains : List Domain) :
    Session.Grounded { s with domains } := grounded

theorem Grounded.perform (grounded : s.Grounded) (sound : s.Sound) (k : ℕ) (consume : Bool) {c : Call}
    (hc : c.Grounded (s.domain k).config.limits) : (s.perform k consume c).2.Grounded := by
  have run := grounded.runCall sound (s.domain k).config.settings (s.domain k).config.thresholds
    (consume && c.mayConsume) hc
  exact (grounded.withDomains _).settle (sound.withDomains _) run
    (sound.runCall _ _ (consume && c.mayConsume) c) k

/-! ## Runs -/

theorem domains_remember (s : Session) (rs : List Ref) : (s.remember rs).domains = s.domains := by
  unfold Session.remember
  induction rs generalizing s with
  | nil => rfl
  | cons r rs ih => exact ih _

theorem domains_settle (s : Session) (owner : ℕ) (x : Run) : (s.settle owner x).2.domains = s.domains := by
  have followed : (s.follow x).domains = s.domains := by
    unfold Session.follow
    dsimp only
    split <;> exact domains_remember s x.touched
  unfold Session.settle
  dsimp only
  split <;> try split
  all_goals exact followed

/-- No operation changes the configuration of a domain. -/
theorem config_perform (s : Session) (k : ℕ) (consume : Bool) (c : Call) (j : ℕ) :
    ((s.perform k consume c).2.domain j).config = (s.domain j).config := by
  have recorded : ∀ (d : Domain) (x : Run), (d.record x.result x.report).config = d.config := by
    intro d x
    unfold Domain.record
    split <;> rfl
  simp only [perform, domain, domains_settle, List.getD_eq_getElem?_getD, List.getElem?_set]
  split
  · rename_i same
    subst same
    split
    · exact recorded _ _
    · rename_i outside
      rw [List.getElem?_eq_none (not_lt.mp outside)]
  · rfl

theorem grounded_empty (domains : List Domain) : Session.Grounded { domains } := nofun

theorem Grounded.performAll (grounded : s.Grounded) (sound : s.Sound) {steps : List Step}
    (h : ∀ x ∈ steps, x.call.Grounded (s.domain x.domain).config.limits) :
    (s.performAll steps).Grounded := by
  unfold Session.performAll
  induction steps generalizing s with
  | nil => exact grounded
  | cons x steps ih =>
    obtain ⟨first, rest⟩ := List.forall_mem_cons.mp h
    refine ih (grounded.perform sound x.domain x.consume first)
      (sound.perform x.domain x.consume x.call) fun y hy => ?_
    rw [config_perform]
    exact rest y hy

/-- After any run of operations, of any domains and consuming their operands or not, a value has no
rational point exactly when it is called empty or has a row bounded by an infinity alone.  No row is
if the ranges among the data of the run are grounded, and then a value is called empty exactly when it
has no rational point. -/
theorem emptiness_decided (domains : List Domain) (steps : List Step) (r : Ref) :
    let a := (performAll { domains } steps).value r
    ((∀ x : ℕ → ℚ, ¬ a.Has x) ↔
      a.isBottom = true ∨ ∃ f, a.frame? = some f ∧ ∃ I ∈ f.ranges, I.Lone) ∧
    ((∀ step ∈ steps, step.call.Grounded (domains.getD step.domain {}).config.limits) →
      (a.isBottom = true ↔ ∀ x : ℕ → ℚ, ¬ a.Has x)) := by
  intro a
  have sound : (performAll { domains } steps).Sound := (sound_empty domains).performAll steps
  refine ⟨(sound.value r).forall_not_has_iff, fun data => ?_⟩
  have grounded : (performAll { domains } steps).Grounded :=
    (grounded_empty domains).performAll (sound_empty domains) data
  rw [(sound.value r).forall_not_has_iff, or_iff_left]
  rintro ⟨f, hf, I, hI, lone⟩
  exact (grounded.value r f hf I hI).not_lone lone

/-- A box that is open below, its part above a line, and its part to the left of zero. -/
def clippedSample : List Step :=
  [⟨0, false, .build 0 2 (.ofBox [.list [.int 0, .int 4], .list [.text "-inf", .int 1]])⟩,
    ⟨0, false, .transform (.meetAffine [⟨.make [(0, .point 1), (1, .point 1)] (.point (-2)), .ge, none⟩]) 0⟩,
    ⟨0, false, .transform (.meetAffine [⟨.make [(0, .point (-1))] (.point (-1)), .ge, none⟩]) 0⟩]

theorem emptiness_decided_sample :
    (∀ step ∈ clippedSample, step.call.Grounded (([{}] : List Domain).getD step.domain {}).config.limits) ∧
    (∃ x : ℕ → ℚ, ((performAll { domains := [{}] } clippedSample).value 1).Has x) ∧
    ∀ x : ℕ → ℚ, ¬ ((performAll { domains := [{}] } clippedSample).value 2).Has x := by
  have data : ∀ step ∈ clippedSample,
      step.call.Grounded (([{}] : List Domain).getD step.domain {}).config.limits := by
    have narrow : Interval.ofDatum (.list [.int 0, .int 4]) = .ok ⟨.fin 0, .fin 4⟩ := by decide +kernel
    have low : Interval.ofDatum (.list [.text "-inf", .int 1]) = .ok ⟨.negInf, .fin 1⟩ := by decide +kernel
    refine List.forall_mem_cons.mpr ⟨?_, List.forall_mem_cons.mpr ⟨?_, List.forall_mem_singleton.mpr ?_⟩⟩
    · refine List.forall_mem_cons.mpr ⟨fun I read => ?_, List.forall_mem_singleton.mpr fun I read => ?_⟩
      · exact Except.ok.inj (narrow.symm.trans read) ▸ by decide
      · exact Except.ok.inj (low.symm.trans read) ▸ by decide
    · exact List.forall_mem_singleton.mpr (Affine.make_grounded (by decide) (by decide))
    · exact List.forall_mem_singleton.mpr (Affine.make_grounded (by decide) (by decide))
  refine ⟨data, ?_, ?_⟩
  · by_contra none
    have empty := ((emptiness_decided [{}] clippedSample 1).2 data).mpr (not_exists.mp none)
    have full : ((performAll { domains := [{}] } clippedSample).value 1).isBottom = false := by decide +kernel
    exact absurd (empty.symm.trans full) (by decide)
  · refine ((emptiness_decided [{}] clippedSample 2).2 data).mp ?_
    decide +kernel

/-- The same box in a domain of each precision; its only range is an infinity alone. -/
def boundlessSample : Session :=
  performAll { domains := [{}, { config := { numbers := .binary64 } }] }
    [⟨0, false, .build 0 1 (.ofBox [.list [.text "inf", .text "inf"]])⟩,
      ⟨1, false, .build 0 1 (.ofBox [.list [.text "inf", .text "inf"]])⟩]

/-- Neither box has a point, and neither is called empty. -/
theorem infinite_range_not_called_empty :
    ((boundlessSample.value 0).isBottom = false ∧ ∀ x : ℕ → ℚ, ¬ (boundlessSample.value 0).Has x) ∧
    ((boundlessSample.value 1).isBottom = false ∧ ∀ x : ℕ → ℚ, ¬ (boundlessSample.value 1).Has x) := by
  have sound : boundlessSample.Sound := (sound_empty _).performAll _
  have pointless (r : Ref)
      (value : boundlessSample.value r = ⟨⟨0, 1⟩, some ⟨[[1]], [.single .posInf], none⟩⟩) :
      (boundlessSample.value r).isBottom = false ∧ ∀ x : ℕ → ℚ, ¬ (boundlessSample.value r).Has x := by
    refine ⟨by rw [value]; rfl, (sound.value r).forall_not_has_iff.mpr (.inr ?_)⟩
    rw [value]
    exact ⟨_, rfl, _, List.mem_singleton_self _, .inl rfl⟩
  exact ⟨pointless 0 (by decide +kernel), pointless 1 (by decide +kernel)⟩

end Session

end SkewBox
