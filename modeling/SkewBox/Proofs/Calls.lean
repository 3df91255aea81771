import SkewBox.Call
import SkewBox.Proofs.Assignment
import SkewBox.Proofs.Constraints
import SkewBox.Proofs.Payload
import SkewBox.Proofs.Substitution
import SkewBox.Proofs.Widening

/-!
# Calls in shape

Whatever a call of a domain does, on well-formed operands it gives a well-formed value and leaves one
in its subject, also when it fails.

* `Operands.Sound`: operands that are well-formed and share no rows.
* `Call.run_keeps`: every call.
-/

namespace SkewBox

variable {cfg : Settings} {a b : Parallelotope} {W : Parallelotope → Prop}

namespace Parallelotope

/-! ## Questions -/

theorem boundDimension_reads (ha : a.Shaped False) (d : Datum) :
    Op.Meets W W True (a.boundDimension cfg d) fun _ => True := by
  refine (Op.lift_meets _).bind fun d _ => ?_
  cases hf : a.frame? with
  | none => exact Op.meets_pure trivial
  | some f => exact (Op.invert_meets (ha f hf).1).bind fun g _ => Op.lift_meets _

theorem boundTerm_reads (ha : a.Shaped False) (t : Term) :
    Op.Meets W W True (a.boundTerm cfg t) fun _ => True := by
  unfold boundTerm
  split
  · exact Op.meets_pure trivial
  · refine (linearize_meets (K := ℚ) ha t).bind fun e _ => ?_
    exact (boundAffine_meets (K := ℚ) ha fun _ => trivial).imp fun _ _ => trivial

theorem toBox_reads (ha : a.Shaped False) : Op.Meets W W True (a.toBox cfg) fun _ => True := by
  unfold toBox
  cases hf : a.frame? with
  | none => exact Op.meets_pure trivial
  | some f =>
    dsimp only
    split
    · exact Op.meets_pure trivial
    · refine (Op.invert_meets (ha f hf).1).bind fun g _ => ?_
      exact (Op.meets_mapM (R := fun _ _ => True) fun _ _ => Op.lift_meets _).imp fun _ _ => trivial

theorem toGenerators_reads (ha : a.Shaped False) :
    Op.Meets W W True (a.toGenerators cfg) fun _ => True := by
  unfold toGenerators
  cases hf : a.frame? with
  | none => exact Op.meets_pure trivial
  | some f =>
    refine (Op.invert_meets (ha f hf).1).bind fun g _ => ?_
    refine (Op.lift_meets _).bind fun inverse _ => ?_
    refine (Op.meets_mapM (R := fun _ _ => True) ?_).bind fun extra _ => ?_
    · rintro ⟨I, i⟩ -
      exact (Op.lift_meets _).bind fun _ _ => Op.meets_pure trivial
    · dsimp only
      split
      · exact Op.meets_throw_bind _ trivial
      · exact Op.meets_pure trivial

end Parallelotope

open Parallelotope

theorem Query.run_meets (ha : a.WellFormed) (q : Query) :
    Op.Meets W W True (q.run cfg a) fun _ => True := by
  have answered : ∀ {α : Type} {x : Op α} {answer : α → Answer}, Op.Meets W W True x (fun _ => True) →
      Op.Meets W W True (do return answer (← x)) fun _ => True :=
    fun reads => reads.bind fun _ _ => Op.meets_pure trivial
  have affine : ∀ e, Op.Meets W W True (a.boundAffine cfg e) fun _ => True :=
    fun e => (boundAffine_meets (K := ℚ) ha.weaken fun _ => trivial).imp fun _ _ => trivial
  cases q with
  | fingerprint =>
    refine Op.Meets.bind (P := fun _ => True) ?_ fun _ _ => Op.meets_pure trivial
    unfold Parallelotope.fingerprint
    split
    · exact Op.meets_pure trivial
    · exact (toBox_reads ha.weaken).bind fun _ _ => Op.meets_pure trivial
  | format names => exact answered (Op.lift_meets _)
  | encode => exact answered (Op.lift_meets _)
  | toBox => exact answered (toBox_reads ha.weaken)
  | toGenerators => exact answered (toGenerators_reads ha.weaken)
  | isUnconstrained d => exact answered (Op.lift_meets _)
  | boundDimension d => exact answered (boundDimension_reads ha.weaken d)
  | boundAffine e => exact answered (affine e)
  | boundTerm t => exact answered (boundTerm_reads ha.weaken t)
  | satInterval d range =>
    refine (Op.lift_meets _).bind fun I _ => answered ?_
    exact (boundDimension_reads ha.weaken d).bind fun _ _ => Op.meets_pure trivial
  | satAffine c => exact answered ((affine c.expr).bind fun _ _ => Op.meets_pure trivial)
  | satTerm c =>
    exact answered ((boundTerm_reads ha.weaken c.expr).bind fun _ _ => Op.meets_pure trivial)
  | _ => exact Op.meets_pure trivial

theorem Parallelotope.equal_reads (ha : a.Shaped False) (hb : b.Shaped False) :
    Op.Meets W W True (a.equal cfg b) fun _ => True := by
  refine (leq_meets ha).bind fun inside _ => ?_
  split
  · exact Op.about_meets (leq_meets hb)
  · exact Op.meets_pure trivial

/-! ## New values and changes -/

theorem Build.run_keeps (s : Space) (b : Build) :
    Op.Keeps True True (b.run cfg s) (·.WellFormed) := by
  cases b with
  | bottom => exact Op.meets_pure (shaped_bottom s)
  | top => exact Op.meets_pure (top_wellFormed s)
  | ofBox box => exact Op.meets_lift (fun _ made => ofBox_wellFormed made) fun _ _ => trivial
  | ofAffine cs => exact meetAffine_keeps (top_wellFormed s) cs
  | ofTerms cs => exact meetTerm_keeps (top_wellFormed s) cs
  | ofGenerators gens => exact ofGenerators_keeps s gens

theorem Transform.run_keeps (ha : a.WellFormed) (t : Transform) :
    Op.Keeps True True (t.run cfg a) (·.WellFormed) := by
  have tidy : Op.Keeps True True (a.tidy cfg) (·.WellFormed) :=
    (tidy_keeps (K := ℚ) ha.weaken).imp fun _ tidied => tidied.1.shaped
  cases t with
  | minimize => exact tidy
  | canonicalize => exact tidy
  | approximate => exact tidy
  | closure => exact Op.meets_pure ha
  | meetAffine cs => exact meetAffine_keeps ha cs
  | meetTerm cs => exact meetTerm_keeps ha cs
  | addRays gens => exact addRays_keeps ha gens
  | addEpsilon eps => exact addEpsilon_keeps ha eps
  | forget dims project =>
    refine (forget_keeps (K := ℚ) ha fun _ _ => trivial).imp ?_
    rintro b ⟨ds, -, forgets⟩
    exact forgets.wellFormed
  | addDimensions c project =>
    exact (addDimensions_keeps (K := ℚ) ha c project).imp fun _ extends_ => extends_.shaped
  | removeDimensions c =>
    refine (removeDimensions_keeps (K := ℚ) ha c).imp ?_
    rintro b ⟨ds, restricts⟩
    exact restricts.shaped
  | permute p => exact (permute_keeps (K := ℚ) ha p).imp fun _ permuted => permuted.2.1
  | expand d count => exact expand_keeps ha d count
  | fold dims => exact fold_keeps ha dims

theorem Parallelotope.meet_wellFormed (ha : a.WellFormed) (hb : b.WellFormed) :
    Op.Keeps True True (a.meet cfg b) (·.WellFormed) := by
  by_cases same : a.space = b.space
  · exact ((meet_keeps (K := ℚ) ha hb.weaken same).imp fun _ narrows => narrows.shaped).of_total
  · refine (Op.meets_lift (P := fun _ => False) (fun _ checked => same (checkSpace_eq_ok checked))
      fun _ _ => trivial).bind fun _ => False.elim

theorem Parallelotope.meetArray_wellFormed {values : List Parallelotope}
    (h : ∀ a ∈ values, a.WellFormed) : Op.Keeps True True (meetArray cfg values) (·.WellFormed) :=
  meetArray_meets h fun _ _ => meet_wellFormed

theorem Combination.run_keeps (ha : a.WellFormed) (hb : b.WellFormed) (thresholds : List Datum)
    (c : Combination) : Op.Keeps True True (c.run cfg thresholds a b) (·.WellFormed) := by
  cases c with
  | meet => exact meet_wellFormed ha hb
  | join => exact joinAt_keeps ha hb 1
  | widening => exact widening_keeps ha hb
  | wideningThresholds ts => exact wideningThresholds_keeps ha hb _
  | narrowing => exact narrowing_keeps ha hb
  | addEpsilonBin eps => exact addEpsilonBin_keeps ha hb eps

theorem Transfer.run_keeps (ha : a.WellFormed) {target : Target} (ht : target.WellFormed)
    (t : Transfer) : Op.Keeps True True (t.run cfg a target) (·.WellFormed) := by
  cases t with
  | assignAffine dims exprs =>
    exact (assignAffine_keeps (K := ℚ) ha ht).imp fun _ ⟨_, _, assigns⟩ => assigns.wellFormed
  | substituteAffine dims exprs =>
    exact (substituteAffine_keeps (K := ℚ) ha ht).imp fun _ ⟨_, _, substitutes⟩ =>
      substitutes.wellFormed
  | assignTerm dims terms =>
    exact (assignTerm_keeps (K := ℚ) ha ht).imp fun _ ⟨_, _, assigns⟩ => assigns.wellFormed
  | substituteTerm dims terms =>
    exact (substituteTerm_keeps (K := ℚ) ha ht).imp fun _ ⟨_, _, substitutes⟩ =>
      substitutes.wellFormed

/-! ## Calls -/

/-- Every reference stands for a well-formed value, and different ones share no rows. -/
structure Operands.Sound (ops : Operands) : Prop where
  wellFormed : ∀ r, (ops.value r).WellFormed
  apart : ∀ r o, r ≠ o → ops.shared r o = {}

/-- The value that an effect brings about is well-formed; no call of a domain brings about a value
with ranges but without axes, or an answer beside a change. -/
def Effect.WellFormed : Effect → Prop
  | .create a _ => a.WellFormed
  | .change a => a.WellFormed
  | .answer _ => True
  | .createBare .. => False
  | .changeFor .. => False

theorem targetOf_wellFormed {ops : Operands} (sound : ops.Sound) (consume : Bool) (a : Ref)
    (target : Option Ref) : (targetOf ops consume a target).WellFormed := by
  cases target with
  | none => trivial
  | some o =>
    by_cases operand : (consume && a = o) = true
    · rw [targetOf, if_pos operand]
      trivial
    · rw [targetOf, if_neg operand]
      refine ⟨sound.wellFormed o, ?_⟩
      cases consume with
      | false => rfl
      | true => exact sound.apart a o (by simpa using operand)

theorem Call.run_keeps {ops : Operands} (sound : ops.Sound) (thresholds : List Datum) (consume : Bool)
    (c : Call) : Op.Keeps True True (c.run cfg thresholds ops consume) (·.WellFormed) := by
  have values : ∀ rs : List Ref, ∀ a ∈ rs.map ops.value, a.WellFormed := by
    intro rs a ha
    obtain ⟨r, -, rfl⟩ := List.mem_map.mp ha
    exact sound.wellFormed r
  cases c with
  | build ints reals b =>
    refine (Op.lift_meets _).bind fun s _ => ?_
    exact (b.run_keeps s).bind fun a ha => Op.meets_pure ha
  | decode bytes =>
    refine (Op.meets_lift (P := fun read => read.1.WellFormed)
      (fun _ read => Payload.decode_wellFormed read) fun _ _ => trivial).bind ?_
    rintro ⟨a, used⟩ ha
    exact Op.meets_pure ha
  | copy a => exact Op.meets_pure (sound.wellFormed a)
  | meetArray rs => exact (meetArray_wellFormed (values rs)).bind fun a ha => Op.meets_pure ha
  | joinArray rs => exact (joinArray_keeps (values rs)).bind fun a ha => Op.meets_pure ha
  | query q a => exact (q.run_meets (sound.wellFormed a)).bind fun _ _ => Op.meets_pure trivial
  | leq a b => exact (leq_meets (sound.wellFormed a).weaken).bind fun _ _ => Op.meets_pure trivial
  | equal a b =>
    exact (equal_reads (sound.wellFormed a).weaken (sound.wellFormed b).weaken).bind
      fun _ _ => Op.meets_pure trivial
  | transform t a => exact (t.run_keeps (sound.wellFormed a)).bind fun a ha => Op.meets_pure ha
  | combine c a b =>
    exact (c.run_keeps (sound.wellFormed a) (sound.wellFormed b) thresholds).bind
      fun a ha => Op.meets_pure ha
  | transfer t a target =>
    exact (t.run_keeps (sound.wellFormed a) (targetOf_wellFormed sound consume a target)).bind
      fun a ha => Op.meets_pure ha

end SkewBox
