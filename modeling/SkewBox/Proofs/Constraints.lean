import SkewBox.Convert
import SkewBox.Proofs.Join
import SkewBox.Proofs.Seed

/-!
# Systems of constraints in shape

Values that are made from boxes, constraints and generators, and intersections with constraints, are
well-formed.

* `Parallelotope.meetAffine_keeps`, `meetTerm_keeps`: intersection with a system of constraints.
* `Parallelotope.top_wellFormed`, `ofBox_wellFormed`, `ofGenerators_keeps`: construction.
-/

namespace SkewBox

variable {W : Parallelotope → Prop} {mayFail : Prop} {cfg : Settings}

theorem Op.kept_meets {f : Frame} {n : ℕ} (regular : f.Regular n) :
    Op.Meets W W mayFail (Op.kept f) fun g => g.Regular n ∧ g.ranges = f.ranges ∧ g.axes = f.axes := by
  obtain ⟨w, remembered, inverse⟩ := regular.exists_remember
  unfold Op.kept
  refine Op.get_meets.bind fun r _ => ?_
  split
  · refine Op.meets_lift_ok remembered ⟨⟨regular.axes, regular.ranges, fun v hv => ?_⟩, rfl, rfl⟩
    exact Option.some.inj hv ▸ inverse
  · exact Op.meets_pure ⟨regular, rfl, rfl⟩

namespace Parallelotope

variable {a : Parallelotope}

/-! ## Directions of constraints -/

theorem directionOf?_meets (ha : a.Shaped False) (c : Constraint Affine) :
    Op.Meets W W True (a.directionOf? cfg c) fun d => ∀ d' ∈ d, d'.1.length = a.space.size := by
  unfold directionOf?
  refine (quasiLinearize_meets (K := ℚ) ha).bind fun e _ => ?_
  refine (Op.meets_lift (fun _ run => (Affine.dense_eq_ok (K := ℚ) run).1) fun _ _ => trivial).bind
    fun r length => ?_
  cases c.rel with
  | ge => exact Op.meets_pure (by simpa using length)
  | gt => exact Op.meets_pure (by simpa using length)
  | eq => exact Op.meets_pure (by simpa using length)
  | congr => exact Op.inexact_meets.bind fun _ _ => Op.meets_pure (by simp)
  | ne => exact Op.inexact_meets.bind fun _ _ => Op.meets_pure (by simp)

theorem rawDirections_meets (ha : a.Shaped False) (cs : List (Constraint Affine)) :
    Op.Meets W W True (rawDirections cfg a cs) fun found =>
      ∀ ds ∈ found, ∀ d ∈ ds, d.1.length = a.space.size := by
  induction cs with
  | nil => exact Op.meets_pure (by simp)
  | cons c rest ih =>
    unfold rawDirections
    by_cases outside : (a.space.size : ℤ) ≤ c.expr.maxDim
    · simp only [if_pos outside]
      exact Op.meets_throw_bind _ trivial
    simp only [if_neg outside]
    split
    · split
      · exact ih
      · exact Op.meets_pure (by simp)
    · refine (directionOf?_meets ha c).bind fun d first => ?_
      refine ih.bind fun found later => Op.meets_pure fun ds hds d' hd' => ?_
      obtain ⟨rest', hrest, rfl⟩ := Option.map_eq_some_iff.mp hds
      rcases List.mem_append.mp hd' with new | old
      · exact first d' (Option.mem_toList.mp new)
      · exact later rest' hrest d' old

theorem constraintDirections_meets (ha : a.Shaped False) (cs : List (Constraint Affine)) :
    Op.Meets W W True (constraintDirections cfg a cs) fun found =>
      ∀ ds ∈ found, ∀ d ∈ ds, d.1.length = a.space.size := by
  refine (rawDirections_meets ha cs).bind fun raw widths => Op.meets_pure fun ds hds => ?_
  obtain ⟨dirs, hdirs, merged⟩ := Option.bind_eq_some_iff.mp hds
  exact length_of_mergeDirections merged (widths dirs hdirs)

/-! ## Intersection -/

theorem meetAffine_keeps (ha : a.WellFormed) (cs : List (Constraint Affine)) :
    Op.Keeps True True (a.meetAffine cfg cs) (·.WellFormed) := by
  unfold meetAffine
  cases hf : a.frame? with
  | none => exact Op.meets_pure ha
  | some f =>
    obtain ⟨regular, ordered⟩ := ha f hf
    refine (constraintDirections_meets ha.weaken cs).bind fun found widths => ?_
    cases found with
    | none => exact Op.move_meets (shaped_bottom _) (shaped_bottom _)
    | some dirs =>
      have width := widths dirs rfl
      dsimp only
      split
      · refine (seed_meets (K := ℚ) width).bind fun b covers => ?_
        exact Op.move_meets covers.wellFormed covers.wellFormed
      · refine (Op.kept_meets regular).bind ?_
        rintro g ⟨regular', same, -⟩
        have ordered' : g.Ordered := fun I hI => ordered trivial I (same ▸ hI)
        refine (regular'.meetAll_keeps (K := ℚ) (fun _ => ordered') width).of_total.bind fun c narrows => ?_
        exact Op.put_meets narrows.shaped.toParallelotope narrows.shaped.toParallelotope

theorem meetTerm_keeps (ha : a.WellFormed) (cs : List (Constraint Term)) :
    Op.Keeps True True (a.meetTerm cfg cs) (·.WellFormed) := by
  unfold meetTerm
  by_cases empty : a.isBottom
  · simp only [if_pos empty]
    exact Op.meets_pure ha
  simp only [if_neg empty]
  refine (Op.meets_mapM (R := fun _ _ => True) fun c _ => ?_).bind fun cs' _ => meetAffine_keeps ha cs'
  refine (linearize_meets (K := ℚ) ha.weaken c.expr).bind fun e _ => ?_
  exact Op.lift_meets _

/-! ## Construction -/

theorem top_wellFormed (s : Space) : (top s).WellFormed := by
  refine shaped_mk (Frame.regular_mk (Mat.regular_identity s.size) List.length_replicate)
    fun _ I hI => ?_
  rw [List.eq_of_mem_replicate hI]
  exact Bound.negInf_le _

theorem ofIntervals_wellFormed {s : Space} {box : List Interval} (length : box.length = s.size) :
    (ofIntervals cfg s box).WellFormed := by
  unfold ofIntervals
  split
  · exact shaped_bottom s
  · have regular : Frame.Regular ⟨.identity s.size, box, none⟩ s.size :=
      Frame.regular_mk (Mat.regular_identity s.size) length
    exact (normalize_covers (K := ℚ) cfg regular).wellFormed

theorem ofBox_wellFormed {s : Space} {box : List Datum} (h : ofBox cfg s box = .ok a) :
    a.WellFormed := by
  unfold ofBox at h
  split at h
  · contradiction
  · rename_i length
    obtain ⟨Is, read, same⟩ := bind_eq_ok.mp h
    obtain rfl := Except.ok.inj same
    exact ofIntervals_wellFormed ((mapM_eq_ok.mp read).length_eq.symm.trans (not_not.mp length))

theorem ofGenerators_keeps (s : Space) (gens : List Generator) :
    Op.Keeps True True (ofGenerators cfg s gens) (·.WellFormed) := by
  unfold ofGenerators
  cases gens.find? fun g => g.coords.length ≠ s.size with
  | some g => exact Op.meets_throw_bind _ trivial
  | none =>
    dsimp only
    have rays : Op.Keeps True True ((ofIntervals cfg s ((List.range s.size).map (hullAt
        ((gens.filter fun g => g.kind = .vertex).map (·.coords))))).addRays
        (gens.filter fun g => g.kind ≠ .vertex)) (·.WellFormed) :=
      addRays_keeps (ofIntervals_wellFormed (by rw [List.length_map, List.length_range])) _
    split
    · exact Op.meets_pure (shaped_bottom s)
    · split
      · exact Op.inexact_meets.bind fun _ _ => rays
      · exact rays

end Parallelotope

end SkewBox
