import SkewBox.Proofs.Calls
import SkewBox.Proofs.Generators
import SkewBox.Proofs.GroundedMeets

/-!
# Operations on grounded values

Unions, extrapolations, changes of the dimensions and transfers of grounded values are grounded, as are
the values that they leave behind when they fail.

* `Call.Grounded`: calls whose data are grounded.
* `Call.run_grounds`: every such call.
-/

namespace SkewBox

theorem Interval.fresh_grounded (project : Bool) : (if project then zero else top).Grounded := by
  cases project with
  | true => exact zero_grounded
  | false => exact top_grounded

/-- A value that is given as the target is grounded. -/
def Target.Grounded : Target → Prop
  | .value b _ => b.Grounded
  | _ => True

namespace Parallelotope

variable {cfg : Settings} {s : Space} {f g : Frame} {a b : Parallelotope} {W : Parallelotope → Prop}

theorem top_grounded (s : Space) : (top s).Grounded := by
  refine grounded_mk fun I hI => ?_
  obtain rfl := List.eq_of_mem_replicate hI
  exact Interval.top_grounded

theorem tidy_grounds (ha : a.Grounded) : Op.Grounds (a.tidy cfg) Grounded := by
  unfold tidy
  cases hf : a.frame? with
  | none => exact Op.meets_pure ha
  | some f => exact Op.put_grounds (ha f hf).normalize

/-! ## Union -/

theorem rangesOver_grounds (hg : g.Grounded) (f : Frame) :
    Op.Meets W W True (rangesOver cfg g f) fun Is => ∀ I ∈ Is, I.Grounded := by
  unfold rangesOver
  split
  · exact Op.meets_pure (by simp)
  refine (Op.invert_grounds hg).bind fun g hg => ?_
  exact Op.mapM_grounds fun row _ => Op.grounds_lift fun I run => hg.boundDirection run

theorem Grounded.leq_reads (ha : a.Grounded) : Op.Meets W W True (a.leq cfg b) fun _ => True :=
  leq_meets_of fun f hf => (Op.invert_grounds (ha f hf)).imp fun _ _ => trivial

theorem joinAt_grounds (ha : a.Grounded) (hb : b.Grounded) (k : ℕ) :
    Op.Grounds (joinAt cfg k a b) Grounded := by
  unfold joinAt
  refine (Op.lift_meets _).bind fun _ _ => ?_
  cases hg : b.frame? with
  | none =>
    simp only
    exact Op.meets_pure ha
  | some g =>
    cases hf : a.frame? with
    | none => exact Op.move_grounds hb
    | some f =>
      refine (Op.about_meets hb.leq_reads).bind fun inside _ => Op.inexact_if_meets ?_
      refine (Op.about_meets (rangesOver_grounds (hb g hg) f)).bind fun other hother => ?_
      refine Op.refit_grounds (Interval.grounded_zipWith fun I hI J hJ => ?_)
      exact (ha f hf I hI).join (hother J hJ)

theorem joinArray_grounds {values : List Parallelotope} (h : ∀ a ∈ values, a.Grounded) :
    Op.Grounds (joinArray cfg values) Grounded :=
  joinArray_meets h fun _ _ k ha hb => joinAt_grounds ha hb k

theorem extend_grounded {I : Interval} (h : I.Grounded) (line : Bool) (v : ℚ) :
    (extend line v I).Grounded := by
  unfold extend
  split
  · exact h
  · refine ⟨?_, ?_⟩
    · dsimp only
      split
      · exact nofun
      · exact h.lo
    · dsimp only
      split
      · exact nofun
      · exact h.hi

theorem addRays_grounds (ha : a.Grounded) (gens : List Generator) :
    Op.Grounds (a.addRays gens) Grounded := by
  unfold addRays
  refine (Op.meets_forM (R := fun _ => True) fun g _ => Op.lift_meets _).bind fun _ _ => ?_
  cases hf : a.frame? with
  | none => exact Op.meets_pure ha
  | some f =>
    refine (Op.meets_foldlM (fun _ (f : Frame) => f.Grounded) (ha f hf) fun _ g f _ hf => ?_).bind
      fun g hg => Op.put_grounds hg
    have extended : Frame.Grounded ⟨f.axes,
        List.zipWith (extend (g.kind = .line)) (Mat.mulVec f.axes g.coords) f.ranges, f.inverse?⟩ :=
      Interval.grounded_zipWith fun v _ I hI => extend_grounded (hf I hI) _ v
    exact Op.inexact_if_meets (Op.meets_pure extended)

/-! ## Extrapolation -/

theorem combine_grounds (ha : a.Grounded) (hb : b.Grounded) {step : Interval → Interval → Interval}
    (h : ∀ I J : Interval, I.Grounded → J.Grounded → (step I J).Grounded) :
    Op.Grounds (combine cfg a b step) Grounded := by
  unfold combine
  cases hg : b.frame? with
  | none =>
    simp only
    exact Op.meets_pure ha
  | some g =>
    cases hf : a.frame? with
    | none => exact Op.move_grounds hb
    | some f =>
      refine (Op.about_meets (rangesOver_grounds (hb g hg) f)).bind fun other hother => ?_
      refine Op.refit_grounds (Interval.grounded_zipWith fun I hI J hJ => ?_)
      exact h I J (ha f hf I hI) (hother J hJ)

section Ranges

variable {I J : Interval}

theorem widenRange_grounded (hI : I.Grounded) : (widenRange I J).Grounded := by
  refine ⟨?_, ?_⟩ <;> simp only [widenRange] <;> split
  · exact hI.lo
  · exact nofun
  · exact hI.hi
  · exact nofun

theorem widenTo_grounded (ts : List ℚ) (hI : I.Grounded) : (widenTo ts I J).Grounded := by
  -- A threshold is taken beyond an end of `J` that exceeds that of `I`, so it is not the far infinity.
  refine ⟨?_, ?_⟩ <;> simp only [widenTo] <;> split
  · rename_i unstable
    exact (((thresholdBelow_le ts J.lo).trans_lt unstable).trans_le (Bound.le_posInf _)).ne
  · exact hI.lo
  · rename_i unstable
    exact (((Bound.negInf_le _).trans_lt unstable).trans_le (le_thresholdAbove ts J.hi)).ne'
  · exact hI.hi

theorem narrowRange_grounded (hI : I.Grounded) (hJ : J.Grounded) : (narrowRange I J).Grounded := by
  refine ⟨?_, ?_⟩ <;> simp only [narrowRange] <;> split
  · exact hI.lo
  · exact hJ.lo
  · exact hI.hi
  · exact hJ.hi

theorem enlarge_grounded {p : Precision} {delta : Bound} (growth : delta ≠ .negInf) (lower upper : Bool)
    (hI : I.Grounded) : (enlarge p delta lower upper I).Grounded := by
  refine ⟨?_, ?_⟩ <;> simp only [enlarge] <;> split
  · exact p.add_down_ne_posInf hI.lo (Bound.neg_ne_posInf growth)
  · exact hI.lo
  · exact p.add_up_ne_negInf hI.hi growth
  · exact hI.hi

end Ranges

theorem widening_grounds (ha : a.Grounded) (hb : b.Grounded) : Op.Grounds (a.widening cfg b) Grounded :=
  (Op.lift_meets _).bind fun _ _ => combine_grounds ha hb fun _ _ hI _ => widenRange_grounded hI

theorem wideningThresholds_grounds (ha : a.Grounded) (hb : b.Grounded) (thresholds : List Datum) :
    Op.Grounds (a.wideningThresholds cfg b thresholds) Grounded := by
  refine (Op.lift_meets _).bind fun _ _ => ?_
  refine (Op.meets_mapM (R := fun _ _ => True) fun _ _ => Op.lift_meets _).bind fun ts _ => ?_
  exact combine_grounds ha hb fun _ _ hI _ => widenTo_grounded _ hI

theorem narrowing_grounds (ha : a.Grounded) (hb : b.Grounded) :
    Op.Grounds (a.narrowing cfg b) Grounded := by
  refine (Op.lift_meets _).bind fun _ _ => ?_
  split
  · exact Op.meets_pure ha
  · exact Op.move_grounds (grounded_of_none rfl)
  · exact (combine_grounds ha hb fun _ _ => narrowRange_grounded).bind fun c hc => tidy_grounds hc

theorem addEpsilon_grounds (ha : a.Grounded) (eps : Datum) :
    Op.Grounds (a.addEpsilon cfg eps) Grounded := by
  refine (Op.lift_meets _).bind fun e _ => ?_
  split
  · rename_i f m hf hm
    refine Op.refit_grounds fun I hI => ?_
    obtain ⟨J, hJ, rfl⟩ := List.mem_map.mp hI
    exact enlarge_grounded (Precision.mul_up_ne_negInf _ _) _ _ (ha f hf J hJ)
  · exact Op.meets_pure ha

theorem addEpsilonBin_grounds (ha : a.Grounded) (hb : b.Grounded) (eps : Datum) :
    Op.Grounds (a.addEpsilonBin cfg b eps) Grounded := by
  refine (Op.lift_meets _).bind fun _ _ => (Op.lift_meets _).bind fun e _ => ?_
  split
  · exact Op.meets_pure ha
  · exact combine_grounds ha hb fun _ _ hI _ => enlarge_grounded (Precision.mul_up_ne_negInf _ _) _ _ hI

end Parallelotope

/-! ## Dimensions -/

namespace Frame

variable {cfg : Settings} {s : Space} {f : Frame}

theorem eliminate_grounded {p : Precision} {d : ℕ} {pivot row : Direction} (hpivot : pivot.2.Grounded)
    (hrow : row.2.Grounded) : (eliminate p d pivot row).2.Grounded := by
  unfold eliminate
  dsimp only
  split
  · exact hrow
  · exact hrow.sub (hpivot.scale _)

theorem Grounded.eliminateAll (hf : f.Grounded) (d p : ℕ) (project : Bool) :
    (f.eliminateAll cfg s d p project).Grounded := by
  intro I hI
  obtain ⟨row, hrow, rfl⟩ := List.mem_map.mp hI
  obtain ⟨i, inside, rfl⟩ := List.mem_mapIdx.mp hrow
  split
  · exact Interval.fresh_grounded project
  · exact eliminate_grounded (Interval.grounded_getD hf Interval.top_grounded p)
      (hf.rows _ (List.getElem_mem inside))

theorem forgetAll_grounds (hf : f.Grounded) (project : Bool) (dims : List ℕ) :
    Op.Grounds (f.forgetAll cfg s project dims) (·.1.Grounded) := by
  induction dims generalizing f with
  | nil => exact Op.meets_pure hf
  | cons d dims ih =>
    have one : Op.Grounds (f.forgetOne cfg s project d) (·.1.Grounded) := by
      refine (Op.lift_meets _).bind fun rows _ => ?_
      cases f.pivotFor? d rows with
      | none => exact Op.meets_throw _ trivial
      | some p =>
        exact Op.inexact_if_meets (Op.meets_pure (hf.eliminateAll d p project))
    rw [forgetAll]
    refine one.bind fun g hg => (Op.write_grounds hg).bind fun _ _ => ?_
    exact (ih hg).bind fun h hh => Op.meets_pure hh

theorem grounded_place {n : ℕ} {targets : List ℕ} {Is : List Interval} (h : ∀ I ∈ Is, I.Grounded) :
    ∀ I ∈ place n .top targets Is, I.Grounded := by
  unfold place
  refine List.foldlRecOn (motive := fun acc : List Interval => ∀ I ∈ acc, I.Grounded) _ _ ?_ ?_
  · intro I hI
    exact List.eq_of_mem_replicate hI ▸ Interval.top_grounded
  · intro acc hacc move hmove
    exact Interval.grounded_set hacc (h _ (List.of_mem_zip hmove).2) _

theorem Grounded.moveChecked {n : ℕ} {targets : List ℕ} {g : Frame} (hf : f.Grounded)
    (run : f.moveChecked n targets = .ok g) : g.Grounded := by
  unfold Frame.moveChecked at run
  split at run
  · exact Except.ok.inj run ▸ grounded_place hf
  · contradiction

theorem grounded_foldl_setRow {row : ℕ → Vec} {I : Interval} (hI : I.Grounded) (ts : List ℕ)
    (hf : f.Grounded) : (ts.foldl (fun f t => f.setRow t (row t) I) f).Grounded :=
  List.foldlRecOn (motive := Grounded) ts _ hf fun _ h t _ => h.setRow hI t (row t)

end Frame

namespace Parallelotope

variable {cfg : Settings} {s : Space} {f g : Frame} {a b : Parallelotope} {W : Parallelotope → Prop}

theorem forget_grounds (ha : a.Grounded) (dims : List Datum) (project : Bool) :
    Op.Grounds (a.forget cfg dims project) Grounded := by
  refine (Op.lift_meets _).bind fun dims _ => ?_
  cases hf : a.frame? with
  | none => exact Op.meets_pure ha
  | some f =>
    exact (Frame.forgetAll_grounds (ha f hf) project dims).bind fun g hg => Op.put_grounds hg.normalize

theorem addDimensions_grounds (ha : a.Grounded) (c : Change) (project : Bool) :
    Op.Grounds (a.addDimensions cfg c project) Grounded := by
  unfold addDimensions
  refine (Op.meets_forM (R := fun _ => True) fun _ _ => Op.lift_meets _).bind fun _ _ => ?_
  cases hf : a.frame? with
  | none => exact Op.move_grounds (grounded_of_none rfl)
  | some f =>
    dsimp only
    split
    · exact Op.meets_pure ha
    refine (Op.grounds_lift (P := Frame.Grounded) fun g run => ?_).bind fun g hg => ?_
    · obtain ⟨moved, start, same⟩ := bind_eq_ok.mp run
      obtain rfl := Except.ok.inj same
      exact Frame.grounded_foldl_setRow (Interval.fresh_grounded project) _ ((ha f hf).moveChecked start)
    · exact (Op.move_grounds (grounded_mk hg)).bind fun b hb => tidy_grounds hb

theorem removeRows_grounded (hf : f.Grounded) (ds ps : List ℕ) : (removeRows ds ps f).Grounded := by
  intro I hI
  obtain ⟨⟨J, i⟩, hJ, rfl⟩ := List.mem_map.mp hI
  exact hf J (List.fst_mem_of_mem_zipIdx (List.mem_filter.mp hJ).1)

theorem removeDimensions_grounds (ha : a.Grounded) (c : Change) :
    Op.Grounds (a.removeDimensions cfg c) Grounded := by
  refine (Op.lift_meets _).bind fun dims _ => (Op.lift_meets _).bind fun s _ => ?_
  split
  · exact Op.meets_pure ha
  cases hf : a.frame? with
  | none => exact Op.move_grounds (grounded_of_none rfl)
  | some f =>
    refine (Frame.forgetAll_grounds (ha f hf) false dims).bind fun g hg => ?_
    refine (Op.move_grounds (grounded_mk (removeRows_grounded hg dims _))).bind fun b hb => ?_
    exact tidy_grounds hb

theorem permute_grounds (ha : a.Grounded) (p : Perm) : Op.Grounds (a.permute p) Grounded := by
  unfold permute
  refine Op.guard_meets (fun _ => trivial) fun _ => ?_
  cases hf : a.frame? with
  | none => exact Op.meets_pure ha
  | some f =>
    refine (Op.grounds_lift fun g run => (ha f hf).moveChecked run).bind fun g hg => ?_
    exact Op.move_grounds (grounded_mk hg)

theorem copyDimension_grounds (ha : a.Grounded) (d pos k : ℕ) :
    Op.Grounds (a.copyDimension cfg d pos k) Grounded := by
  unfold copyDimension
  cases hf : a.frame? with
  | none => exact Op.meets_throw _ trivial
  | some f =>
    refine (Op.lift_meets _).bind fun rows _ => ?_
    cases f.pivotFor? d rows with
    | none => exact Op.meets_throw _ trivial
    | some p =>
      have range := Interval.grounded_getD (ha f hf) Interval.top_grounded p
      exact Op.put_grounds (Frame.grounded_foldl_setRow range _ (ha f hf)).normalize

theorem expand_grounds (ha : a.Grounded) (d : Datum) (count : ℤ) :
    Op.Grounds (a.expand cfg d count) Grounded := by
  unfold expand
  refine (Op.lift_meets _).bind fun d _ => ?_
  refine Op.guard_meets (fun _ => trivial) fun _ => ?_
  dsimp only
  split
  · exact Op.meets_pure ha
  have grow (c : Change) : Op.Grounds (a.addDimensions cfg c false) Grounded :=
    addDimensions_grounds ha c false
  cases hf : a.frame? with
  | none => exact grow _
  | some f =>
    refine (Op.lift_meets _).bind fun rows _ => ?_
    exact Op.inexact_if_meets ((grow _).bind fun b hb => copyDimension_grounds hb _ _ _)

theorem foldPart_grounds (ha : a.Grounded) (c : Change) (target d : ℕ) :
    Op.Grounds (a.foldPart cfg c target d) Grounded := by
  refine (forget_grounds ha [.int target] false).bind fun v hv => ?_
  cases hf : v.frame? with
  | none => exact Op.meets_throw _ trivial
  | some f =>
    refine (Op.grounds_lift fun g run => (hv f hf).moveChecked run).bind fun g hg => ?_
    exact removeDimensions_grounds (grounded_mk hg) c

theorem fold_grounds (ha : a.Grounded) (dims : List Datum) : Op.Grounds (a.fold cfg dims) Grounded := by
  unfold fold
  refine Op.guard_meets (fun _ => trivial) fun _ => ?_
  refine (Op.lift_meets _).bind fun ds _ => ?_
  refine Op.guard_meets (fun _ => trivial) fun _ => ?_
  split
  · exact Op.meets_pure ha
  · exact Op.meets_pure ha
  · rename_i d rest _ _
    have first : Op.Grounds (a.removeDimensions cfg (.listing a.space rest)) Grounded :=
      removeDimensions_grounds ha _
    split
    · exact first
    · have union : Op.Grounds (do
          let first ← a.removeDimensions cfg (.listing a.space rest)
          let others ← rest.mapM (a.foldPart cfg (.listing a.space rest) d)
          joinArray cfg (first :: others)) Grounded := by
        refine first.bind fun b hb => ?_
        refine (Op.mapM_grounds fun e _ => foldPart_grounds ha _ d e).bind fun others hothers => ?_
        exact joinArray_grounds (List.forall_mem_cons.mpr ⟨hb, hothers⟩)
      exact (Op.aside_meets union).bind fun b hb => Op.move_grounds hb

/-! ## Transfers -/

variable {target : Target}

theorem finish_grounds (ha : a.Grounded) (apart : target.WellFormed) (ht : target.Grounded) :
    Op.Grounds (a.finish cfg target) Grounded := by
  unfold finish
  refine (targetValue?_meets apart).bind ?_
  rintro _ rfl
  have meets (b : Parallelotope) (hb : b.Grounded) : Op.Grounds (do (← a.meet cfg b).tidy cfg) Grounded :=
    (meet_grounds ha hb).bind fun c hc => tidy_grounds hc
  cases target with
  | none => exact tidy_grounds ha
  | operand => exact meets a ha
  | value b sharing => exact meets b ht

/-- The constants and the expressions of the map are grounded. -/
structure AffineMap.Grounded (m : AffineMap) : Prop where
  consts : ∀ I ∈ m.consts, I.Grounded
  exprs : ∀ e ∈ m.exprs, e.Grounded

theorem affineMap_grounds (ha : a.Grounded) (dims : List ℕ) {exprs : List Affine}
    (h : ∀ e ∈ exprs, e.Grounded) :
    Op.Meets W W True (a.affineMap cfg dims exprs) AffineMap.Grounded := by
  have start : AffineMap.Grounded ⟨.identity a.space.size, List.replicate a.space.size .zero, []⟩ := by
    refine ⟨fun I hI => ?_, by simp⟩
    exact List.eq_of_mem_replicate hI ▸ Interval.zero_grounded
  refine Op.meets_foldlM (fun _ m => AffineMap.Grounded m) start fun done item m part hm => ?_
  obtain ⟨d, e⟩ := item
  have mem : (d, e) ∈ dims.zip exprs := part.subset (List.mem_append_right _ (List.mem_singleton_self _))
  refine (quasiLinearize_grounds ha (h e (List.of_mem_zip mem).2)).bind fun e' he' => ?_
  refine (Op.lift_meets _).bind fun row _ => Op.meets_pure ⟨Interval.grounded_set hm.consts he'.const d, ?_⟩
  exact List.forall_mem_append.mpr ⟨hm.exprs, by simpa using he'⟩

theorem assignInvertible_grounds (hf : f.Grounded) {consts : List Interval}
    (h : ∀ I ∈ consts, I.Grounded) (inverse : Mat) :
    Op.Meets W W True (assignInvertible cfg f inverse consts) Frame.Grounded := by
  refine (Op.lift_meets _).bind fun axes _ => ?_
  have moved : Frame.Grounded ⟨axes, List.zipWith (fun row I =>
      I.add cfg.precision (cfg.precision.dot row consts)) axes f.ranges, none⟩ :=
    Interval.grounded_zipWith fun row _ I hI => (hf I hI).add (cfg.precision.dot_grounded row h)
  exact Op.inexact_if_meets (Op.meets_pure moved)

theorem meetEquations_grounds (ha : a.Grounded) {equations : List Direction}
    (h : ∀ d ∈ equations, d.2.Grounded) : Op.Grounds (meetEquations cfg equations a) Grounded := by
  induction equations generalizing a with
  | nil => exact Op.meets_pure ha
  | cons d rest ih =>
    obtain ⟨first, others⟩ := List.forall_mem_cons.mp h
    exact (meetDirection_grounds ha first).bind fun b hb => ih hb others

theorem assignForgetting_grounds (ha : a.Grounded) (dims : List ℕ) {exprs : List Affine}
    (h : ∀ e ∈ exprs, e.Grounded) : Op.Grounds (a.assignForgetting cfg dims exprs) Grounded := by
  refine (forget_grounds ha _ false).bind fun b hb => ?_
  refine (Op.mapM_grounds (P := fun eq : Direction => eq.2.Grounded) ?_).bind
    fun equations grounded => meetEquations_grounds hb grounded
  rintro ⟨d, e⟩ mem
  refine Op.grounds_lift fun eq made => ?_
  obtain ⟨row, -, same⟩ := bind_eq_ok.mp made
  exact Except.ok.inj same ▸ (h e (List.of_mem_zip mem).2).const

theorem assignThroughFresh_grounds (ha : a.Grounded) (dims : List ℕ) {exprs : List Affine}
    (h : ∀ e ∈ exprs, e.Grounded) : Op.Grounds (a.assignThroughFresh cfg dims exprs) Grounded := by
  refine (addDimensions_grounds ha _ false).bind fun b hb => ?_
  refine (Op.mapM_grounds (P := fun eq : Direction => eq.2.Grounded) ?_).bind fun equations grounded => ?_
  · rintro ⟨e, j⟩ mem
    refine Op.grounds_lift fun eq made => ?_
    obtain ⟨row, -, same⟩ := bind_eq_ok.mp made
    exact Except.ok.inj same ▸ (h e (List.fst_mem_of_mem_zipIdx mem)).const
  refine (meetEquations_grounds hb grounded).bind fun b hb => ?_
  refine (removeDimensions_grounds hb _).bind fun b hb => ?_
  cases hf : b.frame? with
  | none => exact Op.move_grounds (grounded_of_none rfl)
  | some f =>
    refine (Op.grounds_lift fun g run => (hb f hf).moveChecked run).bind fun g hg => ?_
    exact Op.move_grounds (grounded_mk hg)

theorem assignAffine_grounds (ha : a.Grounded) (apart : target.WellFormed) (ht : target.Grounded)
    (data : List Datum) {exprs : List Affine} (h : ∀ e ∈ exprs, e.Grounded) :
    Op.Grounds (a.assignAffine cfg data exprs target) Grounded := by
  refine (checkTransfer_meets apart).bind fun dims _ => ?_
  cases hf : a.frame? with
  | none => exact finish_grounds ha apart ht
  | some f =>
    dsimp only
    split
    · exact finish_grounds ha apart ht
    refine (affineMap_grounds ha dims h).bind fun m hm => ?_
    split
    · refine (assignInvertible_grounds (ha f hf) hm.consts _).bind fun g hg => ?_
      exact (Op.move_grounds (grounded_mk hg)).bind fun b hb => finish_grounds hb apart ht
    · split
      · exact (assignThroughFresh_grounds ha dims hm.exprs).bind fun b hb => finish_grounds hb apart ht
      · exact (assignForgetting_grounds ha dims hm.exprs).bind fun b hb => finish_grounds hb apart ht

theorem linearizeAll_grounds (ha : a.Grounded) {terms : List Term} (h : ∀ t ∈ terms, t.Grounded) :
    Op.Meets W W True (terms.mapM fun t => a.linearize cfg t) fun exprs => ∀ e ∈ exprs, e.Grounded :=
  Op.mapM_grounds fun t ht => linearize_grounds ha (h t ht)

theorem assignTerm_grounds (ha : a.Grounded) (apart : target.WellFormed) (ht : target.Grounded)
    (data : List Datum) {terms : List Term} (h : ∀ t ∈ terms, t.Grounded) :
    Op.Grounds (a.assignTerm cfg data terms target) Grounded := by
  refine (checkTransfer_meets apart).bind fun _ _ => ?_
  split
  · exact finish_grounds ha apart ht
  · refine (linearizeAll_grounds ha h).bind fun exprs grounded => ?_
    exact assignAffine_grounds ha apart ht data grounded

theorem before_grounds (ha : a.Grounded) (dims : List ℕ) :
    Op.Meets W W True (a.before cfg dims) Grounded :=
  Op.scratch_meets (forget_grounds ha _ false)

theorem mapBefore_grounds (ha : a.Grounded) (dims : List ℕ) {exprs : List Affine}
    (h : ∀ e ∈ exprs, e.Grounded) :
    Op.Meets W W True (a.mapBefore cfg dims exprs) AffineMap.Grounded := by
  have read (source : Parallelotope) (hs : source.Grounded) :
      Op.Meets W W True (Op.aside (source.affineMap cfg dims exprs)) AffineMap.Grounded :=
    Op.aside_meets (affineMap_grounds (W := W) hs dims h)
  unfold mapBefore
  split
  · exact (Op.meets_pure ha).bind read
  · exact (before_grounds ha dims).bind read

theorem substituteAffine_grounds (ha : a.Grounded) (apart : target.WellFormed) (ht : target.Grounded)
    (data : List Datum) {exprs : List Affine} (h : ∀ e ∈ exprs, e.Grounded) :
    Op.Grounds (a.substituteAffine cfg data exprs target) Grounded := by
  refine (checkTransfer_meets apart).bind fun dims _ => ?_
  cases hf : a.frame? with
  | none => exact finish_grounds ha apart ht
  | some f =>
    dsimp only
    split
    · exact finish_grounds ha apart ht
    refine (mapBefore_grounds ha dims h).bind fun m hm => (Op.lift_meets _).bind fun rows _ => ?_
    have ranges : Frame.Grounded ⟨rows, List.zipWith (fun row I => Interval.sub cfg.precision I
        (cfg.precision.dot row m.consts)) f.axes f.ranges, none⟩ :=
      Interval.grounded_zipWith fun row _ I hI =>
        (ha f hf I hI).sub (cfg.precision.dot_grounded row hm.consts)
    refine (Op.lift_meets _).bind fun invertible _ => ?_
    split
    · exact (Op.move_grounds (grounded_mk ranges)).bind fun b hb => finish_grounds hb apart ht
    · -- Rows that have become dependent are the directions of a new value.
      refine Op.inexact_meets.bind fun _ _ => ?_
      refine (seed_grounds fun d hd => ranges d.2 (List.of_mem_zip hd).2).bind fun b hb => ?_
      exact (Op.move_grounds hb).bind fun b hb => finish_grounds hb apart ht

theorem substituteTerm_grounds (ha : a.Grounded) (apart : target.WellFormed) (ht : target.Grounded)
    (data : List Datum) {terms : List Term} (h : ∀ t ∈ terms, t.Grounded) :
    Op.Grounds (a.substituteTerm cfg data terms target) Grounded := by
  refine (checkTransfer_meets apart).bind fun checked _ => ?_
  split
  · exact finish_grounds ha apart ht
  · refine (before_grounds ha checked).bind fun source hs => ?_
    refine (Op.aside_meets (linearizeAll_grounds (W := Grounded) hs h)).bind fun exprs grounded => ?_
    exact substituteAffine_grounds ha apart ht data grounded

/-! ## Construction -/

theorem ofIntervals_grounded {box : List Interval}
    (h : (∀ I ∈ box, I.lo ≤ I.hi) → ∀ I ∈ box, I.Grounded) : (ofIntervals cfg s box).Grounded := by
  unfold ofIntervals
  split
  · exact grounded_of_none rfl
  · rename_i full
    have ordered : ∀ I ∈ box, I.lo ≤ I.hi := by simpa [Interval.isBottom] using full
    have boxed : Frame.Grounded ⟨.identity s.size, box, none⟩ := h ordered
    exact (grounded_mk boxed).normalize cfg

theorem hullAt_grounded (vertices : List Vec) (j : ℕ) : (hullAt vertices j).Grounded := by
  cases vertices with
  | nil => exact Interval.bottom_grounded
  | cons v rest => exact (hullAt_has (K := ℚ) (List.mem_cons_self ..) j).grounded

theorem ofGenerators_grounds (s : Space) (gens : List Generator) :
    Op.Grounds (ofGenerators cfg s gens) Grounded := by
  unfold ofGenerators
  cases gens.find? fun g => g.coords.length ≠ s.size with
  | some g => exact Op.meets_throw_bind _ trivial
  | none =>
    have rays (vertices : List Vec) (gens : List Generator) : Op.Grounds
        ((ofIntervals cfg s ((List.range s.size).map (hullAt vertices))).addRays gens) Grounded := by
      refine addRays_grounds (ofIntervals_grounded fun _ I hI => ?_) gens
      obtain ⟨j, -, rfl⟩ := List.mem_map.mp hI
      exact hullAt_grounded vertices j
    dsimp only
    split
    · exact Op.meets_pure (grounded_of_none rfl)
    · exact Op.inexact_if_meets (rays _ _)

theorem ofBox_grounded {box : List Datum} (h : ∀ d ∈ box, ∀ I, Interval.ofDatum d = .ok I → ¬ I.Lone)
    (made : ofBox cfg s box = .ok a) : a.Grounded := by
  unfold ofBox at made
  split at made
  · contradiction
  · obtain ⟨Is, read, same⟩ := bind_eq_ok.mp made
    obtain rfl := Except.ok.inj same
    refine ofIntervals_grounded fun ordered I hI => ?_
    obtain ⟨d, hd, read⟩ := exists_of_mem_right (mapM_eq_ok.mp read) hI
    exact ((Interval.filled_iff_not_lone (ordered I hI)).mpr (h d hd I read)).grounded

end Parallelotope

/-! ## Calls -/

/-- The data of a construction are grounded. -/
def Build.Grounded : Build → Prop
  | ofBox box => ∀ d ∈ box, ∀ I, Interval.ofDatum d = .ok I → ¬ I.Lone
  | ofAffine cs => ∀ c ∈ cs, c.expr.Grounded
  | ofTerms cs => ∀ c ∈ cs, c.expr.Grounded
  | _ => True

/-- The data of a change are grounded. -/
def Transform.Grounded : Transform → Prop
  | meetAffine cs => ∀ c ∈ cs, c.expr.Grounded
  | meetTerm cs => ∀ c ∈ cs, c.expr.Grounded
  | _ => True

/-- The expressions of a transfer are grounded. -/
def Transfer.Grounded : Transfer → Prop
  | assignAffine _ exprs => ∀ e ∈ exprs, e.Grounded
  | substituteAffine _ exprs => ∀ e ∈ exprs, e.Grounded
  | assignTerm _ terms => ∀ t ∈ terms, t.Grounded
  | substituteTerm _ terms => ∀ t ∈ terms, t.Grounded

/-- The ranges among the data of a call are grounded: those of boxes, of coefficients and of values that
are read back within the limits. -/
def Call.Grounded (limits : Limits) : Call → Prop
  | build _ _ b => b.Grounded
  | decode bytes => ∀ a used, Payload.decode limits bytes = .ok (a, used) → a.Grounded
  | transform t _ => t.Grounded
  | transfer t _ _ => t.Grounded
  | _ => True

/-- The value that an effect brings about is grounded. -/
def Effect.Grounded : Effect → Prop
  | .create a _ => a.Grounded
  | .change a => a.Grounded
  | _ => True

variable {cfg : Settings} {a b : Parallelotope}

open Parallelotope

theorem Build.run_grounds (s : Space) {b : Build} (hb : b.Grounded) :
    Op.Grounds (b.run cfg s) Parallelotope.Grounded := by
  cases b with
  | bottom => exact Op.meets_pure (grounded_of_none rfl)
  | top => exact Op.meets_pure (top_grounded s)
  | ofBox box => exact Op.grounds_lift fun _ made => ofBox_grounded hb made
  | ofAffine cs => exact meetAffine_grounds (top_grounded s) hb
  | ofTerms cs => exact meetTerm_grounds (top_grounded s) hb
  | ofGenerators gens => exact ofGenerators_grounds s gens

theorem Transform.run_grounds (ha : a.Grounded) {t : Transform} (ht : t.Grounded) :
    Op.Grounds (t.run cfg a) Parallelotope.Grounded := by
  cases t with
  | minimize => exact tidy_grounds ha
  | canonicalize => exact tidy_grounds ha
  | approximate => exact tidy_grounds ha
  | closure => exact Op.meets_pure ha
  | meetAffine cs => exact meetAffine_grounds ha ht
  | meetTerm cs => exact meetTerm_grounds ha ht
  | addRays gens => exact addRays_grounds ha gens
  | addEpsilon eps => exact addEpsilon_grounds ha eps
  | forget dims project => exact forget_grounds ha dims project
  | addDimensions c project => exact addDimensions_grounds ha c project
  | removeDimensions c => exact removeDimensions_grounds ha c
  | permute p => exact permute_grounds ha p
  | expand d count => exact expand_grounds ha d count
  | fold dims => exact fold_grounds ha dims

theorem Combination.run_grounds (ha : a.Grounded) (hb : b.Grounded) (thresholds : List Datum)
    (c : Combination) : Op.Grounds (c.run cfg thresholds a b) Parallelotope.Grounded := by
  cases c with
  | meet => exact meet_grounds ha hb
  | join => exact joinAt_grounds ha hb 1
  | widening => exact widening_grounds ha hb
  | wideningThresholds ts => exact wideningThresholds_grounds ha hb _
  | narrowing => exact narrowing_grounds ha hb
  | addEpsilonBin eps => exact addEpsilonBin_grounds ha hb eps

theorem Transfer.run_grounds (ha : a.Grounded) {target : Target} (apart : target.WellFormed)
    (htarget : target.Grounded) {t : Transfer} (ht : t.Grounded) :
    Op.Grounds (t.run cfg a target) Parallelotope.Grounded := by
  cases t with
  | assignAffine dims exprs => exact assignAffine_grounds ha apart htarget dims ht
  | substituteAffine dims exprs => exact substituteAffine_grounds ha apart htarget dims ht
  | assignTerm dims terms => exact assignTerm_grounds ha apart htarget dims ht
  | substituteTerm dims terms => exact substituteTerm_grounds ha apart htarget dims ht

theorem targetOf_grounded {ops : Operands} (grounded : ∀ r, (ops.value r).Grounded) (consume : Bool)
    (a : Ref) (target : Option Ref) : (targetOf ops consume a target).Grounded := by
  cases target with
  | none => trivial
  | some o =>
    by_cases operand : (consume && a = o) = true
    · rw [targetOf, if_pos operand]
      trivial
    · rw [targetOf, if_neg operand]
      exact grounded o

/-- On sound and grounded operands every call with grounded data leaves its subject grounded and has a
grounded effect. -/
theorem Call.run_grounds {ops : Operands} (sound : ops.Sound) (grounded : ∀ r, (ops.value r).Grounded)
    (thresholds : List Datum) (consume : Bool) {c : Call} (hc : c.Grounded cfg.limits) :
    Op.Grounds (c.run cfg thresholds ops consume) Effect.Grounded := by
  have values (rs : List Ref) : ∀ a ∈ rs.map ops.value, a.Grounded := by
    intro a ha
    obtain ⟨r, -, rfl⟩ := List.mem_map.mp ha
    exact grounded r
  cases c with
  | build ints reals b =>
    refine (Op.lift_meets _).bind fun s _ => ?_
    exact (b.run_grounds s hc).bind fun a ha => Op.meets_pure ha
  | decode bytes =>
    refine (Op.grounds_lift (P := fun read => read.1.Grounded) fun read made => hc _ _ made).bind ?_
    rintro ⟨a, used⟩ ha
    exact Op.meets_pure ha
  | copy a => exact Op.meets_pure (grounded a)
  | meetArray rs => exact (meetArray_grounds (values rs)).bind fun a ha => Op.meets_pure ha
  | joinArray rs => exact (joinArray_grounds (values rs)).bind fun a ha => Op.meets_pure ha
  | query q a => exact (q.run_meets (sound.wellFormed a)).bind fun _ _ => Op.meets_pure trivial
  | leq a b => exact (grounded a).leq_reads.bind fun _ _ => Op.meets_pure trivial
  | equal a b =>
    exact (equal_reads (sound.wellFormed a).weaken (sound.wellFormed b).weaken).bind
      fun _ _ => Op.meets_pure trivial
  | transform t a => exact (t.run_grounds (grounded a) hc).bind fun a ha => Op.meets_pure ha
  | combine c a b =>
    exact (c.run_grounds (grounded a) (grounded b) thresholds).bind fun a ha => Op.meets_pure ha
  | transfer t a target =>
    have apart := targetOf_wellFormed sound consume a target
    have htarget := targetOf_grounded grounded consume a target
    exact (t.run_grounds (grounded a) apart htarget hc).bind fun a ha => Op.meets_pure ha

end SkewBox
