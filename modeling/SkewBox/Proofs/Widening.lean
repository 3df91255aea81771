import SkewBox.Widening
import SkewBox.Proofs.Join

/-!
# Extrapolations in shape

Every extrapolation computes the ranges of the first value's axes from their ranges over the second.
Apart from narrowing, whose result is normalised, the step on a range keeps its ends in order.

* `Parallelotope.thresholdBelow_isGreatest`, `thresholdAbove_isLeast`: the threshold that is chosen.
* `Parallelotope.Combines`, `combine_combines`, `combine_meets`: the common part.
* `Parallelotope.widening_keeps`, `wideningThresholds_keeps`, `narrowing_keeps`.
* `Parallelotope.addEpsilon_keeps`, `addEpsilonBin_keeps`.
-/

namespace SkewBox

namespace Parallelotope

variable {a b : Parallelotope} {cfg : Settings}

/-! ## Steps on a range -/

section Steps

variable {I J : Interval}

theorem widenRange_ordered (hI : I.lo ≤ I.hi) : (widenRange I J).lo ≤ (widenRange I J).hi := by
  unfold widenRange
  split <;> split <;> simp [hI]

/-- The places at which a lower end may stop. -/
def stopsBelow (ts : List ℚ) : Finset Bound := insert .negInf (ts.toFinset.image .fin)

/-- The places at which an upper end may stop. -/
def stopsAbove (ts : List ℚ) : Finset Bound := insert .posInf (ts.toFinset.image .fin)

theorem thresholdBelow_isGreatest (ts : List ℚ) (b : Bound) :
    IsGreatest {c | c ∈ stopsBelow ts ∧ c ≤ b} (thresholdBelow ts b) := by
  have fold : thresholdBelow ts b =
      ((ts.filter fun t => .fin t ≤ b).map Bound.fin).foldl max .negInf := by
    rw [List.foldl_map]
    rfl
  have stops : {c | c ∈ stopsBelow ts ∧ c ≤ b} =
      {c | c ∈ .negInf :: (ts.filter fun t => .fin t ≤ b).map Bound.fin} := by
    ext c
    cases c <;> simp [stopsBelow, Bound.negInf_le]
  rw [fold, stops]
  exact foldl_max_isGreatest _ _

theorem thresholdAbove_isLeast (ts : List ℚ) (b : Bound) :
    IsLeast {c | c ∈ stopsAbove ts ∧ b ≤ c} (thresholdAbove ts b) := by
  have fold : thresholdAbove ts b =
      ((ts.filter fun t => b ≤ .fin t).map Bound.fin).foldl min .posInf := by
    rw [List.foldl_map]
    rfl
  have stops : {c | c ∈ stopsAbove ts ∧ b ≤ c} =
      {c | c ∈ .posInf :: (ts.filter fun t => b ≤ .fin t).map Bound.fin} := by
    ext c
    cases c <;> simp [stopsAbove, Bound.le_posInf]
  rw [fold, stops]
  exact foldl_min_isLeast _ _

theorem thresholdBelow_le (ts : List ℚ) (b : Bound) : thresholdBelow ts b ≤ b :=
  (thresholdBelow_isGreatest ts b).1.2

theorem le_thresholdAbove (ts : List ℚ) (b : Bound) : b ≤ thresholdAbove ts b :=
  (thresholdAbove_isLeast ts b).1.2

theorem widenTo_lo_le (ts : List ℚ) (I J : Interval) : (widenTo ts I J).lo ≤ I.lo := by
  simp only [widenTo]
  split
  · rename_i unstable
    exact (thresholdBelow_le ts J.lo).trans unstable.le
  · exact le_rfl

theorem le_widenTo_hi (ts : List ℚ) (I J : Interval) : I.hi ≤ (widenTo ts I J).hi := by
  simp only [widenTo]
  split
  · rename_i unstable
    exact unstable.le.trans (le_thresholdAbove ts J.hi)
  · exact le_rfl

theorem widenTo_ordered (ts : List ℚ) (hI : I.lo ≤ I.hi) : (widenTo ts I J).lo ≤ (widenTo ts I J).hi :=
  (widenTo_lo_le ts I J).trans (hI.trans (le_widenTo_hi ts I J))

variable {p : Precision} {delta : Bound}

theorem sub_down_le (nonneg : .fin 0 ≤ delta) (q : ℚ) : p.sub .down (.fin q) delta ≤ .fin q := by
  cases delta with
  | negInf => exact absurd nonneg Bound.not_fin_le_negInf
  | fin d =>
    refine (p.roundRat_down_le _).trans (Bound.fin_le_fin.mpr ?_)
    have := Bound.fin_le_fin.mp nonneg
    linarith
  | posInf => exact Bound.negInf_le _

theorem le_add_up (nonneg : .fin 0 ≤ delta) (q : ℚ) : .fin q ≤ p.add .up (.fin q) delta := by
  cases delta with
  | negInf => exact absurd nonneg Bound.not_fin_le_negInf
  | fin d =>
    refine le_trans (Bound.fin_le_fin.mpr ?_) (p.le_roundRat_up _)
    have := Bound.fin_le_fin.mp nonneg
    linarith
  | posInf => exact Bound.le_posInf _

theorem enlarge_ordered (nonneg : .fin 0 ≤ delta) (lower upper : Bool) (hI : I.lo ≤ I.hi) :
    (enlarge p delta lower upper I).lo ≤ (enlarge p delta lower upper I).hi := by
  have low : (enlarge p delta lower upper I).lo ≤ I.lo := by
    simp only [enlarge]
    cases I.lo with
    | fin q => split <;> simp [sub_down_le nonneg]
    | negInf => simp [Bound.isFinite]
    | posInf => simp [Bound.isFinite]
  have high : I.hi ≤ (enlarge p delta lower upper I).hi := by
    simp only [enlarge]
    cases I.hi with
    | fin q => split <;> simp [le_add_up nonneg]
    | negInf => simp [Bound.isFinite]
    | posInf => simp [Bound.isFinite]
  exact low.trans (hI.trans high)

end Steps

/-! ## Extrapolations -/

/-- What an extrapolation gives: an empty operand gives way to the other, and otherwise every range of
`a` takes a step by the range of its axis over `b`. -/
inductive Combines (cfg : Settings) (step : Interval → Interval → Interval) (a b : Parallelotope) :
    Parallelotope → Prop
  | left (empty : b.frame? = none) : Combines cfg step a b a
  | right {g : Frame} (empty : a.frame? = none) (hg : b.frame? = some g) : Combines cfg step a b b
  | both {f g : Frame} {Is : List Interval} (hf : a.frame? = some f) (hg : b.frame? = some g)
      (ranges : g.RangesOver cfg a.space.size f Is) :
      Combines cfg step a b ⟨a.space, some { f with ranges := List.zipWith step f.ranges Is }⟩

namespace Combines

variable {c : Parallelotope} {step : Interval → Interval → Interval}

theorem space_eq (combines : Combines cfg step a b c) (space : a.space = b.space) :
    c.space = a.space := by
  cases combines with
  | left _ => rfl
  | right _ _ => exact space.symm
  | both _ _ _ => rfl

theorem isSome (combines : Combines cfg step a b c) (nonempty : a.frame?.isSome) :
    c.frame?.isSome := by
  cases combines with
  | left _ => exact nonempty
  | right empty _ => simp [empty] at nonempty
  | both _ _ _ => rfl

theorem shaped {ordered : Prop} (combines : Combines cfg step a b c) (ha : a.WellFormed)
    (hb : b.WellFormed)
    (keeps : ordered → ∀ I J, I.lo ≤ I.hi → J.lo ≤ J.hi → (step I J).lo ≤ (step I J).hi) :
    c.Shaped ordered := by
  cases combines with
  | left _ => exact ha.of_true
  | right _ _ => exact hb.of_true
  | both hf hg ranges =>
    obtain ⟨regular, ordered₁⟩ := ha _ hf
    obtain ⟨-, ordered₂⟩ := hb _ hg
    exact shaped_mk (ranges.regular_zipWith regular step) fun h =>
      zipWith_ordered (keeps h) (ordered₁ trivial) (ranges.ordered (ordered₂ trivial))

end Combines

theorem combine_combines {W W' : Parallelotope → Prop} {step : Interval → Interval → Interval}
    (ha : a.Shaped False) (hb : b.Shaped False) (space : a.space = b.space) (stays : ∀ c, W c → W' c)
    (good : ∀ c, Combines cfg step a b c → W' c) :
    Op.Meets W W' False (combine cfg a b step) (Combines cfg step a b) := by
  unfold combine
  split
  · rename_i empty
    exact (Op.meets_pure (.left empty)).leaves stays
  · rename_i g empty hg
    exact Op.move_meets (good b (.right empty hg)) (.right empty hg)
  · rename_i f g hf hg
    have regular : g.Regular a.space.size := space ▸ (hb g hg).1
    have ranges : Op.Meets W W False (Op.about 1 (rangesOver cfg g f)) _ :=
      Op.about_meets (rangesOver_eq (ha f hf).1.axes.shape regular)
    refine ranges.bind_total fun Is hIs => ?_
    exact Op.refit_meets (good _ (.both hf hg hIs)) (.both hf hg hIs)

theorem combine_meets {ordered : Prop} {step : Interval → Interval → Interval} (ha : a.WellFormed)
    (hb : b.WellFormed) (space : a.space = b.space)
    (keeps : ordered → ∀ I J, I.lo ≤ I.hi → J.lo ≤ J.hi → (step I J).lo ≤ (step I J).hi) :
    Op.Meets (·.WellFormed) (·.Shaped ordered) False (combine cfg a b step) fun c =>
      c.Shaped ordered ∧ (a.frame?.isSome → c.frame?.isSome) :=
  (combine_combines ha.weaken hb.weaken space (fun _ => Shaped.of_true) fun _ combines =>
    combines.shaped ha hb keeps).imp fun _ combines => ⟨combines.shaped ha hb keeps, combines.isSome⟩

theorem widening_keeps (ha : a.WellFormed) (hb : b.WellFormed) :
    Op.Keeps True True (a.widening cfg b) (·.WellFormed) := by
  refine (Op.meets_lift (fun _ checked => checkSpace_eq_ok checked) fun _ _ => trivial).bind
    fun _ space => ?_
  exact ((combine_meets ha hb space fun _ _ _ hI _ => widenRange_ordered hI).imp
    fun _ => And.left).of_total

theorem wideningThresholds_keeps (ha : a.WellFormed) (hb : b.WellFormed) (thresholds : List Datum) :
    Op.Keeps True True (a.wideningThresholds cfg b thresholds) (·.WellFormed) := by
  refine (Op.meets_lift (fun _ checked => checkSpace_eq_ok checked) fun _ _ => trivial).bind
    fun _ space => ?_
  refine (Op.meets_mapM (R := fun _ _ => True) fun _ _ =>
    Op.lift_meets _).bind fun ts _ => ?_
  exact ((combine_meets ha hb space fun _ _ _ hI _ => widenTo_ordered _ hI).imp
    fun _ => And.left).of_total

theorem narrowing_keeps (ha : a.WellFormed) (hb : b.WellFormed) :
    Op.Keeps True True (a.narrowing cfg b) (·.WellFormed) := by
  refine (Op.meets_lift (fun _ checked => checkSpace_eq_ok checked) fun _ _ => trivial).bind
    fun _ space => ?_
  split
  · exact Op.meets_pure ha
  · exact Op.move_meets (shaped_bottom _) (shaped_bottom _)
  · rename_i f g hf hg
    -- The refined ranges may be out of order until they are normalised.
    have refined : Op.Meets (·.WellFormed) (·.Shaped False) False (combine cfg a b narrowRange) fun c =>
        c.Shaped False ∧ (a.frame?.isSome → c.frame?.isSome) := combine_meets ha hb space False.elim
    refine refined.bind_total ?_
    rintro c ⟨shaped, nonempty⟩
    refine (tidy_meets (K := ℚ) shaped (fun empty => ?_) fun _ => id).imp fun d tidied => tidied.1.shaped
    simp [hf, empty] at nonempty

/-! ## Enlargement -/

theorem epsilonOf_nonneg {eps : Datum} {q : ℚ} (h : epsilonOf eps = .ok q) : 0 ≤ q := by
  obtain ⟨b, -, rest⟩ := bind_eq_ok.mp h
  cases b with
  | fin r =>
    dsimp only at rest
    split at rest
    · contradiction
    · rename_i nonneg
      exact Except.ok.inj rest ▸ not_lt.mp nonneg
  | negInf => contradiction
  | posInf => contradiction

theorem magnitude?_nonneg {q : ℚ} (h : a.magnitude? = some q) : 0 ≤ q := by
  unfold magnitude? at h
  split at h
  · contradiction
  · rename_i f hf
    dsimp only at h
    split at h
    · contradiction
    · rename_i r rs sizes
      obtain rfl := Option.some.inj h
      have chosen : rs.foldl (fun best q => if best < q then q else best) r ∈ r :: rs :=
        foldl_choose_mem (fun best next => by split <;> simp) rs r
      rw [← sizes] at chosen
      obtain ⟨b, -, size⟩ := List.mem_filterMap.mp chosen
      obtain ⟨s, -, abs⟩ := Option.map_eq_some_iff.mp size
      rw [← abs]
      exact Rat.abs_nonneg

theorem delta_nonneg (p : Precision) {e m : ℚ} (he : 0 ≤ e) (hm : 0 ≤ m) :
    .fin 0 ≤ p.mul .up (.fin e) (.fin m) :=
  le_trans (Bound.fin_le_fin.mpr (mul_nonneg he hm)) (p.le_roundRat_up _)

theorem addEpsilon_keeps (ha : a.WellFormed) (eps : Datum) :
    Op.Keeps True True (a.addEpsilon cfg eps) (·.WellFormed) := by
  refine (Op.meets_lift (fun _ run => epsilonOf_nonneg run) fun _ _ => trivial).bind fun e he => ?_
  split
  · rename_i f m hf hm
    obtain ⟨regular, ordered⟩ := ha f hf
    have nonneg := delta_nonneg cfg.precision he (magnitude?_nonneg hm)
    have shaped : WellFormed ⟨a.space, some { f with ranges := f.ranges.map (enlarge cfg.precision
        (cfg.precision.mul .up (.fin e) (.fin m)) true true) }⟩ := by
      refine ha.weaken.setRanges hf (by simp [regular.ranges]) fun _ I hI => ?_
      obtain ⟨J, hJ, rfl⟩ := List.mem_map.mp hI
      exact enlarge_ordered nonneg true true (ordered trivial J hJ)
    exact Op.refit_meets shaped shaped
  · exact Op.meets_pure ha

theorem addEpsilonBin_keeps (ha : a.WellFormed) (hb : b.WellFormed) (eps : Datum) :
    Op.Keeps True True (a.addEpsilonBin cfg b eps) (·.WellFormed) := by
  refine (Op.meets_lift (fun _ checked => checkSpace_eq_ok checked) fun _ _ => trivial).bind
    fun _ space => ?_
  refine (Op.meets_lift (fun _ run => epsilonOf_nonneg run) fun _ _ => trivial).bind fun e he => ?_
  have size : 0 ≤ b.magnitude?.getD 0 := by
    cases found : b.magnitude? with
    | none => exact le_rfl
    | some m => exact magnitude?_nonneg found
  split
  · exact Op.meets_pure ha
  · refine ((combine_meets ha hb space fun _ I J hI _ => ?_).imp fun _ => And.left).of_total
    exact enlarge_ordered (delta_nonneg cfg.precision he size) (J.lo < I.lo) (I.hi < J.hi) hI

end Parallelotope

end SkewBox
