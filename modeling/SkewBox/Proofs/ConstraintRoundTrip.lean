import SkewBox.Convert
import SkewBox.Proofs.ExactResults
import SkewBox.Proofs.IndependentConstraints
import SkewBox.Proofs.InvertibleTransfers
import SkewBox.Proofs.TermRoundTrip

/-!
# Values rebuilt from their constraints

The rows of a value become equations and inequalities.  Read back, they are scaled and merged into as many
independent directions as there are restricted rows, so that nothing is lost.  As terms they are sums of
products, which are read back as the affine expressions that they were made from.

* `Affine.Tidy`, `Term.linearize_ofAffine`: expressions that are read back from their terms.
* `Parallelotope.constraints_rebuild`: the constraints of a value give its points back, without loss.
-/

namespace SkewBox

variable {K : Type*} [Field K] [LinearOrder K]

theorem Interval.point_add_point (p q : ℚ) : (point p).add .exact (point q) = point (p + q) :=
  add_point le_rfl q

theorem Interval.point_mul_point (p q : ℚ) : (point p).mul .exact (point q) = point (p * q) := by
  unfold mul
  rw [isBottom_point, isBottom_point]
  by_cases zero : p = 0 ∨ q = 0
  · rcases zero with rfl | rfl <;> simp [isZero, point, Interval.zero]
  · obtain ⟨hp, hq⟩ := not_or.mp zero
    simp only [Bool.or_self, Bool.false_eq_true, if_false]
    rw [if_neg (by simp [isZero, point, hp, hq])]
    rcases lt_or_gt_of_ne hp with hp | hp <;> rcases lt_or_gt_of_ne hq with hq | hq <;>
      simp [point, Precision.mul, Precision.roundRat, hp.le, hq.le, not_le.mpr hp, not_le.mpr hq]

/-! ## Expressions made from rows -/

theorem termsTake_mapIdx (v : Vec) (x : ℕ → K) :
    TermsTake (v.mapIdx fun i c => (i, Interval.point c)) x (v.eval x) := by
  -- The induction shifts the places of the entries.
  suffices general : ∀ (v : Vec) (k : ℕ), TermsTake (v.mapIdx fun i c => (i + k, Interval.point c)) x
      (v.eval fun i => x (i + k)) from general v 0
  intro v
  induction v with
  | nil => exact fun _ => rfl
  | cons c v ih =>
    intro k
    have rest := ih (k + 1)
    rw [List.mapIdx_cons, Vec.eval_cons]
    simp only [Nat.zero_add, Nat.add_assoc, Nat.add_comm 1] at rest ⊢
    exact ⟨c, _, by simp, rest, rfl⟩

theorem keys_mapIdx (v : Vec) :
    (v.mapIdx fun i c => (i, Interval.point c)).map (·.1) = List.range v.length := by
  apply List.ext_getElem
  · simp
  · simp

theorem nodup_mapIdx (v : Vec) : ((v.mapIdx fun i c => (i, Interval.point c)).map (·.1)).Nodup := by
  rw [keys_mapIdx]
  exact List.nodup_range

namespace Affine

theorem terms_ofDense (v : Vec) (I : Interval) :
    (ofDense v I).terms = (v.mapIdx fun i c => (i, Interval.point c)).filter fun (_, c) => !c.isZero := by
  simp only [ofDense, make, Entries.collect_eq (nodup_mapIdx v)]

theorem mem_ofDense {v : Vec} {I : Interval} {t : ℕ × Interval} (ht : t ∈ (ofDense v I).terms) :
    t.1 < v.length ∧ t.2.isPoint ∧ t.2.isZero = false := by
  rw [terms_ofDense, List.mem_filter] at ht
  obtain ⟨mem, nonzero⟩ := ht
  obtain ⟨i, hi, rfl⟩ := List.mem_mapIdx.mp mem
  exact ⟨hi, by simp [Interval.point, Interval.isPoint, Bound.isFinite], by simpa using nonzero⟩

theorem isScalar_ofDense (v : Vec) (I : Interval) : (ofDense v I).isScalar :=
  List.all_eq_true.mpr fun _ ht => (mem_ofDense ht).2.1

theorem dense_ofDense (v : Vec) (I : Interval) : (ofDense v I).dense v.length = .ok v := by
  have found := dense_eq_row (fun t ht => (mem_ofDense (I := I) ht).1) (isScalar_ofDense v I)
  rw [found]
  apply congrArg
  apply List.ext_getElem (by simp)
  intro j hj hj'
  have terms : TermsTake (ofDense v I).terms (fun i => if i = j then (1 : ℚ) else 0) _ :=
    make_termsTake (nodup_mapIdx v) (termsTake_mapIdx v _)
  rw [← List.getD_eq_getElem _ 0 hj, ← List.getD_eq_getElem _ 0 hj', Vec.getD_eq_eval hj,
    Vec.getD_eq_eval hj']
  exact eval_of_dense found terms

/-! ## Expressions and their terms -/

/-- Different rational coefficients in the order of their variables, none of them zero, and a rational
constant. -/
structure Tidy (e : Affine) : Prop where
  ascending : (e.terms.map (·.1)).Pairwise (· < ·)
  point : ∀ t ∈ e.terms, t.2.isPoint
  nonzero : ∀ t ∈ e.terms, t.2.isZero = false
  const : e.const.isPoint

theorem ofDense_tidy (v : Vec) (q : ℚ) : (ofDense v (.point q)).Tidy where
  ascending := by
    rw [terms_ofDense]
    apply List.Pairwise.sublist (List.filter_sublist.map _)
    rw [keys_mapIdx]
    exact List.pairwise_lt_range
  point t ht := (mem_ofDense ht).2.1
  nonzero t ht := (mem_ofDense ht).2.2
  const := by simp [ofDense, make, Interval.point, Interval.isPoint, Bound.isFinite]

theorem Tidy.sorted_eq {e : Affine} (tidy : e.Tidy) : e.sorted = e.terms := by
  have dims : e.dims = e.terms.map (·.1) :=
    List.mergeSort_eq_self _ (tidy.ascending.imp fun less => less.le)
  rw [sorted, dims, map_coeff_keys]

end Affine

namespace Term

theorem spells_of_tidy {e : Affine} (tidy : e.Tidy) : (ofAffine e).Spells e.terms e.const := by
  have coeffs : ∀ t ∈ e.terms, t.2.isBottom = false := fun t ht =>
    (Interval.midpoint_has (K := ℚ) (tidy.point t ht)).isBottom
  have spells := ofAffine_spells coeffs (Interval.midpoint_has (K := ℚ) tidy.const).isBottom
  rwa [tidy.sorted_eq] at spells

theorem linearize_ofAffine {e : Affine} (tidy : e.Tidy) (bound : Affine → Op Interval) :
    (ofAffine e).linearize bound = pure e := by
  have same : Affine.make e.terms e.const = e :=
    Affine.eq_of_parts (Affine.terms_make e.const e.distinct tidy.nonzero) rfl
  rw [(spells_of_tidy tidy).reads, same]

end Term

namespace Parallelotope

variable {cfg : Settings} {a : Parallelotope} {f : Frame} {n : ℕ} {d : Direction} {c : Constraint Affine}

/-! ## The constraints of a row -/

theorem exists_of_mem_rowConstraints (mem : c ∈ rowConstraints d) :
    ∃ r q, (r = d.1 ∨ r = d.1.neg) ∧ c.expr = .ofDense r (.point q) ∧ (c.rel = .eq ∨ c.rel = .ge) ∧
      c.modulus = none := by
  obtain ⟨row, I⟩ := d
  simp only [rowConstraints] at mem
  -- One case for each shape of the range: a point, two ends, one end, none.
  split at mem
  · split at mem
    · obtain rfl : c = _ := by simpa using mem
      exact ⟨_, _, .inl rfl, rfl, .inl rfl, rfl⟩
    · rw [List.mem_cons, List.mem_singleton] at mem
      cases mem with
      | inl above =>
        subst above
        exact ⟨row, _, .inl rfl, rfl, .inr rfl, rfl⟩
      | inr below =>
        subst below
        exact ⟨row.neg, _, .inr rfl, rfl, .inr rfl, rfl⟩
  · obtain rfl : c = _ := by simpa using mem
    exact ⟨row, _, .inl rfl, rfl, .inr rfl, rfl⟩
  · obtain rfl : c = _ := by simpa using mem
    exact ⟨row.neg, _, .inr rfl, rfl, .inr rfl, rfl⟩
  · simp at mem

variable [IsStrictOrderedRing K] {x : ℕ → K}

theorem ofDense_holdsAt_iff (r : Vec) (q : ℚ) (rel : Relation) (modulus : Option ℚ) :
    Constraint.HoldsAt ⟨.ofDense r (.point q), rel, modulus⟩ x ↔ rel.HoldsOf modulus (r.eval x + q) := by
  have const : (Affine.ofDense r (.point q)).const = .point q := rfl
  simp only [Constraint.HoldsAt, Affine.takes_iff_of_dense (Affine.dense_ofDense r (.point q)), const,
    Interval.point_has, sub_eq_iff_eq_add, add_comm (q : K), exists_eq_left]

theorem rowConstraints_hold_iff (filled : d.2.Filled) :
    (∀ c ∈ rowConstraints d, c.HoldsAt x) ↔ d.2.Has (d.1.eval x) := by
  obtain ⟨row, lo, hi⟩ := d
  obtain ⟨-, low, high⟩ := Interval.filled_iff.mp filled
  -- An infinity alone is excluded; every other pair of ends gives its own constraints.
  cases lo with
  | negInf =>
    cases hi with
    | negInf => exact absurd rfl high
    | fin q => simp [rowConstraints, Bound.toRat?, ofDense_holdsAt_iff, Relation.HoldsOf, Interval.Has,
        Bound.Below, Bound.Above, Vec.eval_neg]
    | posInf => simp [rowConstraints, Bound.toRat?, Interval.Has, Bound.Below, Bound.Above]
  | fin p =>
    cases hi with
    | negInf => exact absurd rfl high
    | fin q =>
      by_cases same : p = q
      · subst same
        simpa [rowConstraints, Bound.toRat?, ofDense_holdsAt_iff, Relation.HoldsOf, Interval.Has,
          Bound.Below, Bound.Above, add_neg_eq_zero] using le_antisymm_iff.trans and_comm
      · simp [rowConstraints, Bound.toRat?, same, ofDense_holdsAt_iff, Relation.HoldsOf, Interval.Has,
          Bound.Below, Bound.Above, Vec.eval_neg]
    | posInf => simp [rowConstraints, Bound.toRat?, ofDense_holdsAt_iff, Relation.HoldsOf, Interval.Has,
        Bound.Below, Bound.Above]
  | posInf => exact absurd rfl low

/-! ## Independent rows -/

/-- Different rows that start with one are independent if each is a row of a regular frame, scaled. -/
theorem independent_of_scaled {dirs : List Direction} (regular : f.Regular n) (merged : Merged dirs)
    (scaled : ∀ d ∈ dirs, ∃ i < n, ∃ k ≠ (0 : ℚ), d.1 = (f.axes.getD i []).map (· / k)) :
    Independent n dirs := by
  choose place inside factor nonzero rows using fun i : Fin dirs.length => scaled _ (List.get_mem dirs i)
  have rows' : LinearIndependent ℚ (f.axes.toMatrix n).row :=
    Matrix.linearIndependent_rows_of_isUnit regular.axes.isUnit
  -- Both scaled rows start with one, so that they are scaled by the same number.
  have injective : Function.Injective fun i => (⟨place i, inside i⟩ : Fin n) := by
    intro i j same
    have same : place i = place j := by simpa using same
    have lead : ∀ i, Vec.leading? (f.axes.getD (place i) []) = some (factor i) := by
      intro i
      have monic := merged.monic _ (List.get_mem dirs i)
      rw [rows i, Vec.leading?_map_div _ (nonzero i)] at monic
      obtain ⟨c, lead, one⟩ := Option.map_eq_some_iff.mp monic
      rw [lead, (div_eq_one_iff_eq (nonzero i)).mp one]
    have factors : factor i = factor j := by
      have both := lead i
      rw [same, lead j] at both
      exact (Option.some.inj both).symm
    have equal : (dirs.get i).1 = (dirs.get j).1 := by rw [rows i, rows j, same, factors]
    have entries := List.inj_on_of_nodup_map merged.distinct (List.get_mem dirs i) (List.get_mem dirs j) equal
    exact (List.Nodup.of_map _ merged.distinct).injective_get entries
  have units := (rows'.comp _ injective).units_smul fun i => Units.mk0 _ (inv_ne_zero (nonzero i))
  have same : (fun i : Fin dirs.length => (dirs.get i).1.toRow n) =
      (fun i => Units.mk0 _ (inv_ne_zero (nonzero i))) •
        ((f.axes.toMatrix n).row ∘ fun i => (⟨place i, inside i⟩ : Fin n)) := by
    funext i j
    rw [rows i, Vec.toRow, Vec.getD_map_div, div_eq_inv_mul]
    rfl
  rw [independent_iff, same]
  exact units

/-! ## The constraints of a value -/

theorem toAffine_of_frame (hf : a.frame? = some f) : a.toAffine = f.rows.flatMap rowConstraints := by
  simp [toAffine, hf]

theorem toAffine_hold_iff (filled : a.Filled) : (∀ c ∈ a.toAffine, c.HoldsAt x) ↔ a.Has x := by
  cases hf : a.frame? with
  | none =>
    have constant : Constraint.HoldsAt ⟨.constant (.point (-1)), .ge, none⟩ x ↔ False := by
      have takes : ∀ v : K, (Affine.constant (.point (-1))).Takes x v ↔ v = -1 := by
        intro v
        rw [Affine.takes_iff_of_isConstant rfl]
        simp [Affine.constant]
      simp [Constraint.HoldsAt, takes, Relation.HoldsOf]
    simpa [toAffine, hf, constant] using not_has_of_none hf x
  | some f =>
    rw [toAffine_of_frame hf, has_iff_of_frame hf, Frame.Has]
    simp only [List.mem_flatMap, forall_exists_index, and_imp]
    constructor
    · intro hold d hd
      exact (rowConstraints_hold_iff (filled f hf _ (List.of_mem_zip hd).2)).mp fun c hc => hold c d hd hc
    · intro has c d hd hc
      exact (rowConstraints_hold_iff (filled f hf _ (List.of_mem_zip hd).2)).mpr (has d hd) c hc

theorem tidy_of_mem_toAffine (ha : a.Shaped False) (mem : c ∈ a.toAffine) :
    c.expr.Tidy ∧ (∀ t ∈ c.expr.terms, t.1 < a.space.size) ∧ (c.rel = .eq ∨ c.rel = .ge) ∧
      c.modulus = none := by
  cases hf : a.frame? with
  | none =>
    obtain rfl : c = ⟨.constant (.point (-1)), .ge, none⟩ := by simpa [toAffine, hf] using mem
    exact ⟨⟨.nil, by simp [Affine.constant], by simp [Affine.constant], rfl⟩, by simp [Affine.constant],
      .inr rfl, rfl⟩
  | some f =>
    rw [toAffine_of_frame hf] at mem
    obtain ⟨d, hd, hc⟩ := List.mem_flatMap.mp mem
    obtain ⟨r, q, origin, expr, rel, modulus⟩ := exists_of_mem_rowConstraints hc
    have width : d.1.length = a.space.size := (ha f hf).1.axes.shape.width _ (List.of_mem_zip hd).1
    have length : r.length = a.space.size := by
      cases origin with
      | inl same => rw [same, width]
      | inr opposite => simpa [opposite, Vec.neg] using width
    rw [expr]
    exact ⟨Affine.ofDense_tidy r q, fun t ht => length ▸ (Affine.mem_ofDense ht).1, rel, modulus⟩

theorem row_of_mem_toAffine (ha : a.Shaped False) (mem : c ∈ a.toAffine) {r : Vec} {k : ℚ}
    (dense : c.expr.dense a.space.size = .ok r) (lead : r.leading? = some k) :
    ∃ f, a.frame? = some f ∧ ∃ i < a.space.size, ∃ k' ≠ (0 : ℚ),
      r.map (· / k) = (f.axes.getD i []).map (· / k') := by
  have nonzero := Vec.leading_ne_zero lead
  cases hf : a.frame? with
  | none =>
    -- The empty set has the constraint `-1 ≥ 0`, which has no direction.
    obtain rfl : c = ⟨.constant (.point (-1)), .ge, none⟩ := by simpa [toAffine, hf] using mem
    obtain ⟨-, -, rfl⟩ := Affine.dense_spec dense
    simp [Affine.constant, Vec.leading?, Vec.zeros] at lead
  | some f =>
    rw [toAffine_of_frame hf] at mem
    obtain ⟨d, hd, hc⟩ := List.mem_flatMap.mp mem
    obtain ⟨r', q, origin, expr, -, -⟩ := exists_of_mem_rowConstraints hc
    have regular := (ha f hf).1
    have row := (List.of_mem_zip hd).1
    have width : d.1.length = a.space.size := regular.axes.shape.width _ row
    obtain ⟨i, hi, there⟩ := List.mem_iff_getElem.mp row
    refine ⟨f, rfl, i, regular.axes.shape.length ▸ hi, ?_⟩
    rw [List.getD_eq_getElem _ _ hi, there]
    cases origin with
    | inl same =>
      subst same
      rw [expr, ← width, Affine.dense_ofDense] at dense
      obtain rfl := Except.ok.inj dense
      exact ⟨k, nonzero, rfl⟩
    | inr opposite =>
      subst opposite
      -- Scaling forgets the sign.
      have width' : d.1.neg.length = a.space.size := by simpa [Vec.neg] using width
      rw [expr, ← width', Affine.dense_ofDense] at dense
      obtain rfl := Except.ok.inj dense
      exact ⟨-k, neg_ne_zero.mpr nonzero, by simp [Vec.neg, neg_div, div_neg]⟩

theorem toAffine_independent (exact : cfg.precision = .exact) (ha : a.Shaped False) {dirs : List Direction}
    {report : Report}
    (run : (constraintDirections cfg (top a.space) a.toAffine).start = (.ok (some dirs), report)) :
    Independent a.space.size dirs := by
  have tidy := fun c (hc : c ∈ a.toAffine) => tidy_of_mem_toAffine ha hc
  have silent : Op.Silent (constraintDirections cfg (top a.space) a.toAffine) _ :=
    constraintDirections_silent exact (fun c hc => (tidy c hc).2.1)
      (fun c hc => List.all_eq_true.mpr (tidy c hc).1.point) fun c hc => ⟨(tidy c hc).2.2.1,
        _, Interval.midpoint_has (tidy c hc).1.const⟩
  obtain ⟨-, found, ok, origin⟩ := silent {}
  obtain rfl : some dirs = found := Except.ok.inj ((congrArg Prod.fst run).symm.trans ok)
  obtain ⟨raw, merges, rows⟩ := origin dirs rfl
  -- Merging scales the rows of the constraints, which are rows of the frame or their opposites.
  have scaled : ∀ d ∈ dirs, ∃ f, a.frame? = some f ∧ ∃ i < a.space.size, ∃ k ≠ (0 : ℚ),
      d.1 = (f.axes.getD i []).map (· / k) := by
    intro d hd
    obtain ⟨d', hd', k, lead, same⟩ := row_of_mergeDirections merges d hd
    obtain ⟨c, hc, dense⟩ := rows d' hd'
    rw [same]
    exact row_of_mem_toAffine ha hc dense lead
  cases hf : a.frame? with
  | none =>
    have nothing : dirs = [] := List.eq_nil_iff_forall_not_mem.mpr fun d hd => by
      obtain ⟨f, some, -⟩ := scaled d hd
      simp [hf] at some
    subst nothing
    exact Mat.independent_nil _
  | some f =>
    apply independent_of_scaled (ha f hf).1 (merged_of_mergeDirections merges)
    intro d hd
    obtain ⟨g, hg, row⟩ := scaled d hd
    obtain rfl := Option.some.inj (hf.symm.trans hg)
    exact row

/-! ## Rebuilding -/

theorem mapM_map_eq_pure {α β : Type} {items : List α} {g : α → β} {step : β → Op α}
    (back : ∀ a ∈ items, step (g a) = pure a) : (items.map g).mapM step = pure items := by
  induction items with
  | nil => rfl
  | cons a items ih =>
    obtain ⟨first, rest⟩ := List.forall_mem_cons.mp back
    rw [List.map_cons, List.mapM_cons, first, ih rest]
    rfl

theorem linearizeConstraint_ofAffine (cfg : Settings) (ha : a.Shaped False) (mem : c ∈ a.toAffine) :
    linearizeConstraint cfg (top a.space) ⟨.ofAffine c.expr, c.rel, c.modulus⟩ = pure c := by
  obtain ⟨tidy, inside, rel, -⟩ := tidy_of_mem_toAffine ha mem
  have small : (Term.ofAffine c.expr).maxDim < a.space.size := by
    apply Term.maxDim_lt
    intro d hd
    obtain ⟨t, ht, rfl⟩ := List.mem_map.mp ((Term.spells_of_tidy tidy).dims d hd)
    exact inside t ht
  have made : Constraint.make c.expr c.rel c.modulus = .ok c := by
    apply if_neg
    cases rel with
    | inl eq => simp [eq]
    | inr ge => simp [ge]
  have read : linearize cfg (top a.space) (.ofAffine c.expr) = pure c.expr :=
    (if_neg (not_le.mpr small)).trans (Term.linearize_ofAffine tidy _)
  simp only [linearizeConstraint, read, pure_bind, made]
  rfl

theorem ofTerms_toTerms (cfg : Settings) (ha : a.Shaped False) :
    ofTerms cfg a.space a.toTerms = ofAffine cfg a.space a.toAffine := by
  have read : a.toTerms.mapM (linearizeConstraint cfg (top a.space)) = pure a.toAffine :=
    mapM_map_eq_pure fun c hc => linearizeConstraint_ofAffine cfg ha hc
  have proper : (top a.space).isBottom = false := rfl
  simp only [ofTerms, meetTerm, proper, Bool.false_eq_true, if_false, read, pure_bind]
  rfl

theorem ofAffine_denotes (exact : cfg.precision = .exact) (real : a.space.ints = 0) (ha : a.WellFormed)
    (filled : a.Filled) :
    ∃ b report, (ofAffine cfg a.space a.toAffine).start = (.ok b, report) ∧ report.exact = true ∧
      b.Denotes a.space fun x : ℕ → K => a.Has x := by
  have tidy := fun c (hc : c ∈ a.toAffine) => tidy_of_mem_toAffine ha.weaken hc
  have whole : (top a.space).isTop := by
    simp [isTop, top, Frame.top, Frame.isTop, Interval.isTop, Interval.top]
  obtain ⟨b, report, run, mark, denotes⟩ := meetAffine_denotes (K := K) exact (top_wellFormed a.space) real
    whole (fun c hc => (tidy c hc).2.1) (fun c hc => List.all_eq_true.mpr (tidy c hc).1.point)
    (fun c hc => ⟨(tidy c hc).2.2.1, _, Interval.midpoint_has (tidy c hc).1.const⟩)
    fun dirs report run => toAffine_independent exact ha.weaken run
  exact ⟨b, report, run, mark, denotes.congr fun x => toAffine_hold_iff filled⟩

/-- The computation loses nothing, and its result has the points of the value, as the equality test says
either way round. -/
def Rebuilds (cfg : Settings) (K : Type*) [Field K] [LinearOrder K] (a : Parallelotope)
    (x : Op Parallelotope) : Prop :=
  ∃ b report, x.start = (.ok b, report) ∧ report.exact = true ∧ b.space = a.space ∧
    (∀ x : ℕ → K, b.Has x ↔ a.Has x) ∧ (a.equal cfg b).Yields (· = true) ∧ (b.equal cfg a).Yields (· = true)

theorem equal_yields {b : Parallelotope} (exact : cfg.precision = .exact) (ha : a.WellFormed)
    (hb : b.WellFormed) (space : a.space = b.space) (filled : a.Filled) (filled' : b.Filled)
    (same : ∀ x : ℕ → ℚ, a.Has x ↔ b.Has x) : (a.equal cfg b).Yields (· = true) := by
  have total : Op.Meets (fun _ => True) (fun _ => True) False (a.equal cfg b) _ :=
    equal_total (K := ℚ) ha.weaken hb.weaken space
  exact (total.imp fun r decides => decides.2 exact filled filled' same).yields

theorem ofAffine_rebuilds (exact : cfg.precision = .exact) (real : a.space.ints = 0) (ha : a.WellFormed)
    (filled : a.Filled) : Rebuilds cfg K a (ofAffine cfg a.space a.toAffine) := by
  obtain ⟨b, report, run, mark, denotes⟩ := ofAffine_denotes (K := K) exact real ha filled
  obtain ⟨b', report', run', -, denotes'⟩ := ofAffine_denotes (K := ℚ) exact real ha filled
  obtain ⟨rfl, rfl⟩ : b = b' ∧ report = report' := by simpa using run.symm.trans run'
  have filled' : b.Filled := fun f hf => (denotes.solid f hf).filled
  refine ⟨b, report, run, mark, denotes.space, denotes.has, ?_, ?_⟩
  · exact equal_yields exact ha denotes.solid.wellFormed denotes.space.symm filled filled'
      fun x => (denotes'.has x).symm
  · exact equal_yields exact denotes.solid.wellFormed ha denotes.space filled' filled denotes'.has

/-- Without rounding and over real dimensions, a value whose ranges hold a rational each, or that is empty, is
given back by its constraints, on affine expressions as on terms. -/
theorem constraints_rebuild (exact : cfg.precision = .exact) (real : a.space.ints = 0) (ha : a.WellFormed)
    (filled : a.Filled) :
    Rebuilds cfg K a (ofAffine cfg a.space a.toAffine) ∧
      Rebuilds cfg K a (ofTerms cfg a.space a.toTerms) := by
  rw [ofTerms_toTerms cfg ha.weaken]
  exact ⟨ofAffine_rebuilds exact real ha filled, ofAffine_rebuilds exact real ha filled⟩

/-- The points with `2 x - y ≤ 3/2` and `z = 3 x + 1`. -/
def wallSample : Parallelotope :=
  ⟨⟨0, 3⟩, some ⟨[[2, -1, 0], [-3, 0, 1], [0, 1, 0]], [⟨.negInf, .fin (3 / 2)⟩, .point 1, .top], none⟩⟩

theorem wallSample_solid : wallSample.Solid := by
  apply solid_mk ⟨rfl, Frame.regular_of_invert? ⟨rfl, by decide⟩ rfl _, _⟩
  · decide +kernel
  · decide +kernel

/-- A wall in space, and the empty set. -/
theorem constraints_rebuild_sample :
    wallSample.Solid ∧ (Rebuilds {} ℚ wallSample (ofAffine {} wallSample.space wallSample.toAffine) ∧
      Rebuilds {} ℚ wallSample (ofTerms {} wallSample.space wallSample.toTerms)) ∧
    Rebuilds {} ℚ (bottom ⟨0, 2⟩) (ofAffine {} ⟨0, 2⟩ (bottom ⟨0, 2⟩).toAffine) ∧
      Rebuilds {} ℚ (bottom ⟨0, 2⟩) (ofTerms {} ⟨0, 2⟩ (bottom ⟨0, 2⟩).toTerms) :=
  ⟨wallSample_solid, constraints_rebuild rfl rfl wallSample_solid.wellFormed
    fun f hf => (wallSample_solid f hf).filled,
    constraints_rebuild rfl rfl (shaped_bottom _) fun f hf => by cases hf⟩

end Parallelotope

end SkewBox
