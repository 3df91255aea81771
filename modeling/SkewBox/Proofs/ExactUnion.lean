import SkewBox.Proofs.ExactReshape
import SkewBox.Proofs.Inclusion
import SkewBox.Proofs.Transfer

/-!
# Unions that lose nothing

The union of two values is one of them if the other lies inside.  A ray that moves along a single
row only opens that row's range.  Folding is a union of projections.

* `Parallelotope.extend_has_iff`, `addRays_lossless`: sums with rays and lines.
* `Parallelotope.foldPart_lossless`, `fold_lossless`: dimensions folded into one.
-/

namespace SkewBox

variable {K : Type*} [Field K] [LinearOrder K] [IsStrictOrderedRing K]

/-! ## Inclusion -/

theorem Interval.join_eq_left {I J : Interval} (filled : J.Filled) (h : J.leq I) : I.join J = I := by
  obtain ⟨lo, hi⟩ := I
  have nonempty : J.isBottom = false := isBottom_eq_false_iff.mpr filled.ordered
  simp only [leq, nonempty, Bool.false_or, Bool.and_eq_true, Bool.not_eq_true', decide_eq_true_eq] at h
  obtain ⟨⟨proper, low⟩, high⟩ := h
  simp only [join, proper, nonempty, Bool.false_eq_true, if_false]
  rw [min_eq_left low, max_eq_left high]

theorem Frame.RangesOver.leq {cfg : Settings} {s : Space} {f g : Frame} {Is : List Interval}
    (ranges : g.RangesOver cfg s.size f Is) (exact : cfg.precision = .exact) (hf : f.Solid s)
    (hg : g.Solid s) (inside : ∀ x : ℕ → ℚ, g.Has x → f.Has x) {i : ℕ} (hi : i < s.size) :
    (Is.getD i .top).Filled ∧ (Is.getD i .top).leq (f.ranges.getD i .top) := by
  have shape := hf.regular.axes.shape
  obtain ⟨x, hx⟩ := hg.regular.exists_has (K := ℚ) hg.filled
  have filled : (Is.getD i .top).Filled := ⟨_, ranges.has shape hx i⟩
  obtain ⟨w, regular, bounded⟩ := ranges.bounded shape hi
  refine ⟨filled, Interval.leq_of_has filled fun q hq => ?_⟩
  obtain ⟨y, hy, rfl⟩ := regular.exists_of_boundDirection hg.filled exact (shape.getD_length hi)
    bounded hq
  exact hf.regular.has_iff_lt.mp (inside y hy) i hi

theorem Frame.RangesOver.join_eq {cfg : Settings} {s : Space} {f g : Frame} {Is : List Interval}
    (ranges : g.RangesOver cfg s.size f Is) (exact : cfg.precision = .exact) (hf : f.Solid s)
    (hg : g.Solid s) (inside : ∀ x : ℕ → ℚ, g.Has x → f.Has x) :
    List.zipWith Interval.join f.ranges Is = f.ranges := by
  have lengths : Is.length = f.ranges.length :=
    (ranges.length hf.regular.axes.shape).trans hf.regular.ranges.symm
  apply List.ext_getElem (by simp [lengths])
  intro i hi hi'
  obtain ⟨filled, leq⟩ := ranges.leq exact hf hg inside (hf.regular.ranges ▸ hi')
  rw [List.getD_eq_getElem _ _ (lengths ▸ hi')] at filled leq
  rw [List.getD_eq_getElem _ _ hi'] at leq
  rw [List.getElem_zipWith, Interval.join_eq_left filled leq]

theorem Frame.RangesOver.join_denotes {cfg : Settings} {s : Space} {f g : Frame} {Is : List Interval}
    (ranges : g.RangesOver cfg s.size f Is) (exact : cfg.precision = .exact) (hf : f.Solid s)
    (hg : g.Solid s) (inside : ∀ x : ℕ → ℚ, g.Has x → f.Has x) {S : (ℕ → K) → Prop}
    (h : ∀ x, S x ↔ f.Has x ∨ g.Has x) :
    Parallelotope.Denotes s S ⟨s, some { f with ranges := List.zipWith Interval.join f.ranges Is }⟩ := by
  rw [ranges.join_eq exact hf hg inside]
  refine Parallelotope.denotes_mk hf fun x => ?_
  rw [h x]
  refine ⟨Or.inl, fun either => either.elim id fun hx => hf.regular.has_iff_lt.mpr fun i hi => ?_⟩
  exact Interval.leq_has (ranges.leq exact hf hg inside hi).2 (ranges.has hf.regular.axes.shape hx i)

namespace Parallelotope

variable {cfg : Settings}

theorem leq_lossless (cfg : Settings) (a b : Parallelotope) :
    Op.Lossless (a.leq cfg b) fun r => a.Shaped False ∧ b.Shaped False ∧ a.space = b.space →
      r = true → ∀ x : ℕ → ℚ, a.Has x → b.Has x := by
  refine Op.Lossless.of_meets ?_ fun given =>
    (leq_total (K := ℚ) given.1 given.2.1 given.2.2).imp fun r answer => answer.1
  unfold leq
  refine (Op.lossless_lift _).bind fun _ => ?_
  split
  · exact Op.lossless_pure fun _ => trivial
  · exact Op.lossless_pure fun _ => trivial
  · split
    · exact Op.lossless_pure fun _ => trivial
    · exact (Op.invert_lossless _).bind fun _ => (Op.lossless_lift _).imp fun _ _ _ _ => trivial

theorem rangesOver_lossless (cfg : Settings) (g f : Frame) (n : ℕ) :
    Op.Lossless (rangesOver cfg g f) fun Is => f.axes.HasShape n n ∧ g.Regular n →
      g.RangesOver cfg n f Is := by
  refine Op.Lossless.of_meets ?_ fun given => rangesOver_eq given.1 given.2
  unfold rangesOver
  split
  · exact Op.lossless_pure trivial
  · refine (Op.invert_lossless _).bind fun h => ?_
    exact (Op.lossless_mapM (R := fun _ _ => True) _ fun row =>
      (Op.lossless_lift _).imp fun _ _ => trivial).imp fun _ _ _ => trivial

/-! ## Unions -/

theorem joinAt_lossless (exact : cfg.precision = .exact) (k : ℕ) (a b : Parallelotope) :
    Op.Lossless (joinAt cfg k a b) fun c => a.Solid → b.Solid →
      c.Denotes a.space fun x : ℕ → K => a.Has x ∨ b.Has x := by
  unfold joinAt
  refine (Op.lossless_lift _).bind fun _ => ?_
  cases hg : b.frame? with
  | none =>
    have empty := fun x : ℕ → K => not_has_of_none hg x
    refine Op.lossless_pure fun _ ha _ => (denotes_self ha).congr fun x => ?_
    simp [empty x]
  | some g =>
    cases hf : a.frame? with
    | none =>
      have empty := fun x : ℕ → K => not_has_of_none hf x
      refine Op.move_lossless fun checked _ hb => ⟨(checkSpace_eq_ok checked).symm, hb, fun x => ?_⟩
      simp [empty x]
    | some f =>
      refine (Op.about_lossless (leq_lossless cfg b a)).bind fun inside => ?_
      -- Only a value that holds the other one is its union with it; any other result clears the mark.
      have enclose : Op.Lossless (do
          let other ← Op.about k (rangesOver cfg g f)
          Op.refit a.space { f with ranges := List.zipWith Interval.join f.ranges other }) fun c =>
            a.Solid → b.Solid → a.space = b.space → (∀ x : ℕ → ℚ, b.Has x → a.Has x) →
              c.Denotes a.space fun x : ℕ → K => a.Has x ∨ b.Has x := by
        refine (Op.about_lossless (rangesOver_lossless cfg g f a.space.size)).bind fun Is => ?_
        refine Op.refit_lossless fun ranges ha hb space included => ?_
        have hg' : g.Solid a.space := space ▸ hb g hg
        refine (ranges ⟨(ha f hf).regular.axes.shape, hg'.regular⟩).join_denotes exact (ha f hf) hg'
          (fun x hx => ?_) fun x => ?_
        · exact (has_iff_of_frame hf).mp (included x ((has_iff_of_frame hg).mpr hx))
        · rw [has_iff_of_frame hf, has_iff_of_frame hg]
      cases inside with
      | false => exact Op.inexact_lossless.bind fun _ => enclose.imp fun _ _ => False.elim
      | true =>
        refine enclose.imp fun c denotes included checked ha hb => ?_
        have space := checkSpace_eq_ok checked
        exact denotes ha hb space (included ⟨hb.wellFormed.weaken, ha.wellFormed.weaken, space.symm⟩ rfl)

theorem joinFrom_lossless (exact : cfg.precision = .exact) (k : ℕ) (a : Parallelotope)
    (rest : List Parallelotope) :
    Op.Lossless (joinFrom cfg k a rest) fun c => a.Solid → (∀ b ∈ rest, b.Solid) →
      c.Denotes a.space fun x : ℕ → K => ∃ b ∈ a :: rest, b.Has x := by
  induction rest generalizing a k with
  | nil =>
    refine Op.lossless_pure fun ha _ => (denotes_self ha).congr fun x => ?_
    simp
  | cons b rest ih =>
    refine (joinAt_lossless (K := K) exact k a b).bind fun c => (ih (k + 1) c).imp ?_
    intro d later denotes ha hrest
    obtain ⟨hb, hrest⟩ := List.forall_mem_cons.mp hrest
    have first := denotes ha hb
    have second := later first.solid hrest
    rw [first.space] at second
    refine second.congr fun x => ?_
    simp only [List.exists_mem_cons_iff, first.has x, or_assoc]

theorem joinArray_lossless (exact : cfg.precision = .exact) (values : List Parallelotope) :
    Op.Lossless (joinArray cfg values) fun c => (∀ a ∈ values, a.Solid) →
      c.Solid ∧ ∀ x : ℕ → K, c.Has x ↔ ∃ a ∈ values, a.Has x := by
  cases values with
  | nil => exact Op.lossless_throw _
  | cons a rest =>
    refine (joinFrom_lossless (K := K) exact 1 a rest).imp fun c denotes h => ?_
    obtain ⟨ha, hrest⟩ := List.forall_mem_cons.mp h
    exact ⟨(denotes ha hrest).solid, (denotes ha hrest).has⟩

/-! ## Rays and lines -/

/-- A range that is open towards the side to which `v` points holds what `v` leads to from its
members: forwards only for a ray, both ways for a line. -/
theorem extend_has_iff {line : Bool} {v : ℚ} {I : Interval} (filled : I.Filled) {u : K} :
    (extend line v I).Has u ↔ ∃ t : K, (line = false → 0 ≤ t) ∧ I.Has (u - v * t) := by
  by_cases still : v = 0
  · simp only [extend, still, if_true, Rat.cast_zero, zero_mul, sub_zero]
    exact ⟨fun has => ⟨0, fun _ => le_rfl, has⟩, fun ⟨_, _, has⟩ => has⟩
  have nonzero : (v : K) ≠ 0 := Rat.cast_ne_zero.mpr still
  cases line with
  | true =>
    -- Along a line a member is reached from anywhere.
    obtain ⟨m, hm⟩ := filled.exists_has (K := K)
    have reaches : I.Has (u - v * ((u - m) / v)) := by
      rwa [mul_div_cancel₀ _ nonzero, sub_sub_cancel]
    simpa [extend, still, Interval.Has] using ⟨_, reaches⟩
  | false =>
    cases lt_or_gt_of_ne still with
    | inl down =>
      have down' : (v : K) < 0 := Rat.cast_lt_zero.mpr down
      -- The end towards which the ray points is given up, and the other one stays.
      have range : (extend false v I).Has u ↔ I.hi.Above u := by
        simp [extend, still, down, not_lt.mpr down.le, Interval.Has]
      rw [range, Interval.above_iff_exists filled]
      constructor
      · rintro ⟨t, nonneg, has⟩
        refine ⟨t / -v, fun _ => div_nonneg nonneg (neg_nonneg.mpr down'.le), ?_⟩
        rwa [div_neg, mul_neg, mul_div_cancel₀ _ nonzero, sub_neg_eq_add]
      · rintro ⟨t, nonneg, has⟩
        refine ⟨-v * t, mul_nonneg (neg_nonneg.mpr down'.le) (nonneg rfl), ?_⟩
        rwa [neg_mul, ← sub_eq_add_neg]
    | inr up =>
      have up' : 0 < (v : K) := Rat.cast_pos.mpr up
      have range : (extend false v I).Has u ↔ I.lo.Below u := by
        simp [extend, still, up, not_lt.mpr up.le, Interval.Has]
      rw [range, Interval.below_iff_exists filled]
      constructor
      · rintro ⟨t, nonneg, has⟩
        exact ⟨t / v, fun _ => div_nonneg nonneg up'.le, by rwa [mul_div_cancel₀ _ nonzero]⟩
      · rintro ⟨t, nonneg, has⟩
        exact ⟨v * t, mul_nonneg up'.le (nonneg rfl), has⟩

theorem extend_filled (line : Bool) (v : ℚ) {I : Interval} (filled : I.Filled) :
    (extend line v I).Filled := by
  obtain ⟨q, hq⟩ := filled
  exact ⟨q, (extend_has_iff ⟨q, hq⟩).mpr ⟨0, fun _ => le_rfl, by simpa using hq⟩⟩

theorem image_back {f : Frame} {n i : ℕ} (regular : f.Regular n) (hi : i < n) {g : Vec}
    (length : g.length = n) (x : ℕ → K) (t : K) :
    f.axes.image (fun j => x j - t * ((g.getD j 0 : ℚ) : K)) i =
      f.axes.image x i - ((Mat.mulVec f.axes g).getD i 0 : ℚ) * t := by
  rw [regular.axes.shape.getD_mulVec hi length]
  simp only [regular.axes.shape.image_eq_sum hi, mul_sub, Finset.sum_sub_distrib, Finset.sum_mul]
  congr 1
  exact Finset.sum_congr rfl fun j _ => by ring

/-- A ray may be followed forwards, a line both ways. -/
def Along (g : Generator) (t : K) : Prop := g.kind ≠ .line → 0 ≤ t

theorem extended_has_iff {f : Frame} {n : ℕ} (regular : f.Regular n) (filled : f.Filled) (g : Generator)
    {x : ℕ → K} :
    Frame.Has { f with ranges := (List.zipWith (extend (g.kind = .line))
      (Mat.mulVec f.axes g.coords) f.ranges) } x ↔ ∀ i < n, ∃ t, Along g t ∧
        (f.ranges.getD i .top).Has
          (f.axes.image x i - ((Mat.mulVec f.axes g.coords).getD i 0 : ℚ) * t) := by
  have regular' := regular.setRanges (List.zipWith (extend (g.kind = .line))
    (Mat.mulVec f.axes g.coords) f.ranges)
      (by simp [Mat.mulVec, regular.axes.shape.length, regular.ranges])
  rw [regular'.has_iff_lt]
  refine forall₂_congr fun i hi => ?_
  have haxes : i < f.axes.length := regular.axes.shape.length ▸ hi
  have hranges : i < f.ranges.length := regular.ranges ▸ hi
  have range : (List.zipWith (extend (g.kind = .line)) (Mat.mulVec f.axes g.coords) f.ranges).getD i
      .top = extend (g.kind = .line) ((Mat.mulVec f.axes g.coords).getD i 0) (f.ranges.getD i .top) := by
    simp [Mat.mulVec, haxes, hranges]
  rw [range, extend_has_iff (Interval.filled_getD filled i)]
  simp [Along]

theorem Vec.exists_single {v : Vec} (few : ¬ 1 < v.support.length) :
    ∃ k, ∀ i, i ≠ k → v.getD i 0 = 0 := by
  have listed : ∀ i, v.getD i 0 ≠ 0 → i ∈ v.support := by
    intro i nonzero
    refine Vec.mem_support.mpr ⟨?_, nonzero⟩
    by_contra beyond
    exact nonzero (List.getD_eq_default _ _ (not_lt.mp beyond))
  match support : v.support with
  | [] =>
    refine ⟨0, fun i _ => ?_⟩
    by_contra nonzero
    simpa [support] using listed i nonzero
  | [k] =>
    refine ⟨k, fun i other => ?_⟩
    by_contra nonzero
    exact other (by simpa [support] using listed i nonzero)
  | _ :: _ :: _ => simp [support] at few

theorem addRay_lossless (f : Frame) (g : Generator) (s : Space) :
    Op.Lossless (addRay f g) fun h => f.Solid s → g.coords.length = s.size →
      h.Solid s ∧ ∀ x : ℕ → K, h.Has x ↔
        ∃ t, Along g t ∧ f.Has fun j => x j - t * ((g.coords.getD j 0 : ℚ) : K) := by
  unfold addRay
  dsimp only
  split
  · exact Op.inexact_lossless.bind fun _ => Op.lossless_pure False.elim
  · rename_i few
    refine Op.lossless_pure fun solid length => ?_
    obtain ⟨real, regular, filled⟩ := solid
    refine ⟨⟨real, regular.setRanges _ ?_, fun I hI => ?_⟩, fun x => ?_⟩
    · simp [Mat.mulVec, regular.axes.shape.length, regular.ranges]
    · obtain ⟨i, hi, rfl⟩ := List.mem_iff_getElem.mp hI
      rw [List.getElem_zipWith]
      exact extend_filled _ _ (filled _ (List.getElem_mem _))
    rw [extended_has_iff regular filled]
    obtain ⟨k, single⟩ := Vec.exists_single few
    constructor
    · intro has
      -- How far to go back is told by the only row that moves.
      obtain ⟨t, along, row⟩ : ∃ t, Along g t ∧ (k < s.size → (f.ranges.getD k .top).Has
          (f.axes.image x k - ((Mat.mulVec f.axes g.coords).getD k 0 : ℚ) * t)) := by
        by_cases hk : k < s.size
        · obtain ⟨t, along, row⟩ := has k hk
          exact ⟨t, along, fun _ => row⟩
        · exact ⟨0, fun _ => le_rfl, fun h => absurd h hk⟩
      refine ⟨t, along, regular.has_iff_lt.mpr fun i hi => ?_⟩
      rw [image_back regular hi length]
      by_cases same : i = k
      · subst same
        exact row hi
      · obtain ⟨_, _, still⟩ := has i hi
        rw [single i same, Rat.cast_zero, zero_mul] at still ⊢
        exact still
    · rintro ⟨t, along, has⟩ i hi
      have row := regular.has_iff_lt.mp has i hi
      rw [image_back regular hi length] at row
      exact ⟨t, along, row⟩

/-- How far the generators lead together. -/
def swept (gens : List Generator) (ts : List K) (j : ℕ) : K :=
  ((gens.zip ts).map fun (g, t) => t * ((g.coords.getD j 0 : ℚ) : K)).sum

omit [LinearOrder K] [IsStrictOrderedRing K] in
theorem swept_append {gens : List Generator} {ts : List K} (same : gens.length = ts.length)
    (gens' : List Generator) (ts' : List K) (j : ℕ) :
    swept (gens ++ gens') (ts ++ ts') j = swept gens ts j + swept gens' ts' j := by
  simp [swept, List.zip_append same]

omit [LinearOrder K] [IsStrictOrderedRing K] in
theorem swept_concat {gens : List Generator} {ts : List K} (same : gens.length = ts.length)
    (g : Generator) (t : K) (j : ℕ) :
    swept (gens ++ [g]) (ts ++ [t]) j = swept gens ts j + t * ((g.coords.getD j 0 : ℚ) : K) := by
  rw [swept_append same]
  simp [swept]

/-- The frame `h` is the sum of `f` with rays and lines. -/
structure Sweeps (f : Frame) (s : Space) (K : Type*) [Field K] [LinearOrder K] (gens : List Generator)
    (h : Frame) : Prop where
  solid : h.Solid s
  has : ∀ x : ℕ → K, h.Has x ↔ ∃ ts, List.Forall₂ Along gens ts ∧ f.Has fun j => x j - swept gens ts j

omit [IsStrictOrderedRing K] in
theorem sweeps_nil {f : Frame} {s : Space} (solid : f.Solid s) : Sweeps f s K [] f := by
  refine ⟨solid, fun x => ⟨fun has => ⟨[], .nil, by simpa [swept] using has⟩, ?_⟩⟩
  rintro ⟨ts, along, has⟩
  cases along with
  | nil => simpa [swept] using has

omit [IsStrictOrderedRing K] in
theorem Sweeps.concat {f h h' : Frame} {s : Space} {gens : List Generator} {g : Generator}
    (first : Sweeps f s K gens h) (solid : h'.Solid s) (has : ∀ x : ℕ → K, h'.Has x ↔
      ∃ t, Along g t ∧ h.Has fun j => x j - t * ((g.coords.getD j 0 : ℚ) : K)) :
    Sweeps f s K (gens ++ [g]) h' := by
  refine ⟨solid, fun x => (has x).trans ?_⟩
  simp only [first.has, forall₂_concat]
  constructor
  · rintro ⟨t, along, ts, rest, hx⟩
    refine ⟨ts ++ [t], ⟨ts, t, rfl, rest, along⟩, ?_⟩
    simp only [swept_concat rest.length_eq]
    convert hx using 2 with j
    ring
  · rintro ⟨_, ⟨ts, t, rfl, rest, along⟩, hx⟩
    refine ⟨t, along, ts, rest, ?_⟩
    simp only [swept_concat rest.length_eq] at hx
    convert hx using 2 with j
    ring

theorem checkRay_eq_ok {s : Space} {g : Generator} {u : Unit} (h : checkRay s g = .ok u) :
    g.coords.length = s.size := by
  unfold checkRay at h
  split at h
  · contradiction
  split at h
  · contradiction
  split at h
  · contradiction
  · rename_i same
    exact not_not.mp same

theorem addRays_lossless (a : Parallelotope) (gens : List Generator) :
    Op.Lossless (a.addRays gens) fun b => a.Solid → b.Denotes a.space fun x : ℕ → K =>
      ∃ y ts, a.Has y ∧ List.Forall₂ Along gens ts ∧ ∀ j, x j = y j + swept gens ts j := by
  unfold addRays
  refine (Op.lossless_forM (R := fun g => g.coords.length = a.space.size) _ ?_).bind fun _ => ?_
  · exact fun g => (Op.lossless_lift _).imp fun _ => checkRay_eq_ok
  cases hf : a.frame? with
  | none =>
    refine Op.lossless_pure fun _ _ => denotes_none rfl hf ?_
    rintro x ⟨y, ts, has, -⟩
    exact not_has_of_none hf y has
  | some f =>
    -- Along the generators so far the frame has swept its points; one more sweeps these on.
    have run : Op.Lossless (gens.foldlM addRay f) _ := Op.lossless_foldlM (fun done h =>
      (∀ g ∈ done, g.coords.length = a.space.size) → Sweeps f a.space K done h) gens f fun done g h =>
        (addRay_lossless (K := K) h g a.space).imp fun h' step first checked => by
          simp only [List.forall_mem_append, List.forall_mem_singleton] at checked
          obtain ⟨solid, has⟩ := step (first checked.1).solid checked.2
          exact (first checked.1).concat solid has
    refine run.bind fun h => Op.put_lossless fun total checked ha => Cut.Denotes.toParallelotope ?_
    have sweeps := total (fun _ => sweeps_nil (ha f hf)) checked
    refine Cut.denotes_frame sweeps.solid fun x => (sweeps.has x).trans ?_
    simp only [has_iff_of_frame hf]
    constructor
    · rintro ⟨ts, along, has⟩
      exact ⟨_, ts, has, along, fun j => by ring⟩
    · rintro ⟨y, ts, has, along, sum⟩
      refine ⟨ts, along, ?_⟩
      simpa [sum] using has

/-! ## Folding -/

theorem getD_exchange {n i j t : ℕ} (hi : i < n) (hj : j < n) (ht : t < n) :
    (exchange n i j).getD t 0 = Equiv.swap i j t := by
  rw [exchange, getD_set (by simpa using hj), getD_set (by simpa using hi), Equiv.swap_apply_def]
  by_cases first : t = i <;> by_cases second : t = j <;> simp_all

theorem swap_lt {n i j t : ℕ} (hi : i < n) (hj : j < n) (ht : t < n) : Equiv.swap i j t < n := by
  rw [Equiv.swap_apply_def]
  split_ifs <;> assumption

/-- The points of `a` without the dimensions `rest`, where `e` stands in the place of `d`. -/
def Folds (a : Parallelotope) (d : ℕ) (rest : List ℕ) (e : ℕ) (y : ℕ → K) : Prop :=
  ∃ x, a.Has x ∧ ∀ i < (kept a.space.size rest).length,
    y i = x (Equiv.swap d e ((kept a.space.size rest).getD i 0))

omit [IsStrictOrderedRing K] in
/-- What stood at the target is forgotten, `e` is put there, and the rest is dropped. -/
theorem Solid.exists_exchanged_iff {a : Parallelotope} (ha : a.Solid) {d e : ℕ} {rest : List ℕ}
    (hd : d < a.space.size) (he : e < a.space.size) (mem : e ∈ rest) {y : ℕ → K} :
    (∃ z : ℕ → K, (∃ x, a.Has x ∧ ∀ j, j ∉ [d] → x j = z ((exchange a.space.size d e).getD j 0)) ∧
      ∀ i < (kept a.space.size rest).length, y i = z ((kept a.space.size rest).getD i 0)) ↔
        a.Folds d rest e y := by
  constructor
  · rintro ⟨z, ⟨x, has, same⟩, agrees⟩
    refine ⟨x, has, fun i hi => ?_⟩
    obtain ⟨small, left⟩ := mem_kept.mp (getD_mem hi)
    have elsewhere : Equiv.swap d e ((kept a.space.size rest).getD i 0) ∉ [d] := by
      rw [List.mem_singleton, Equiv.swap_apply_eq_iff, Equiv.swap_apply_left]
      exact fun same => left (same ▸ mem)
    rw [agrees i hi, same _ elsewhere, getD_exchange hd he (swap_lt hd he small), Equiv.swap_apply_self]
  · rintro ⟨x, has, agrees⟩
    refine ⟨fun j => x (Equiv.swap d e j), ?_, agrees⟩
    -- What stood at the target is forgotten, so that it may be put back.
    refine ⟨Function.update (fun j => x (Equiv.swap d e ((exchange a.space.size d e).getD j 0))) d (x d),
      ?_, fun j hj => Function.update_of_ne (by simpa using hj) _ _⟩
    refine ha.has_congr (fun j hj => ?_) has
    by_cases here : j = d
    · rw [here, Function.update_self]
    · rw [Function.update_of_ne here, getD_exchange hd he hj, Equiv.swap_apply_self]

theorem foldPart_lossless (exact : cfg.precision = .exact) (a : Parallelotope) (c : Change)
    (d e : ℕ) :
    Op.Lossless (a.foldPart cfg c d e) fun b => a.Solid → ∀ rest, d ∉ rest → e ∈ rest →
      a.space.checkDistinct (c.positions.map Datum.int) = .ok rest → d < a.space.size →
        b.Solid ∧ ∀ y : ℕ → K, b.Has y ↔ a.Folds d rest e y := by
  unfold foldPart
  refine (forget_lossless (K := K) exact a _ false).bind fun v => ?_
  cases hf : v.frame? with
  | none => exact Op.lossless_throw _
  | some f =>
    refine (Op.lossless_lift _).bind fun g => ?_
    refine (removeDimensions_lossless (K := K) exact ⟨v.space, some g⟩ c).imp ?_
    intro b restricts moved forgotten ha rest out mem checked hd
    have he : e < a.space.size := (Space.checkDistinct_eq_ok.mp checked).2.2 e mem
    obtain ⟨es, named, space, solid, forgets⟩ := forgotten ha
    obtain rfl : [d] = es := Datum.map_int_injective (Space.checkDistinct_eq_ok.mp named).1
    -- Exchanging `d` and `e` after forgetting `d` puts the coordinate of `e` in the place of `d`.
    obtain ⟨solid', exchanged⟩ := moved_has_iff (K := K) (space ▸ solid f hf) (exchange_perm hd he) moved
    obtain ⟨rest', checked', -, solid'', restricted⟩ := restricts (solid_mk (space ▸ solid'))
    simp only [space] at checked' restricted
    obtain rfl := Except.ok.inj (checked.symm.trans checked')
    refine ⟨solid'', fun y => (restricted y).trans ?_⟩
    simp only [has_mk, exchanged, ← has_iff_of_frame hf, forgets, Bool.false_eq_true, false_implies,
      true_and]
    exact ha.exists_exchanged_iff hd he mem

omit [IsStrictOrderedRing K] in
theorem folds_self {a : Parallelotope} {d : ℕ} {rest : List ℕ} {y : ℕ → K} :
    a.Folds d rest d y ↔ ∃ x, a.Has x ∧ ∀ i < (kept a.space.size rest).length,
      y i = x ((kept a.space.size rest).getD i 0) := by
  simp [Folds]

omit [IsStrictOrderedRing K] in
theorem folds_mergeSort {a : Parallelotope} {d e : ℕ} {rest : List ℕ} {y : ℕ → K} :
    a.Folds d rest.mergeSort e y ↔ a.Folds d rest e y := by
  simp only [Folds, kept_congr fun j => List.mem_mergeSort (a := j) (l := rest)]

theorem foldFirst_lossless (exact : cfg.precision = .exact) (a : Parallelotope) (d : ℕ)
    (rest : List ℕ) :
    Op.Lossless (a.removeDimensions cfg (.listing a.space rest)) fun b => a.Solid →
      a.space.checkDistinct ((Change.listing a.space rest).positions.map Datum.int) =
        .ok rest.mergeSort ∧ b.Solid ∧ ∀ y : ℕ → K, b.Has y ↔ a.Folds d rest d y := by
  refine (removeDimensions_lossless (K := K) exact a _).imp fun b restricts ha => ?_
  obtain ⟨ds, checked, -, solid, has⟩ := restricts ha
  obtain rfl := listed_of_checked checked
  refine ⟨checked, solid, fun y => ?_⟩
  rw [has, ← folds_mergeSort, folds_self]

theorem foldParts_lossless (exact : cfg.precision = .exact) (a : Parallelotope) (d : ℕ)
    (rest : List ℕ) :
    Op.Lossless (do
      let first ← a.removeDimensions cfg (.listing a.space rest)
      let others ← rest.mapM (a.foldPart cfg (.listing a.space rest) d)
      joinArray cfg (first :: others)) fun b => a.Solid → (d :: rest).Nodup →
        (∀ e ∈ d :: rest, e < a.space.size) →
          ∀ y : ℕ → K, b.Has y ↔ ∃ e ∈ d :: rest, a.Folds d rest e y := by
  refine (foldFirst_lossless (K := K) exact a d rest).bind fun b => ?_
  refine (Op.lossless_mapM _ fun e => foldPart_lossless (K := K) exact a _ d e).bind fun others => ?_
  refine (joinArray_lossless (K := K) exact _).imp fun c union parts only ha distinct inside y => ?_
  obtain ⟨checked, solid, has⟩ := only ha
  -- The change lists the dimensions in order, while the parts come as the dimensions were given.
  have each : List.Forall₂ (fun e p => e ∈ rest →
      p.Solid ∧ ∀ y : ℕ → K, p.Has y ↔ a.Folds d rest e y) rest others := by
    refine parts.imp fun e p folds mem => ?_
    obtain ⟨solid, has⟩ := folds ha rest.mergeSort (by simpa using (List.nodup_cons.mp distinct).1)
      (List.mem_mergeSort.mpr mem) checked (inside d List.mem_cons_self)
    exact ⟨solid, fun y => (has y).trans folds_mergeSort⟩
  have solids : ∀ p ∈ b :: others, p.Solid := by
    refine List.forall_mem_cons.mpr ⟨solid, fun p hp => ?_⟩
    obtain ⟨e, mem, folds⟩ := exists_of_mem_right each hp
    exact (folds mem).1
  rw [(union solids).2, List.exists_mem_cons_iff, List.exists_mem_cons_iff, has,
    exists_mem_iff_of_forall₂ each fun e mem p folds => (folds mem).2 y]

theorem fold_lossless (exact : cfg.precision = .exact) (a : Parallelotope) (data : List Datum) :
    Op.Lossless (a.fold cfg data) fun b => a.Solid → ∃ d rest,
      data = (d :: rest).map (fun d : ℕ => Datum.int d) ∧
        ∀ y : ℕ → K, b.Has y ↔ ∃ e ∈ d :: rest, a.Folds d rest e y := by
  unfold fold
  by_cases none : data.isEmpty
  · simp only [if_pos none]
    exact Op.lossless_throw_bind _
  simp only [if_neg none]
  refine (Op.lossless_lift _).bind fun dims => ?_
  by_cases mixed : (dims.any (a.space.isInt ·) && dims.any (!a.space.isInt ·)) = true
  · simp only [if_pos mixed]
    exact Op.lossless_throw_bind _
  simp only [if_neg mixed]
  match dims with
  | [] =>
    refine Op.lossless_pure fun checked => absurd ?_ none
    simp [(Space.checkDistinct_eq_ok.mp checked).1]
  | [d] =>
    refine Op.lossless_pure fun checked solid => ⟨d, [], (Space.checkDistinct_eq_ok.mp checked).1, ?_⟩
    simp only [List.mem_singleton, exists_eq_left, folds_self]
    exact fun y => solid.has_iff_exists_kept
  | d :: d' :: rest =>
    dsimp only
    split
    · rename_i bottom
      have empty : ∀ x : ℕ → K, ¬ a.Has x := not_has_of_none (by simpa [isBottom] using bottom)
      refine (foldFirst_lossless (K := K) exact a d (d' :: rest)).imp fun b only checked ha => ?_
      refine ⟨d, d' :: rest, (Space.checkDistinct_eq_ok.mp checked).1, fun y => ?_⟩
      rw [(only ha).2.2 y]
      simp [Folds, empty]
    · refine (Op.aside_lossless (foldParts_lossless (K := K) exact a d (d' :: rest))).bind fun b =>
        Op.move_lossless fun has checked ha => ?_
      obtain ⟨named, distinct, inside⟩ := Space.checkDistinct_eq_ok.mp checked
      exact ⟨d, d' :: rest, named, has ha distinct inside⟩

end Parallelotope

end SkewBox
