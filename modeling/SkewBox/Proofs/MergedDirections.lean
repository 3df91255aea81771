import SkewBox.Proofs.GroundedMeets
import SkewBox.Proofs.UnitLaws

/-!
# Merged directions

Merging scales every row so that it starts with one and keeps a single range for each row, in the order
of the number of finite ends.  The merged directions say what the scaled ones say, so that only the
rounding of ends loses anything.  Ends that have been rounded stay as they are, and so merging a second
time changes nothing.

* `Vec.Parallel`: rows that are multiples of each other.
* `Parallelotope.Merged`, `Canonical`: directions as merging leaves them.
* `Parallelotope.merging_canonical`: what merging keeps and what it arrives at.
-/

namespace SkewBox

/-! ## Rows that start with one -/

namespace Vec

variable {v w : Vec} {k : ℚ}

theorem leading?_map {f : ℚ → ℚ} (zero : ∀ q, f q = 0 ↔ q = 0) (v : Vec) :
    leading? (v.map f) = v.leading?.map f := by
  have same : ((fun q : ℚ => decide (q ≠ 0)) ∘ f) = fun q => decide (q ≠ 0) := by
    funext q
    simp [zero q]
  rw [leading?, List.find?_map, same, leading?]

theorem leading?_map_div (r : Vec) {c : ℚ} (nonzero : c ≠ 0) :
    Vec.leading? (r.map (· / c)) = r.leading?.map (· / c) :=
  leading?_map (fun q => by simp [nonzero]) r

/-- One of the vectors is a multiple of the other. -/
def Parallel (v w : Vec) : Prop := ∃ k : ℚ, w = v.scale k ∨ v = w.scale k

theorem parallel_self (v : Vec) : v.Parallel v := ⟨1, .inl (by simp [scale])⟩

theorem scale_eq_self (monic : v.leading? = some 1) (monic' : (v.scale k).leading? = some 1) :
    v.scale k = v := by
  have nonzero : k ≠ 0 := by
    rintro rfl
    simp [scale, leading?] at monic'
  have factor : (v.scale k).leading? = v.leading?.map (k * ·) :=
    leading?_map (fun q => by simp [nonzero]) v
  rw [monic', monic, Option.map_some, mul_one] at factor
  rw [← Option.some.inj factor]
  simp [scale]

theorem Parallel.eq (parallel : v.Parallel w) (hv : v.leading? = some 1) (hw : w.leading? = some 1) :
    v = w := by
  obtain ⟨k, rfl | rfl⟩ := parallel
  · exact (scale_eq_self hv hw).symm
  · exact scale_eq_self hw hv

end Vec

/-! ## Rounded ranges -/

theorem Precision.holds_mul (p : Precision) (r : Rounding) (a b : Bound) : p.Holds (p.mul r a b) := by
  have widest : p.Holds r.widest := by cases r <;> trivial
  have infinity : p.Holds (infinityOf a b) := by
    unfold infinityOf
    split <;> trivial
  unfold mul
  split
  · exact p.holds_roundRat r _
  · split
    · exact widest
    · exact infinity

namespace Interval

variable {p : Precision} {I J : Interval}

theorem held_scale (ordered : I.isBottom = false) {c : ℚ} (nonzero : c ≠ 0) : (I.scale p c).Held p := by
  unfold scale
  rw [ordered, if_neg Bool.false_ne_true, if_neg nonzero]
  split
  · exact ⟨p.holds_mul .down _ _, p.holds_mul .up _ _⟩
  · exact ⟨p.holds_mul .down _ _, p.holds_mul .up _ _⟩

theorem Held.meet (hI : I.Held p) (hJ : J.Held p) (overlap : (I.meet J).isBottom = false) :
    (I.meet J).Held p := by
  have low : p.Holds (max I.lo J.lo) := by
    rcases max_choice I.lo J.lo with same | same
    · rw [same]; exact hI.1
    · rw [same]; exact hJ.1
  have high : p.Holds (min I.hi J.hi) := by
    rcases min_choice I.hi J.hi with same | same
    · rw [same]; exact hI.2
    · rw [same]; exact hJ.2
  simp only [Interval.meet] at overlap ⊢
  split at overlap
  · exact absurd overlap (by decide)
  · rename_i nonempty
    rw [if_neg nonempty]
    exact ⟨low, high⟩

theorem Held.scale_one (held : I.Held p) : I.scale p 1 = I := by
  unfold scale
  split
  · rfl
  · simp [Precision.mul_fin_one, Precision.round_eq_self_iff.mpr held.1,
      Precision.round_eq_self_iff.mpr held.2]

end Interval

namespace Parallelotope

variable {p : Precision} {dirs merged merged' : List Direction} {d : Direction}

/-! ## Merging -/

/-- Directions of different rows whose first entry is one, none of them with an empty range. -/
structure Merged (dirs : List Direction) : Prop where
  distinct : (dirs.map (·.1)).Nodup
  monic : ∀ d ∈ dirs, d.1.leading? = some 1
  ordered : ∀ d ∈ dirs, d.2.isBottom = false

theorem Merged.step (h : Merged merged) (step : Merges p merged d merged') : Merged merged' where
  distinct := by
    cases step with
    | zero => exact h.distinct
    | fresh _ _ missing =>
      rw [List.map_append, List.map_singleton]
      exact List.concat_eq_append ▸ h.distinct.concat (Entries.lookup_eq_none_iff.mp missing)
    | narrowed => exact Entries.nodup_keys_put _ _ h.distinct
  monic d' hd' := by
    rcases step.row hd' with old | ⟨c, lead, scaled⟩
    · obtain ⟨d₀, hd₀, same⟩ := List.mem_map.mp old
      exact same ▸ h.monic d₀ hd₀
    · have nonzero := Vec.leading_ne_zero lead
      rw [scaled, Vec.leading?_map_div _ nonzero, lead, Option.map_some, div_self nonzero]
  ordered := by
    refine step.ranges (P := (·.isBottom = false)) (fun nonempty c _ => ?_) (fun _ _ _ _ overlap => overlap)
      h.ordered
    rw [Interval.isBottom_eq_false_iff] at nonempty ⊢
    exact Interval.scale_ordered _ nonempty

theorem Merged.group (h : Merged dirs) : Merged (grouped dirs) := by
  have injective := List.inj_on_of_nodup_map h.distinct
  refine ⟨List.Nodup.map_on (fun d hd d' hd' => ?_) ?_, fun d hd => ?_, fun d hd => ?_⟩
  · exact injective (mem_grouped.mp hd).1 (mem_grouped.mp hd').1
  · refine List.nodup_flatMap.mpr ⟨fun n _ => ?_, ?_⟩
    · exact ((List.Nodup.of_map _ h.distinct).filter _).filter _
    · have numbers : [2, 1, 0].Pairwise (· ≠ ·) := by decide
      refine numbers.imp fun apart d hm hn => ?_
      simp only [List.mem_filter, decide_eq_true_eq] at hm hn
      omega
  · exact h.monic d (mem_grouped.mp hd).1
  · exact h.ordered d (mem_grouped.mp hd).1

theorem merged_of_mergeDirections (h : mergeDirections p dirs = some merged) : Merged merged := by
  obtain ⟨all, folded, rfl⟩ := mergeDirections_eq_some_iff.mp h
  have start : Merged [] := ⟨by simp, by simp, by simp⟩
  refine (foldlM_some_induction Merged start (fun _ _ _ _ h step => ?_) folded).group
  exact h.step (mergeStep_eq_some_iff.mp step)

theorem held_of_mergeDirections (h : mergeDirections p dirs = some merged) :
    ∀ d ∈ merged, d.2.Held p := by
  refine ranges_of_mergeDirections h (fun d _ nonempty c lead => ?_) fun I J hI hJ => hI.meet hJ
  exact Interval.held_scale nonempty (one_div_ne_zero (Vec.leading_ne_zero lead))

/-! ### Directions that stay as they are -/

theorem mergeStep_fresh (monic : d.1.leading? = some 1) (nonempty : d.2.isBottom = false)
    (held : d.2.Held p) (fresh : d.1 ∉ merged.map (·.1)) : mergeStep p merged d = some (merged ++ [d]) := by
  obtain ⟨r, I⟩ := d
  have row : r.map (· / 1) = r := by simp
  have missing : merged.lookup (r.map (· / 1)) = none := row.symm ▸ Entries.lookup_eq_none_iff.mpr fresh
  have step := mergeStep_eq_some_iff.mpr (Merges.fresh (p := p) nonempty monic missing)
  rwa [row, one_div_one, held.scale_one] at step

theorem foldlM_mergeStep_eq (h : Merged (merged ++ dirs)) (held : ∀ d ∈ dirs, d.2.Held p) :
    dirs.foldlM (mergeStep p) merged = some (merged ++ dirs) := by
  induction dirs generalizing merged with
  | nil => simp
  | cons d dirs ih =>
    have member : d ∈ merged ++ d :: dirs := List.mem_append_right _ (List.mem_cons_self ..)
    obtain ⟨first, rest⟩ := List.forall_mem_cons.mp held
    have fresh : d.1 ∉ merged.map (·.1) := by
      have distinct := h.distinct
      rw [List.map_append, List.map_cons, List.nodup_append] at distinct
      exact fun old => distinct.2.2 _ old _ (List.mem_cons_self ..) rfl
    rw [List.foldlM_cons, mergeStep_fresh (h.monic d member) (h.ordered d member) first fresh]
    have shifted : merged ++ d :: dirs = merged ++ [d] ++ dirs := by simp
    rw [shifted] at h ⊢
    exact ih h rest

theorem grouped_sorted (dirs : List Direction) :
    (grouped dirs).Pairwise fun d d' => sides d' ≤ sides d := by
  refine List.pairwise_flatMap.mpr ⟨fun n _ => List.pairwise_of_forall_mem_list fun d hd d' hd' => ?_, ?_⟩
  · simp only [List.mem_filter, decide_eq_true_eq] at hd hd'
    omega
  · have numbers : [2, 1, 0].Pairwise (· > ·) := by decide
    refine numbers.imp fun above d hd d' hd' => ?_
    simp only [List.mem_filter, decide_eq_true_eq] at hd hd'
    omega

theorem grouped_eq_self (restrict : ∀ d ∈ dirs, d.2.isTop = false)
    (sorted : dirs.Pairwise fun d d' => sides d' ≤ sides d) : grouped dirs = dirs := by
  have all : dirs.filter (fun d => !d.2.isTop) = dirs :=
    List.filter_eq_self.mpr fun d hd => by simp [restrict d hd]
  rw [grouped, all]
  clear all restrict
  induction dirs with
  | nil => rfl
  | cons d dirs ih =>
    obtain ⟨first, rest⟩ := List.pairwise_cons.mp sorted
    have few := sides_le d
    -- The groups before that of the first direction are empty.
    have before : ∀ n, sides d < n → dirs.filter (fun d' => decide (sides d' = n)) = [] := by
      intro n more
      refine List.filter_eq_nil_iff.mpr fun d' hd' => ?_
      have fewer := first d' hd'
      simp only [decide_eq_true_eq]
      omega
    have groups := ih rest
    simp only [List.flatMap_cons, List.flatMap_nil, List.append_nil] at groups ⊢
    obtain two | one | zero : sides d = 2 ∨ sides d = 1 ∨ sides d = 0 := by omega
    · simpa [two] using groups
    · simpa [one, before 2 (by omega)] using groups
    · simpa [zero, before 2 (by omega), before 1 (by omega)] using groups

/-- Directions as merging leaves them: rows that start with one, no two of them parallel, and ranges
that are neither empty nor everything, those with more finite ends first. -/
structure Canonical (dirs : List Direction) : Prop where
  monic : ∀ d ∈ dirs, d.1.leading? = some 1
  nonempty : ∀ d ∈ dirs, d.2.isBottom = false
  restrict : ∀ d ∈ dirs, d.2.isTop = false
  apart : dirs.Pairwise fun d d' => ¬ d.1.Parallel d'.1
  sorted : dirs.Pairwise fun d d' => sides d' ≤ sides d

theorem canonical_of_mergeDirections (h : mergeDirections p dirs = some merged) : Canonical merged := by
  have tidy := merged_of_mergeDirections h
  obtain ⟨all, -, rfl⟩ := mergeDirections_eq_some_iff.mp h
  refine ⟨tidy.monic, tidy.ordered, fun d hd => (mem_grouped.mp hd).2, ?_, grouped_sorted all⟩
  refine (List.pairwise_map.mp tidy.distinct).imp_of_mem fun hd hd' different parallel => different ?_
  exact parallel.eq (tidy.monic _ hd) (tidy.monic _ hd')

theorem Canonical.toMerged (h : Canonical dirs) : Merged dirs where
  distinct := by
    refine List.pairwise_map.mpr (h.apart.imp fun {d d'} apart same => apart ?_)
    rw [same]
    exact Vec.parallel_self d'.1
  monic := h.monic
  ordered := h.nonempty

theorem mergeDirections_eq_self_iff :
    mergeDirections p dirs = some dirs ↔ Canonical dirs ∧ ∀ d ∈ dirs, d.2.Held p := by
  refine ⟨fun same => ⟨canonical_of_mergeDirections same, held_of_mergeDirections same⟩, ?_⟩
  rintro ⟨canonical, held⟩
  have kept : dirs.foldlM (mergeStep p) [] = some ([] ++ dirs) := foldlM_mergeStep_eq canonical.toMerged held
  exact mergeDirections_eq_some_iff.mpr ⟨dirs, kept, grouped_eq_self canonical.restrict canonical.sorted⟩

theorem mergeDirections_idem (h : mergeDirections p dirs = some merged) :
    mergeDirections p merged = some merged :=
  mergeDirections_eq_self_iff.mpr ⟨canonical_of_mergeDirections h, held_of_mergeDirections h⟩

/-! ## Solutions -/

variable {K : Type*} [Field K] [LinearOrder K] [IsStrictOrderedRing K]

/-- The point satisfies all the directions. -/
def Solves (x : ℕ → K) (dirs : List Direction) : Prop := ∀ d ∈ dirs, d.2.Has (d.1.eval x)

/-- Merging fails only if nothing satisfies the directions.  Otherwise it keeps what satisfies them, adds
nothing but the rounding of scaled ends, so nothing at all with exact bounds, and arrives at a canonical
form that merging leaves alone.  No merged range is empty, nor an infinity alone if no given range is one. -/
theorem merging_canonical (p : Precision) (dirs : List Direction) :
    (mergeDirections p dirs = none → ∀ x : ℕ → K, ¬ Solves x dirs) ∧
    ∀ merged, mergeDirections p dirs = some merged →
      (∀ x : ℕ → K, Solves x dirs → Solves x merged) ∧
      (∀ x : ℕ → K, Solves x merged ↔ ∀ d ∈ dirs, HoldsScaled p d x) ∧
      (p = .exact → ∀ x : ℕ → K, Solves x merged ↔ Solves x dirs) ∧
      Canonical merged ∧
      (∀ n, (∀ d ∈ dirs, d.1.length = n) → ∀ d ∈ merged, d.1.length = n) ∧
      ((∀ d ∈ dirs, d.2.Grounded) → ∀ d ∈ merged, d.2.Filled) ∧
      mergeDirections p merged = some merged := by
  constructor
  · -- A common point would keep the merging from failing.
    intro failed x solves
    obtain ⟨merged, run, -⟩ := exists_mergeDirections (p := p) solves
    exact absurd (failed.symm.trans run) (by simp)
  · intro merged run
    have canonical := canonical_of_mergeDirections run
    have scaled : ∀ x : ℕ → K, Solves x merged ↔ ∀ d ∈ dirs, HoldsScaled p d x := fun x =>
      has_mergeDirections_iff run
    refine ⟨fun x solves => ?_, scaled, fun exact x => ?_, canonical, fun n width => ?_,
      fun grounded d hd => ?_, mergeDirections_idem run⟩
    · exact (scaled x).mpr fun d hd => holdsScaled_of_has (solves d hd)
    · subst exact
      rw [scaled x]
      exact forall₂_congr fun d _ => holdsScaled_exact
    · exact length_of_mergeDirections run width
    · exact (mergeDirections_grounded grounded run d hd).filled (canonical.nonempty d hd)

/-- `y ≤ 2`, then `0 ≤ x - y` and `-3 ≤ y - x ≤ 5` with rows of opposite signs, and two directions that
restrict nothing. -/
def opposedSample : List Direction :=
  [([0, 4], ⟨.negInf, .fin 8⟩), ([2, -2], ⟨.fin 0, .posInf⟩), ([-1, 1], ⟨.fin (-3), .fin 5⟩),
    ([0, 0], ⟨.fin (-1), .fin 1⟩), ([0, -1], .top)]

theorem merging_canonical_opposed :
    ∃ merged, mergeDirections .exact opposedSample = some merged ∧
      merged = [([1, -1], ⟨.fin 0, .fin 3⟩), ([0, 1], ⟨.negInf, .fin 2⟩)] ∧ Canonical merged ∧
      (∀ x : ℕ → ℚ, Solves x merged ↔ Solves x opposedSample) ∧ (∀ d ∈ merged, d.2.Filled) ∧
      mergeDirections .exact merged = some merged ∧
      (∀ x : ℕ → ℚ, ¬ Solves x [([2], ⟨.fin 4, .posInf⟩), ([-1], ⟨.fin (-1), .posInf⟩)]) ∧
      ∃ rounded, mergeDirections .binary64 [([3], .point 1)] = some rounded ∧
        rounded ≠ [([1], .point (1 / 3))] ∧ mergeDirections .binary64 rounded = some rounded := by
  have run : mergeDirections .exact opposedSample =
      some [([1, -1], ⟨.fin 0, .fin 3⟩), ([0, 1], ⟨.negInf, .fin 2⟩)] := by decide +kernel
  have failed : mergeDirections .exact [([2], ⟨.fin 4, .posInf⟩), ([-1], ⟨.fin (-1), .posInf⟩)] = none := by
    decide +kernel
  obtain ⟨-, -, same, canonical, -, filled, again⟩ := (merging_canonical (K := ℚ) .exact opposedSample).2 _ run
  refine ⟨_, run, rfl, canonical, same rfl, filled (by decide), again,
    (merging_canonical (K := ℚ) .exact _).1 failed, ?_⟩
  -- A third is no binary64 number, so that both ends move.
  have moved : mergeDirections .binary64 [([3], .point 1)] ≠ some [([1], .point (1 / 3))] := by decide +kernel
  have merges : (mergeDirections .binary64 [([3], .point 1)]).isSome := by decide +kernel
  obtain ⟨rounded, run'⟩ := Option.isSome_iff_exists.mp merges
  obtain ⟨-, -, -, -, -, -, again'⟩ := (merging_canonical (K := ℚ) .binary64 _).2 rounded run'
  exact ⟨rounded, run', fun same => moved (run'.trans (congrArg some same)), again'⟩

end Parallelotope

end SkewBox
