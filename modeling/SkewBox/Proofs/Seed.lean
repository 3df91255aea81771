import SkewBox.Constraints
import SkewBox.Proofs.Meet
import SkewBox.Proofs.Rank

/-!
# Values of directions

A list of directions with their ranges becomes a value: parallel directions are merged, a maximal
independent set of them gives the axes, and the rest is intersected with the result.

* `Parallelotope.Merges`: the cases of a merging step.
* `Parallelotope.seed_meets`: the value is well-formed and has the common points.
-/

namespace SkewBox

theorem Entries.mem_put {α β : Type} [DecidableEq α] {entries : List (α × β)} {key : α} {value : β}
    {entry : α × β} (h : entry ∈ put entries key value) : entry = (key, value) ∨ entry ∈ entries := by
  induction entries with
  | nil => exact .inl (List.mem_singleton.mp h)
  | cons first rest ih =>
    unfold put at h
    split at h
    · rcases List.mem_cons.mp h with rfl | later
      · exact .inl rfl
      · exact .inr (List.mem_cons_of_mem _ later)
    · rcases List.mem_cons.mp h with rfl | later
      · exact .inr (List.mem_cons_self ..)
      · exact (ih later).imp_right (List.mem_cons_of_mem _)

theorem Entries.lookup_eq_none_iff {α β : Type} [BEq α] [LawfulBEq α] {entries : List (α × β)} {key : α} :
    entries.lookup key = none ↔ key ∉ entries.map (·.1) := by
  simp only [List.lookup_eq_none_iff, bne_iff_ne, List.mem_map, not_exists, not_and]
  exact forall₂_congr fun entry _ => ne_comm

theorem Entries.mem_of_lookup {α β : Type} [BEq α] [LawfulBEq α] {entries : List (α × β)} {key : α}
    {value : β} (found : entries.lookup key = some value) : (key, value) ∈ entries := by
  obtain ⟨front, back, rfl, -⟩ := List.lookup_eq_some_iff.mp found
  exact List.mem_append_right _ (List.mem_cons_self ..)

theorem Entries.forall_mem_put {α β : Type} [DecidableEq α] [BEq α] [LawfulBEq α]
    {entries : List (α × β)} {key : α} {old : β} (found : entries.lookup key = some old) (new : β)
    (P : α × β → Prop) (more : P (key, new) → P (key, old)) :
    (∀ e ∈ put entries key new, P e) ↔ (∀ e ∈ entries, P e) ∧ P (key, new) := by
  induction entries with
  | nil => simp at found
  | cons entry rest ih =>
    obtain ⟨key', value⟩ := entry
    by_cases here : key' = key
    · subst here
      obtain rfl : value = old := by simpa using found
      simp only [put, if_true, List.forall_mem_cons]
      tauto
    · have later : rest.lookup key = some old := by
        rwa [List.lookup_cons, beq_false_of_ne (Ne.symm here)] at found
      simp only [put, here, if_false, List.forall_mem_cons, ih later, and_assoc]

theorem Vec.eval_of_leading?_none {K : Type*} [Field K] {r : Vec} (lead : r.leading? = none) (x : ℕ → K) :
    r.eval x = 0 :=
  eval_of_isZero (by simpa [leading?, isZero] using lead) x

theorem Vec.leading_ne_zero {r : Vec} {c : ℚ} (lead : r.leading? = some c) : c ≠ 0 := by
  simpa using List.find?_some lead

namespace Parallelotope

/-! ## Merging -/

section Merge

variable {p : Precision} {merged merged' dirs : List Direction} {d : Direction} {n : ℕ}

/-- What a step makes of the merged directions.  A zero row says nothing where its range has zero; any
other row, scaled, is a new direction or narrows the range of one. -/
inductive Merges (p : Precision) (merged : List Direction) : Direction → List Direction → Prop where
  | zero {r : Vec} {I : Interval} (nonempty : I.isBottom = false) (lead : r.leading? = none)
      (holds : I.hasZero) : Merges p merged (r, I) merged
  | fresh {r : Vec} {I : Interval} {c : ℚ} (nonempty : I.isBottom = false) (lead : r.leading? = some c)
      (missing : merged.lookup (r.map (· / c)) = none) :
      Merges p merged (r, I) (merged ++ [(r.map (· / c), I.scale p (1 / c))])
  | narrowed {r : Vec} {I J : Interval} {c : ℚ} (nonempty : I.isBottom = false)
      (lead : r.leading? = some c) (found : merged.lookup (r.map (· / c)) = some J)
      (meets : (J.meet (I.scale p (1 / c))).isBottom = false) :
      Merges p merged (r, I) (Entries.put merged (r.map (· / c)) (J.meet (I.scale p (1 / c))))

theorem mergeStep_eq_some_iff : mergeStep p merged d = some merged' ↔ Merges p merged d merged' := by
  constructor
  · intro step
    obtain ⟨r, I⟩ := d
    -- Each `split` is one test of the step, and each way through that returns is one constructor.
    simp only [mergeStep] at step
    split at step
    · contradiction
    rename_i nonempty
    rw [Bool.not_eq_true] at nonempty
    split at step
    · rename_i lead
      split at step
      · rename_i holds
        exact Option.some.inj step ▸ .zero nonempty lead holds
      · contradiction
    · rename_i c lead
      split at step
      · rename_i missing
        exact Option.some.inj step ▸ .fresh nonempty lead missing
      · rename_i J found
        split at step
        · contradiction
        · rename_i meets
          exact Option.some.inj step ▸ .narrowed nonempty lead found (Bool.eq_false_iff.mpr meets)
  · intro step
    cases step with
    | zero nonempty lead holds => simp [mergeStep, nonempty, lead, holds]
    | fresh nonempty lead missing => simp only [mergeStep, nonempty, lead, missing]; rfl
    | narrowed nonempty lead found meets => simp only [mergeStep, nonempty, lead, found, meets]; rfl

theorem Merges.row (step : Merges p merged d merged') {d' : Direction} (hd : d' ∈ merged') :
    d'.1 ∈ merged.map (·.1) ∨ ∃ c, d.1.leading? = some c ∧ d'.1 = d.1.map (· / c) := by
  cases step with
  | zero => exact .inl (List.mem_map_of_mem hd)
  | fresh _ lead =>
    rcases List.mem_append.mp hd with old | new
    · exact .inl (List.mem_map_of_mem old)
    · exact .inr ⟨_, lead, List.mem_singleton.mp new ▸ rfl⟩
  | narrowed _ lead =>
    rcases Entries.mem_put hd with rfl | old
    · exact .inr ⟨_, lead, rfl⟩
    · exact .inl (List.mem_map_of_mem old)

theorem Merges.ranges {P : Interval → Prop} (step : Merges p merged d merged')
    (scaled : d.2.isBottom = false → ∀ c, d.1.leading? = some c → P (d.2.scale p (1 / c)))
    (meets : ∀ I J, P I → P J → (I.meet J).isBottom = false → P (I.meet J))
    (h : ∀ d ∈ merged, P d.2) : ∀ d ∈ merged', P d.2 := by
  cases step with
  | zero => exact h
  | fresh nonempty lead => exact List.forall_mem_append.mpr ⟨h, by simpa using scaled nonempty _ lead⟩
  | narrowed nonempty lead found overlap =>
    intro d hd
    rcases Entries.mem_put hd with rfl | old
    · exact meets _ _ (h _ (Entries.mem_of_lookup found)) (scaled nonempty _ lead) overlap
    · exact h d old

theorem sides_le (d : Direction) : sides d ≤ 2 := by
  have lo := d.2.lo.isFinite.toNat_le
  have hi := d.2.hi.isFinite.toNat_le
  unfold sides
  omega

/-- Directions that restrict something, those with more finite ends first. -/
def grouped (dirs : List Direction) : List Direction :=
  [2, 1, 0].flatMap fun n => (dirs.filter fun d => !d.2.isTop).filter fun d => sides d = n

theorem mem_grouped {d : Direction} {dirs : List Direction} :
    d ∈ grouped dirs ↔ d ∈ dirs ∧ d.2.isTop = false := by
  have few := sides_le d
  simp only [grouped, List.mem_flatMap, List.mem_filter, decide_eq_true_eq, Bool.not_eq_true']
  constructor
  · rintro ⟨n, -, kept, -⟩
    exact kept
  · exact fun kept => ⟨sides d, by simp; omega, kept, rfl⟩

theorem mergeDirections_eq_some_iff : mergeDirections p dirs = some merged ↔
    ∃ all, dirs.foldlM (mergeStep p) [] = some all ∧ grouped all = merged :=
  Option.map_eq_some_iff

theorem mem_of_mergeDirections (h : mergeDirections p dirs = some merged) :
    ∃ all, dirs.foldlM (mergeStep p) [] = some all ∧ ∀ d ∈ merged, d ∈ all := by
  obtain ⟨all, folded, rfl⟩ := mergeDirections_eq_some_iff.mp h
  exact ⟨all, folded, fun d hd => (mem_grouped.mp hd).1⟩

theorem row_of_mergeDirections (h : mergeDirections p dirs = some merged) :
    ∀ d ∈ merged, ∃ d' ∈ dirs, ∃ c, d'.1.leading? = some c ∧ d.1 = d'.1.map (· / c) := by
  obtain ⟨all, folded, among⟩ := mem_of_mergeDirections h
  have rows : ∀ d ∈ all, ∃ d' ∈ dirs, ∃ c, d'.1.leading? = some c ∧ d.1 = d'.1.map (· / c) := by
    apply foldlM_some_induction (fun merged : List Direction => ∀ d ∈ merged, ∃ d' ∈ dirs, ∃ c,
      d'.1.leading? = some c ∧ d.1 = d'.1.map (· / c)) (by simp) _ folded
    intro given hgiven before after scaled step d hd
    rcases (mergeStep_eq_some_iff.mp step).row hd with old | new
    · obtain ⟨d', hd', same⟩ := List.mem_map.mp old
      exact same ▸ scaled d' hd'
    · exact ⟨given, hgiven, new⟩
  exact fun d hd => rows d (among d hd)

theorem length_of_mergeDirections (h : mergeDirections p dirs = some merged)
    (length : ∀ d ∈ dirs, d.1.length = n) : ∀ d ∈ merged, d.1.length = n := by
  intro d hd
  obtain ⟨d', hd', c, -, scaled⟩ := row_of_mergeDirections h d hd
  rw [scaled, List.length_map, length d' hd']

theorem ranges_of_mergeDirections {P : Interval → Prop} (h : mergeDirections p dirs = some merged)
    (scaled : ∀ d ∈ dirs, d.2.isBottom = false → ∀ c, d.1.leading? = some c → P (d.2.scale p (1 / c)))
    (meets : ∀ I J, P I → P J → (I.meet J).isBottom = false → P (I.meet J)) : ∀ d ∈ merged, P d.2 := by
  obtain ⟨all, folded, among⟩ := mem_of_mergeDirections h
  have ranges : ∀ d ∈ all, P d.2 := by
    apply foldlM_some_induction (fun merged : List Direction => ∀ d ∈ merged, P d.2) (by simp) _ folded
    intro given hgiven before after kept step
    exact (mergeStep_eq_some_iff.mp step).ranges (scaled given hgiven) meets kept
  exact fun d hd => ranges d (among d hd)

variable {K : Type*} [Field K] [LinearOrder K] [IsStrictOrderedRing K] {x : ℕ → K}

theorem scaled_has {r : Vec} {I : Interval} (has : I.Has (r.eval x)) (c : ℚ) :
    (I.scale p (1 / c)).Has (Vec.eval (r.map (· / c)) x) := by
  have scaled := Interval.scale_has (p := p) (1 / c) has
  rwa [Rat.cast_div, Rat.cast_one, one_div_mul_eq_div, ← Vec.eval_map_div] at scaled

/-- The point satisfies the direction once its row starts with one; a zero row stays as it is. -/
def HoldsScaled (p : Precision) (d : Direction) (x : ℕ → K) : Prop :=
  match d.1.leading? with
  | none => d.2.Has (d.1.eval x)
  | some c => (d.2.scale p (1 / c)).Has (Vec.eval (d.1.map (· / c)) x)

theorem holdsScaled_of_has (has : d.2.Has (d.1.eval x)) : HoldsScaled p d x := by
  unfold HoldsScaled
  split
  · exact has
  · exact scaled_has has _

theorem Merges.has_iff (step : Merges p merged d merged') :
    (∀ d ∈ merged', d.2.Has (d.1.eval x)) ↔ (∀ d ∈ merged, d.2.Has (d.1.eval x)) ∧ HoldsScaled p d x := by
  cases step with
  | zero _ lead holds =>
    simp only [HoldsScaled, lead]
    rw [Vec.eval_of_leading?_none lead, Interval.has_zero_iff]
    exact (and_iff_left holds).symm
  | fresh _ lead => simp only [HoldsScaled, lead, List.forall_mem_append, List.forall_mem_singleton]
  | @narrowed r I J c _ lead found =>
    simp only [HoldsScaled, lead]
    rw [Entries.forall_mem_put found (J.meet (I.scale p (1 / c)))
      (fun d : Direction => d.2.Has (d.1.eval x)) fun both => (Interval.has_meet.mp both).1, Interval.has_meet]
    exact and_congr_right fun all => and_iff_right (all _ (Entries.mem_of_lookup found))

theorem exists_mergeStep (has : ∀ d ∈ merged, d.2.Has (d.1.eval x)) (hd : d.2.Has (d.1.eval x)) :
    ∃ merged', Merges p merged d merged' := by
  obtain ⟨r, I⟩ := d
  have nonempty := hd.isBottom
  cases lead : r.leading? with
  | none =>
    rw [Vec.eval_of_leading?_none lead, Interval.has_zero_iff] at hd
    exact ⟨merged, .zero nonempty lead hd⟩
  | some c =>
    cases found : merged.lookup (r.map (· / c)) with
    | none => exact ⟨_, .fresh nonempty lead found⟩
    | some J =>
      have both := Interval.has_meet.mpr ⟨has _ (Entries.mem_of_lookup found), scaled_has (p := p) hd c⟩
      exact ⟨_, .narrowed nonempty lead found both.isBottom⟩

theorem has_foldlM_mergeStep_iff (run : dirs.foldlM (mergeStep p) merged = some merged') :
    (∀ d ∈ merged', d.2.Has (d.1.eval x)) ↔
      (∀ d ∈ merged, d.2.Has (d.1.eval x)) ∧ ∀ d ∈ dirs, HoldsScaled p d x := by
  induction dirs generalizing merged with
  | nil =>
    obtain rfl : merged = merged' := Option.some.inj run
    simp
  | cons d dirs ih =>
    rw [List.foldlM_cons] at run
    obtain ⟨next, step, rest⟩ := Option.bind_eq_some_iff.mp run
    rw [ih rest, (mergeStep_eq_some_iff.mp step).has_iff, List.forall_mem_cons, and_assoc]

/-- Merged directions say the same as the scaled ones: those that restrict nothing are left out, and the
others are put in order. -/
theorem has_mergeDirections_iff (h : mergeDirections p dirs = some merged) :
    (∀ d ∈ merged, d.2.Has (d.1.eval x)) ↔ ∀ d ∈ dirs, HoldsScaled p d x := by
  obtain ⟨all, folded, rfl⟩ := mergeDirections_eq_some_iff.mp h
  have kept : (∀ d ∈ grouped all, d.2.Has (d.1.eval x)) ↔ ∀ d ∈ all, d.2.Has (d.1.eval x) := by
    refine ⟨fun points d hd => ?_, fun points d hd => points d (mem_grouped.mp hd).1⟩
    cases free : d.2.isTop with
    | true => exact Interval.has_of_isTop free
    | false => exact points d (mem_grouped.mpr ⟨hd, free⟩)
  rw [kept, has_foldlM_mergeStep_iff folded]
  simp

theorem exists_mergeDirections (has : ∀ d ∈ dirs, d.2.Has (d.1.eval x)) :
    ∃ merged, mergeDirections p dirs = some merged ∧ ∀ d ∈ merged, d.2.Has (d.1.eval x) := by
  have run : ∀ merged : List Direction, (∀ d ∈ merged, d.2.Has (d.1.eval x)) →
      ∃ all, dirs.foldlM (mergeStep p) merged = some all := by
    induction dirs with
    | nil => exact fun merged _ => ⟨merged, rfl⟩
    | cons d dirs ih =>
      intro merged points
      obtain ⟨first, rest⟩ := List.forall_mem_cons.mp has
      obtain ⟨next, step⟩ := exists_mergeStep (p := p) points first
      rw [List.foldlM_cons, mergeStep_eq_some_iff.mpr step]
      exact ih rest next (step.has_iff.mpr ⟨points, holdsScaled_of_has first⟩)
  obtain ⟨all, folded⟩ := run [] (by simp)
  have merges := mergeDirections_eq_some_iff.mpr ⟨all, folded, rfl⟩
  exact ⟨_, merges, (has_mergeDirections_iff merges).mpr fun d hd => holdsScaled_of_has (has d hd)⟩

end Merge

/-! ## Independent directions -/

/-- Selection splits the directions, and the echelon form takes in all those that are selected. -/
theorem exists_selectIndependent {e : Echelon} (reduced : e.Reduced) {dirs : List Direction}
    (length : ∀ d ∈ dirs, d.1.length = e.size) :
    ∃ chosen rest e', selectIndependent e dirs = .ok (chosen, rest) ∧ (chosen ++ rest).Perm dirs ∧
      e.addAll (chosen.map (·.1)) = .ok e' ∧ e'.rows.length = e.rows.length + chosen.length := by
  induction dirs generalizing e with
  | nil => exact ⟨[], [], e, rfl, .nil, rfl, rfl⟩
  | cons d dirs ih =>
    obtain ⟨first, others⟩ := List.forall_mem_cons.mp length
    -- Once the rows are a basis every further direction is left over.
    by_cases full : e.full
    · obtain ⟨chosen, rest, e', runs, perm, collected, count⟩ := ih reduced others
      refine ⟨chosen, d :: rest, e', ?_, List.perm_middle.trans (perm.cons d), collected, count⟩
      simp [selectIndependent, full, runs, pure, Except.pure]
    · obtain ⟨independent, e₁, run, added⟩ := reduced.exists_add first
      obtain ⟨chosen, rest, e', runs, perm, collected, count⟩ := ih added.reduced (added.size ▸ others)
      cases independent with
      | false =>
        obtain rfl := added.same rfl
        refine ⟨chosen, d :: rest, e', ?_, List.perm_middle.trans (perm.cons d), collected, count⟩
        simp [selectIndependent, full, run, runs, pure, Except.pure]
      | true =>
        refine ⟨d :: chosen, rest, e', ?_, perm.cons d, ?_, ?_⟩
        · simp [selectIndependent, full, run, runs, pure, Except.pure]
        · rw [Echelon.addAll] at collected ⊢
          rw [List.map_cons, List.foldlM_cons, run]
          exact collected
        · rw [count, added.count, Bool.toNat_true, List.length_cons]
          omega

/-! ## Values -/

theorem ofParts_eq_ok {s : Space} {axes : Mat} {ranges : List Interval} {a : Parallelotope}
    (h : ofParts s (some axes) (some ranges) = .ok a) :
    a = ⟨s, some ⟨axes, ranges, none⟩⟩ ∧ axes.HasShape s.size s.size ∧ ranges.length = s.size := by
  simp only [ofParts] at h
  split at h
  · contradiction
  split at h
  · contradiction
  · rename_i lengths widths
    push Not at lengths
    refine ⟨(Except.ok.inj h).symm, ⟨lengths.1, fun row hrow => ?_⟩, lengths.2⟩
    simpa using (List.any_eq_false.mp (Bool.eq_false_iff.mpr widths)) row hrow

/-- The frame of selected directions, completed by unit vectors with free ranges. -/
def completed (n : ℕ) (chosen : List Direction) (units : List ℕ) : Frame :=
  ⟨chosen.map (·.1) ++ units.map (Vec.unit n), chosen.map (·.2) ++ units.map fun _ => .top, none⟩

theorem completed_shape {n : ℕ} {chosen : List Direction} {units : List ℕ}
    (width : ∀ d ∈ chosen, d.1.length = n) (total : chosen.length + units.length = n) :
    (completed n chosen units).axes.HasShape n n := by
  refine ⟨by simpa [completed] using total, fun row mem => ?_⟩
  rcases List.mem_append.mp mem with mem | mem
  · obtain ⟨d, hd, rfl⟩ := List.mem_map.mp mem
    exact width d hd
  · obtain ⟨i, -, rfl⟩ := List.mem_map.mp mem
    exact Vec.length_unit n i

theorem ofParts_completed {s : Space} {chosen : List Direction} {units : List ℕ}
    (shape : (completed s.size chosen units).axes.HasShape s.size s.size) :
    ofParts s (some (chosen.map (·.1) ++ units.map (Vec.unit s.size)))
      (some (chosen.map (·.2) ++ units.map fun _ => .top)) =
        .ok ⟨s, some (completed s.size chosen units)⟩ := by
  have axes : (chosen.map (·.1) ++ units.map (Vec.unit s.size)).length = s.size := shape.length
  have ranges : (chosen.map (·.2) ++ units.map fun _ => Interval.top).length = s.size := by
    simpa using axes
  have widths : ((chosen.map (·.1) ++ units.map (Vec.unit s.size)).any fun row =>
      decide (row.length ≠ s.size)) = false :=
    List.any_eq_false.mpr fun row mem => by simpa using shape.width row mem
  simp only [ofParts]
  rw [if_neg fun wrong => wrong.elim (· axes) (· ranges), widths]
  rfl

theorem completed_regular {n : ℕ} {chosen : List Direction} {units : List ℕ} {e : Echelon}
    (width : ∀ d ∈ chosen, d.1.length = n)
    (collected : (Echelon.empty n).addAll (chosen.map (·.1)) = .ok e)
    (count : e.rows.length = chosen.length)
    (completion : Mat.completion (chosen.map (·.1)) n = .ok units)
    (shape : (completed n chosen units).axes.HasShape n n) : (completed n chosen units).Regular n where
  axes := by
    refine Mat.regular_of_completion (fun v hv => ?_) collected (by simpa using count) completion ?_
    · obtain ⟨d, hd, rfl⟩ := List.mem_map.mp hv
      exact width d hd
    · simpa [completed] using shape.length
  ranges := by simpa [completed] using shape.length
  inverse := nofun

theorem completed_has_iff {K : Type*} [Field K] [LinearOrder K] {n : ℕ} {chosen : List Direction}
    {units : List ℕ} {x : ℕ → K} :
    (completed n chosen units).Has x ↔ ∀ d ∈ chosen, d.2.Has (d.1.eval x) := by
  have rows : (completed n chosen units).rows = chosen ++ units.map fun i => (Vec.unit n i, .top) := by
    rw [Frame.rows, completed, List.zip_append (by simp), List.zip_map', List.zip_map', List.map_id']
  simp only [Frame.Has, rows, List.forall_mem_append, List.forall_mem_map, Interval.top_has,
    implies_true, and_true]

/-- A value in a space, well-formed and with every admissible point of `S`. -/
structure Covers (s : Space) {K : Type*} [Field K] [LinearOrder K] (S : (ℕ → K) → Prop)
    (b : Parallelotope) : Prop where
  space : b.space = s
  wellFormed : b.WellFormed
  has : ∀ x, s.Admits x → S x → b.Has x

variable {K : Type*} [Field K] [LinearOrder K] [IsStrictOrderedRing K] {cfg : Settings} {s : Space}

theorem normalize_covers (cfg : Settings) {f : Frame} (regular : f.Regular s.size) :
    Covers s (fun x : ℕ → K => f.Has x) (normalize cfg ⟨s, some f⟩) where
  space := rfl
  wellFormed := (regular.normalize True).toParallelotope
  has _ admits has := Cut.toParallelotope_has.mpr (Frame.normalize_has admits has)

theorem seed_meets {W : Parallelotope → Prop} {mayFail : Prop} {dirs : List Direction}
    (length : ∀ d ∈ dirs, d.1.length = s.size) :
    Op.Meets W W mayFail (seed cfg s dirs)
      (Covers s fun x : ℕ → K => ∀ d ∈ dirs, d.2.Has (d.1.eval x)) := by
  refine Op.aside_meets (?_ : Op.Keeps True mayFail _ _)
  have points : ∀ x : ℕ → K, (∀ d ∈ dirs, d.2.Has (d.1.eval x)) → _ :=
    fun x => exists_mergeDirections (p := cfg.precision)
  split
  · -- Merging fails only if no point satisfies all directions.
    rename_i none
    refine Op.meets_pure ⟨rfl, shaped_bottom s, fun x _ has => ?_⟩
    obtain ⟨merged, some, -⟩ := points x has
    exact absurd (none.symm.trans some) nofun
  · rename_i merged eq
    have width := length_of_mergeDirections eq length
    have merges : ∀ x : ℕ → K, (∀ d ∈ dirs, d.2.Has (d.1.eval x)) → ∀ d ∈ merged, d.2.Has (d.1.eval x) := by
      intro x has
      obtain ⟨merged', eq', has'⟩ := points x has
      exact Option.some.inj (eq'.symm.trans eq) ▸ has'
    obtain ⟨chosen, rest, e, selected, perm, collected, count⟩ :=
      exists_selectIndependent (Echelon.reduced_empty s.size) width
    refine (Op.meets_lift_ok selected (rfl : _ = (chosen, rest))).bind ?_
    rintro ⟨chosen', rest'⟩ same
    obtain ⟨rfl, rfl⟩ := Prod.ext_iff.mp same
    have parts : ∀ d, d ∈ merged ↔ d ∈ chosen ∨ d ∈ rest := fun d => by
      rw [← perm.mem_iff, List.mem_append]
    have width' : ∀ d ∈ chosen, d.1.length = s.size := fun d hd => width d ((parts d).mpr (.inl hd))
    have count' : e.rows.length = chosen.length := by simpa [Echelon.empty] using count
    obtain ⟨units, completion, total⟩ :=
      Mat.exists_completion (by simpa using width') collected (by simpa using count')
    refine (Op.meets_lift_ok completion rfl).bind ?_
    rintro _ rfl
    have shape := completed_shape width' (by simpa using total)
    refine (Op.meets_lift_ok (ofParts_completed shape) rfl).bind ?_
    rintro _ rfl
    have regular := completed_regular width' collected count' completion shape
    have covers := normalize_covers (K := K) cfg regular
    -- The chosen directions become the frame, and the rest cuts it.
    have old : ∀ x : ℕ → K, (∀ d ∈ dirs, d.2.Has (d.1.eval x)) → (completed s.size chosen units).Has x :=
      fun x has => completed_has_iff.mpr fun d hd => merges x has d ((parts d).mpr (.inl hd))
    dsimp only
    split
    · exact Op.meets_pure ⟨rfl, covers.wellFormed, fun x admits has => covers.has x admits (old x has)⟩
    · rename_i f hf
      obtain ⟨regular, ordered⟩ := covers.wellFormed f hf
      refine ((Frame.Regular.meetAll_keeps (K := K) regular ordered fun d hd =>
        width d ((parts d).mpr (.inr hd))).of_total).bind fun c narrows => ?_
      refine Op.meets_pure ⟨rfl, narrows.shaped.toParallelotope, fun x admits has => ?_⟩
      refine Cut.toParallelotope_has.mpr (narrows.keeps x admits ?_ fun d hd =>
        merges x has d ((parts d).mpr (.inr hd)))
      exact (has_iff_of_frame hf).mp (covers.has x admits (old x has))

end Parallelotope

end SkewBox
