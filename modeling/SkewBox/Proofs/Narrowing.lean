import SkewBox.Proofs.GroundedOperations
import SkewBox.Proofs.Iteration
import SkewBox.Proofs.NormalForm

/-!
# Iteration with narrowing

Narrowing takes ends of the second value in place of infinite ones and normalises the result.  A finite
end stays finite, and from the second step on the value is in normal form, so a sequence of such steps
changes only finitely often.

* `Interval.openEnds`, `Parallelotope.narrowRange_eq_or_lt`: the ends of a range that can be refined.
* `Parallelotope.NarrowsTo`, `narrowing_narrowsTo`: what one step does.
* `Parallelotope.depth`, `NarrowsTo.descends`: how many more steps can change a value.
* `Parallelotope.narrowing_stabilizes`: a step, and the number of changes in a sequence.
-/

namespace SkewBox

/-! ## Ranges -/

namespace Interval

/-- The number of ends at infinity. -/
def openEnds (I : Interval) : ℕ :=
  (if I.lo.isFinite then 0 else 1) + if I.hi.isFinite then 0 else 1

theorem openEnds_le (I : Interval) : I.openEnds ≤ 2 := by
  unfold openEnds
  split <;> split <;> omega

theorem openEnds_tighten (I : Interval) : I.tighten.openEnds = I.openEnds := by
  obtain ⟨lo, hi⟩ := I
  cases lo <;> cases hi <;> rfl

end Interval

namespace Frame

variable {cfg : Settings} {s : Space}

theorem openEnds_tighten (row : Vec) (I : Interval) :
    (tighten cfg s row I).openEnds = I.openEnds := by
  unfold tighten
  split
  · exact I.openEnds_tighten
  · rfl

theorem map_openEnds_tighten (cfg : Settings) (s : Space) {rows : List Vec} {Is : List Interval} (same : rows.length = Is.length) :
    (List.zipWith (tighten cfg s) rows Is).map Interval.openEnds = Is.map Interval.openEnds := by
  apply List.ext_getElem
  · simp [same]
  · intro i _ _
    simp [openEnds_tighten]

theorem RangesOver.grounded {f g : Frame} {n : ℕ} {Is : List Interval}
    (ranges : RangesOver cfg n g f Is) (grounded : g.Grounded) : ∀ I ∈ Is, I.Grounded := by
  obtain ⟨w, -, each⟩ := ranges
  intro I hI
  obtain ⟨row, -, bounded⟩ := exists_of_mem_right each hI
  have grounded' : Frame.Grounded { g with inverse? := w } := grounded
  exact grounded'.boundDirection bounded

end Frame

namespace Parallelotope

variable {K : Type*} [Field K] [LinearOrder K]

section Ranges

variable {I J : Interval} {x : K}

theorem narrowRange_lo (finite : I.lo.isFinite) : (narrowRange I J).lo = I.lo := if_pos finite

theorem narrowRange_hi (finite : I.hi.isFinite) : (narrowRange I J).hi = I.hi := if_pos finite

theorem narrowRange_has (hI : I.Has x) (hJ : J.Has x) : (narrowRange I J).Has x := by
  constructor
  · simp only [narrowRange]
    split
    · exact hI.1
    · exact hJ.1
  · simp only [narrowRange]
    split
    · exact hI.2
    · exact hJ.2

/-- Nothing is taken in place of an infinite end on its own side that is not inside. -/
theorem has_of_narrowRange (grounded : I.Grounded) (h : (narrowRange I J).Has x) : I.Has x := by
  obtain ⟨lo, hi⟩ := I
  constructor
  · cases lo with
    | negInf => trivial
    | fin q => exact h.1
    | posInf => exact absurd rfl grounded.lo
  · cases hi with
    | negInf => exact absurd rfl grounded.hi
    | fin q => exact h.2
    | posInf => trivial

theorem narrowRange_eq_or_lt (hI : I.Grounded) (hJ : J.Grounded) :
    narrowRange I J = I ∨ (narrowRange I J).openEnds < I.openEnds := by
  obtain ⟨lo, hi⟩ := I
  obtain ⟨lo', hi'⟩ := J
  -- An end is kept where it is finite, and taken over from `J` where it is not.
  have lower : (narrowRange ⟨lo, hi⟩ ⟨lo', hi'⟩).lo = lo ∨
      lo.isFinite = false ∧ (narrowRange ⟨lo, hi⟩ ⟨lo', hi'⟩).lo.isFinite = true := by
    cases lo with
    | fin q => exact .inl rfl
    | posInf => exact absurd rfl hI.lo
    | negInf =>
      cases lo' with
      | negInf => exact .inl rfl
      | fin q => exact .inr ⟨rfl, rfl⟩
      | posInf => exact absurd rfl hJ.lo
  have upper : (narrowRange ⟨lo, hi⟩ ⟨lo', hi'⟩).hi = hi ∨
      hi.isFinite = false ∧ (narrowRange ⟨lo, hi⟩ ⟨lo', hi'⟩).hi.isFinite = true := by
    cases hi with
    | fin q => exact .inl rfl
    | negInf => exact absurd rfl hI.hi
    | posInf =>
      cases hi' with
      | posInf => exact .inl rfl
      | fin q => exact .inr ⟨rfl, rfl⟩
      | negInf => exact absurd rfl hJ.hi
  unfold Interval.openEnds
  rcases lower with low | ⟨low, low'⟩ <;> rcases upper with high | ⟨high, high'⟩
  · exact .inl (congrArg₂ Interval.mk low high)
  · exact .inr (by simp [low, high, high'])
  · exact .inr (by simp [low, low', high])
  · exact .inr (by simp [low, low', high, high'])

end Ranges

/-! ## One step -/

variable {a b c : Parallelotope} {cfg : Settings}

/-- What narrowing gives: nothing if one of the values is empty, and otherwise the normal form of the
first value with its ranges refined. -/
inductive NarrowsTo (cfg : Settings) (a b : Parallelotope) : Parallelotope → Prop
  | empty (hf : a.frame? = none) : NarrowsTo cfg a b a
  | apart {f : Frame} (hf : a.frame? = some f) (hg : b.frame? = none) :
      NarrowsTo cfg a b (bottom a.space)
  | both {f g : Frame} {Is : List Interval} (hf : a.frame? = some f) (hg : b.frame? = some g)
      (ranges : g.RangesOver cfg a.space.size f Is) :
      NarrowsTo cfg a b
        (normalize cfg ⟨a.space, some { f with ranges := List.zipWith narrowRange f.ranges Is }⟩)

theorem narrowing_narrowsTo (cfg : Settings) (ha : a.WellFormed) (hb : b.WellFormed)
    (space : a.space = b.space) :
    Op.Meets (·.WellFormed) (·.WellFormed) False (a.narrowing cfg b) (NarrowsTo cfg a b) := by
  unfold narrowing
  refine (Op.meets_lift_ok (P := fun _ => True) (if_pos space) trivial).bind fun _ _ => ?_
  split
  · rename_i hf
    exact Op.meets_pure (.empty hf)
  · rename_i hf hg
    exact Op.move_meets (shaped_bottom _) (.apart hf hg)
  · rename_i f g hf hg
    -- The refined value may have crossed ends; tidying turns it into the empty set then.
    have refined : Op.Meets (·.WellFormed) (·.Shaped False) False (combine cfg a b narrowRange)
        (Combines cfg narrowRange a b) :=
      combine_combines ha.weaken hb.weaken space (fun _ => Shaped.weaken) fun c combines =>
        combines.shaped ha hb False.elim
    apply refined.bind_total
    intro c combines
    have shaped : c.Shaped False := combines.shaped ha hb False.elim
    have tidied : Op.Meets (·.Shaped False) (·.WellFormed) False (c.tidy cfg) (· = c.normalize cfg) :=
      tidy_eq (fun empty => by simpa [hf, empty] using combines.isSome) (shaped.normalize cfg)
    apply tidied.imp
    rintro d rfl
    cases combines with
    | left empty => simp [hg] at empty
    | right empty _ => simp [hf] at empty
    | both hf hg ranges => exact .both hf hg ranges

namespace NarrowsTo

theorem space_eq (narrows : NarrowsTo cfg a b c) : c.space = a.space := by
  cases narrows with
  | empty _ => rfl
  | apart _ _ => rfl
  | both _ _ _ => exact space_normalize _ _

theorem wellFormed (narrows : NarrowsTo cfg a b c) (ha : a.WellFormed) : c.WellFormed := by
  cases narrows with
  | empty _ => exact ha
  | apart _ _ => exact shaped_bottom _
  | @both f _ Is hf _ ranges =>
    have refined : Shaped False ⟨a.space, some { f with ranges := List.zipWith narrowRange f.ranges Is }⟩ :=
      shaped_mk (ranges.regular_zipWith (ha f hf).1 narrowRange) False.elim
    exact refined.normalize cfg

theorem filled (narrows : NarrowsTo cfg a b c) (ha : a.WellFormed) (hfa : a.Filled) (hfb : b.Filled) :
    c.Filled := by
  cases narrows with
  | empty _ => exact hfa
  | apart _ _ =>
    intro h hh
    cases hh
  | @both f g Is hf hg ranges =>
    have other := ranges.grounded fun I hI => (hfb g hg I hI).grounded
    have refined : Frame.Grounded { f with ranges := List.zipWith narrowRange f.ranges Is } :=
      Interval.grounded_zipWith fun I hI J hJ =>
        narrowRange_grounded (hfa f hf I hI).grounded (other J hJ)
    intro h hh
    obtain ⟨nonempty, rfl⟩ := Cut.eq_of_toParallelotope hh
    obtain ⟨-, ordered⟩ := (ranges.regular_zipWith (ha f hf).1 narrowRange).normalize True nonempty
    intro I hI
    exact (refined.normalize I hI).filled (Interval.isBottom_eq_false_iff.mpr (ordered trivial I hI))

theorem keeps [IsStrictOrderedRing K] (narrows : NarrowsTo cfg a b c) (ha : a.WellFormed) {x : ℕ → K}
    (admits : a.space.Admits x) (hx : a.Has x) (hx' : b.Has x) : c.Has x := by
  cases narrows with
  | empty _ => exact hx
  | apart _ hg => exact absurd hx' (not_has_of_none hg x)
  | both hf hg ranges =>
    obtain ⟨regular, -⟩ := ha _ hf
    rw [has_iff_of_frame hf, regular.has_iff_lt] at hx
    rw [has_iff_of_frame hg] at hx'
    refine Cut.toParallelotope_has.mpr (Frame.normalize_has admits ?_)
    rw [(ranges.regular_zipWith regular narrowRange).has_iff_lt]
    intro i hi
    rw [ranges.getD_zipWith regular narrowRange hi]
    exact narrowRange_has (hx i hi) (ranges.has regular.axes.shape hx' i)

theorem within [IsStrictOrderedRing K] (narrows : NarrowsTo cfg a b c) (ha : a.WellFormed)
    (filled : a.Filled) {x : ℕ → K} (hx : c.Has x) : a.Has x := by
  cases narrows with
  | empty _ => exact hx
  | apart _ _ => exact absurd hx (not_has_of_none rfl x)
  | both hf hg ranges =>
    obtain ⟨regular, -⟩ := ha _ hf
    have refined := Frame.has_of_normalize_has (Cut.toParallelotope_has.mp hx)
    rw [(ranges.regular_zipWith regular narrowRange).has_iff_lt] at refined
    rw [has_iff_of_frame hf, regular.has_iff_lt]
    intro i hi
    have row := refined i hi
    rw [ranges.getD_zipWith regular narrowRange hi] at row
    exact has_of_narrowRange (Interval.filled_getD (filled _ hf) i).grounded row

/-- A result that is not empty has the axes of the first value, and a row that is not rounded keeps the
ends that were finite. -/
theorem rows (narrows : NarrowsTo cfg a b c) (ha : a.WellFormed) {h : Frame} (hh : c.frame? = some h) :
    ∃ f, a.frame? = some f ∧ h.axes = f.axes ∧ ∀ i < a.space.size,
      ¬ (cfg.tightenIntegers ∧ a.space.integral (f.axes.getD i [])) →
        ((f.ranges.getD i .top).lo.isFinite → (h.ranges.getD i .top).lo = (f.ranges.getD i .top).lo) ∧
        ((f.ranges.getD i .top).hi.isFinite → (h.ranges.getD i .top).hi = (f.ranges.getD i .top).hi) := by
  cases narrows with
  | empty hf => simp [hf] at hh
  | apart _ _ => cases hh
  | both hf hg ranges =>
    obtain ⟨regular, -⟩ := ha _ hf
    have regular' := ranges.regular_zipWith regular narrowRange
    obtain ⟨nonempty, rfl⟩ := Cut.eq_of_toParallelotope hh
    refine ⟨_, hf, rfl, fun i hi plain => ?_⟩
    rw [regular'.getD_normalize nonempty hi, Frame.tighten_of_not_integral plain,
      ranges.getD_zipWith regular narrowRange hi]
    exact ⟨narrowRange_lo, narrowRange_hi⟩

end NarrowsTo

/-! ## Sequences of steps -/

/-- How many steps can still refine the value: one for each infinite end, one to make it empty, and one
more if it is not in normal form. -/
def depth (cfg : Settings) (a : Parallelotope) : ℕ :=
  match a.content with
  | none => 0
  | some (_, Is) =>
    (Is.map Interval.openEnds).sum + if (a.normalize cfg).content = a.content then 1 else 2

theorem depth_le (cfg : Settings) (ha : a.WellFormed) : a.depth cfg ≤ 2 * a.space.size + 2 := by
  unfold depth
  cases hf : a.frame? with
  | none => simp [content, hf]
  | some f =>
    have sum := sum_rank_le Interval.openEnds_le (ha f hf).1
    simp only [content, hf, Option.map_some]
    split <;> omega

theorem content_normalize_congr (space : a.space = b.space) (same : a.content = b.content) :
    (a.normalize cfg).content = (b.normalize cfg).content := by
  obtain ⟨s, _ | f⟩ := a <;> obtain ⟨t, _ | g⟩ := b
  · rfl
  · simp [content] at same
  · simp [content] at same
  · obtain ⟨axes, ranges⟩ : f.axes = g.axes ∧ f.ranges = g.ranges := by simpa [content] using same
    obtain rfl : s = t := space
    unfold content normalize Cut.toParallelotope Frame.normalize
    simp only [axes, ranges]
    split <;> simp

theorem depth_congr (space : a.space = b.space) (same : a.content = b.content) :
    a.depth cfg = b.depth cfg := by
  rw [depth, depth, content_normalize_congr space same, same]

theorem depth_normalize_le (cfg : Settings) {f : Frame} (ha : a.Shaped False) (hf : a.frame? = some f) :
    (a.normalize cfg).depth cfg ≤ (f.ranges.map Interval.openEnds).sum + 1 := by
  have regular := (ha f hf).1
  have form : a.normalize cfg = (f.normalize cfg a.space).toParallelotope a.space := by
    rw [normalize, hf]
  cases emptied : (f.normalize cfg a.space).empty with
  | true => simp [depth, content, form, Cut.toParallelotope, emptied]
  | false =>
    have sums := Frame.map_openEnds_tighten cfg a.space regular.same.symm
    rw [← regular.ranges_normalize emptied] at sums
    have rows : (a.normalize cfg).content =
        some (f.axes, (f.normalize cfg a.space).frame.ranges) := by
      simp only [content, form, Cut.toParallelotope, emptied]
      rfl
    rw [depth, normalize_normalize ha, rows]
    simp [sums]

theorem NarrowsTo.descends (narrows : NarrowsTo cfg a b c) (ha : a.WellFormed) (hfa : a.Filled)
    (hfb : b.Filled) : c.content = a.content ∨ c.depth cfg < a.depth cfg := by
  cases narrows with
  | empty _ => exact .inl rfl
  | @apart f hf hg =>
    refine .inr ?_
    simp only [depth, content, bottom, hf, Option.map_none, Option.map_some]
    split <;> omega
  | @both f g Is hf hg ranges =>
    obtain ⟨regular, -⟩ := ha f hf
    have refined : Shaped False ⟨a.space, some { f with ranges := List.zipWith narrowRange f.ranges Is }⟩ :=
      shaped_mk (ranges.regular_zipWith regular narrowRange) False.elim
    have bound : depth cfg (normalize cfg ⟨a.space, some { f with ranges := _ }⟩) ≤
        ((List.zipWith narrowRange f.ranges Is).map Interval.openEnds).sum + 1 :=
      depth_normalize_le cfg refined rfl
    have ends : List.zipWith narrowRange f.ranges Is = f.ranges ∨
        ((List.zipWith narrowRange f.ranges Is).map Interval.openEnds).sum <
          (f.ranges.map Interval.openEnds).sum := by
      apply zipWith_eq_or_lt (regular.ranges.trans (ranges.length regular.axes.shape).symm)
      intro I hI J hJ
      have other := ranges.grounded (fun I hI => (hfb g hg I hI).grounded) J hJ
      exact narrowRange_eq_or_lt (hfa f hf I hI).grounded other
    have count : a.depth cfg = (f.ranges.map Interval.openEnds).sum +
        if (a.normalize cfg).content = a.content then 1 else 2 := by
      rw [depth]
      simp only [content, hf, Option.map_some]
    cases ends with
    | inr fewer =>
      refine .inr ?_
      rw [count]
      split <;> omega
    | inl kept =>
      -- No end was refined, so the result is the normal form of the value.
      have form : normalize cfg ⟨a.space, some { f with ranges := List.zipWith narrowRange f.ranges Is }⟩
          = a.normalize cfg := by
        simp only [kept, normalize, hf]
      rw [form] at bound ⊢
      rw [kept] at bound
      by_cases normal : (a.normalize cfg).content = a.content
      · exact .inl normal
      · rw [if_neg normal] at count
        exact .inr (by omega)

theorem exists_narrowings (cfg : Settings) (ha : a.WellFormed) (filled : a.Filled)
    {s : ℕ → Parallelotope} (hs : ∀ k, (s k).WellFormed ∧ (s k).Filled ∧ (s k).space = a.space) :
    ∃ y : ℕ → Parallelotope, y 0 = a ∧ ∀ k,
      (∃ report, ((y k).narrowing cfg (s k)).start = (.ok (y (k + 1)), report)) ∧
      (y (k + 1)).space = (y k).space ∧
      ((y (k + 1)).content = (y k).content ∨ (y (k + 1)).depth cfg < (y k).depth cfg) := by
  obtain ⟨y, first, runs⟩ := exists_iterates (fun y b => y.narrowing cfg b)
    (fun y => y.WellFormed ∧ y.Filled ∧ y.space = a.space)
    (fun y _ c => c.space = y.space ∧ (c.content = y.content ∨ c.depth cfg < y.depth cfg))
    (fun k _ => s k) ⟨ha, filled, rfl⟩ fun k y hy => by
      obtain ⟨hy, filled, space⟩ := hy
      obtain ⟨hb, filled', space'⟩ := hs k
      obtain ⟨c, report, run, narrows⟩ :=
        (narrowing_narrowsTo cfg hy hb (space.trans space'.symm)).yields
      refine ⟨c, report, run, ⟨narrows.wellFormed hy, narrows.filled hy filled filled', ?_⟩, ?_, ?_⟩
      · exact narrows.space_eq.trans space
      · exact narrows.space_eq
      · exact narrows.descends hy filled filled'
  exact ⟨y, first, fun k => (runs k).2⟩

/-- A well-formed value with a rational in each range can be narrowed by any other such value of its
space.  The result has the points of integers that both values have, and no point that the first does
not have.  If it is not empty, its rows are those of the first value, and the finite ends of the rows
that are not rounded are kept.  In a sequence of such steps at most `2 n + 2` change the value. -/
theorem narrowing_stabilizes [IsStrictOrderedRing K] (cfg : Settings) {a : Parallelotope}
    (ha : a.WellFormed) (filled : a.Filled) :
    (∀ b : Parallelotope, b.WellFormed → b.Filled → b.space = a.space →
      (a.narrowing cfg b).Yields fun c =>
        (∀ x : ℕ → K, a.space.Admits x → a.Has x → b.Has x → c.Has x) ∧
        (∀ x : ℕ → K, c.Has x → a.Has x) ∧
        ∀ h, c.frame? = some h → ∃ f, a.frame? = some f ∧ h.axes = f.axes ∧ ∀ i < a.space.size,
          ¬ (cfg.tightenIntegers ∧ a.space.integral (f.axes.getD i [])) →
            ((f.ranges.getD i .top).lo.isFinite →
              (h.ranges.getD i .top).lo = (f.ranges.getD i .top).lo) ∧
            ((f.ranges.getD i .top).hi.isFinite →
              (h.ranges.getD i .top).hi = (f.ranges.getD i .top).hi)) ∧
    ∀ s : ℕ → Parallelotope, (∀ k, (s k).WellFormed ∧ (s k).Filled ∧ (s k).space = a.space) →
      ∃ y : ℕ → Parallelotope, y 0 = a ∧ ∀ k,
        (∃ report, ((y k).narrowing cfg (s k)).start = (.ok (y (k + 1)), report)) ∧
        ((Finset.range k).filter fun i => (y (i + 1)).content ≠ (y i).content).card ≤
          2 * a.space.size + 2 := by
  constructor
  · intro b hb filled' space
    obtain ⟨c, report, run, narrows⟩ := (narrowing_narrowsTo cfg ha hb space.symm).yields
    refine ⟨c, report, run, fun x admits => narrows.keeps ha admits, fun x => narrows.within ha filled, ?_⟩
    exact fun h hh => narrows.rows ha hh
  · intro s hs
    obtain ⟨y, first, runs⟩ := exists_narrowings cfg ha filled hs
    refine ⟨y, first, fun k => ⟨(runs k).1, ?_⟩⟩
    -- Each change of the content uses up one of the open ends, or empties the value.
    have changes := changes_add_le (depth cfg) (fun k same => (depth_congr (runs k).2.1 same).le)
      (fun k changed => (runs k).2.2.resolve_left changed) k
    have bound := depth_le cfg ha
    rw [first] at changes
    omega

/-- Narrowing the slanted sample by the crossing one, in turn with itself. -/
theorem narrowing_stabilizes_sample :
    slantedSample.WellFormed ∧ slantedSample.Filled ∧ crossingSample.WellFormed ∧ crossingSample.Filled ∧
    (slantedSample.narrowing {} crossingSample).Yields (fun c =>
      (∀ x : ℕ → ℚ, slantedSample.space.Admits x → slantedSample.Has x → crossingSample.Has x → c.Has x) ∧
      ∀ x : ℕ → ℚ, c.Has x → slantedSample.Has x) ∧
    ∃ y : ℕ → Parallelotope, y 0 = slantedSample ∧ ∀ k,
      (∃ report, ((y k).narrowing {} (if k % 2 = 0 then crossingSample else slantedSample)).start =
        (.ok (y (k + 1)), report)) ∧
      ((Finset.range k).filter fun i => (y (i + 1)).content ≠ (y i).content).card ≤ 6 := by
  have slanted := slantedSample_wellFormed
  have crossing := crossingSample_wellFormed
  have filled : slantedSample.Filled := filled_mk (by decide +kernel)
  have filled' : crossingSample.Filled := filled_mk (by decide +kernel)
  obtain ⟨steps, sequences⟩ := narrowing_stabilizes (K := ℚ) {} slanted filled
  refine ⟨slanted, filled, crossing, filled', ?_, sequences _ fun k => ?_⟩
  · obtain ⟨c, report, run, keeps, within, -⟩ := steps crossingSample crossing filled' rfl
    exact ⟨c, report, run, keeps, within⟩
  · split
    · exact ⟨crossing, filled', rfl⟩
    · exact ⟨slanted, filled, rfl⟩

end Parallelotope

end SkewBox
