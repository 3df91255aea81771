import SkewBox.Proofs.GroundedMeets
import SkewBox.Proofs.NormalForm

/-!
# Normalising a value

Normalising a value rounds the ranges of its integer rows inward, one after the other, and stops at the first
that is empty.  No point of integers is lost by that, and none is added; the value comes out empty if one of
its ranges is empty once it is rounded, wherever the walk has stopped.

* `Space.IntegerRow`: the rows that take integers at points of integers.
* `Frame.rounded`: the range of a row after rounding, on its own.
* `Parallelotope.normal_form_keeps_points`: what normalising does to a value.
-/

namespace SkewBox

/-! ## Integer rows -/

/-- The row mentions integer dimensions only, with integer coefficients. -/
def Space.IntegerRow (s : Space) (row : Vec) : Prop :=
  ∀ j, row.getD j 0 ≠ 0 → j < s.ints ∧ ∃ z : ℤ, row.getD j 0 = z

theorem Space.integral_iff_integerRow {s : Space} {row : Vec} : s.integral row ↔ s.IntegerRow row := by
  have whole : ∀ c : ℚ, c.den = 1 ↔ ∃ z : ℤ, c = z := by
    intro c
    constructor
    · intro one
      exact ⟨c.num, (Rat.coe_int_num_of_den_eq_one one).symm⟩
    · rintro ⟨z, rfl⟩
      exact Rat.den_intCast z
  simp only [integral_iff, IntegerRow, or_iff_not_imp_left, whole, ne_eq]

instance (s : Space) (row : Vec) : Decidable (s.IntegerRow row) :=
  decidable_of_iff _ Space.integral_iff_integerRow

theorem Interval.isBottom_tighten {I : Interval} (empty : I.isBottom) : I.tighten.isBottom := by
  simp only [isBottom, tighten, decide_eq_true_eq, Bound.lt_iff_not_le] at empty ⊢
  intro ordered
  exact empty (((Bound.le_ceil I.lo).trans ordered).trans (Bound.floor_le I.hi))

namespace Frame

variable {cfg : Settings} {s : Space} {f : Frame} {d : Direction}

/-- The range of a row after rounding: of an integer row inward to integers, if that is asked for. -/
def rounded (cfg : Settings) (s : Space) (row : Vec) (I : Interval) : Interval :=
  if cfg.tightenIntegers ∧ s.IntegerRow row then I.tighten else I

/-- Rounding is never skipped for want of integer dimensions, as an integer row mentions one. -/
theorem Regular.ints_pos (regular : f.Regular s.size) {row : Vec} (mem : row ∈ f.axes)
    (integer : s.IntegerRow row) : 0 < s.ints := by
  obtain ⟨i, hi, rfl⟩ := List.mem_iff_getElem.mp mem
  obtain ⟨j, -, mentioned⟩ := regular.exists_coeff_ne_zero (regular.axes.shape.length ▸ hi)
  rw [Mat.entry, List.getD_eq_getElem _ _ hi] at mentioned
  exact Nat.zero_lt_of_lt (integer j mentioned).1

theorem Regular.tighten_eq_rounded (regular : f.Regular s.size) (mem : d.1 ∈ f.axes)
    (nonempty : d.2.isBottom = false) : tighten cfg s d.1 d.2 = rounded cfg s d.1 d.2 := by
  by_cases rounds : cfg.tightenIntegers ∧ s.IntegerRow d.1
  · have integral := Space.integral_iff_integerRow.mpr rounds.2
    simp [tighten, rounded, rounds.1, rounds.2, regular.ints_pos mem rounds.2, integral, nonempty]
  · rw [rounded, if_neg rounds]
    exact tighten_of_not_integral (by rwa [Space.integral_iff_integerRow]) d.2

theorem rounded_isBottom {row : Vec} {I : Interval} (empty : I.isBottom) :
    (rounded cfg s row I).isBottom := by
  unfold rounded
  split
  · exact Interval.isBottom_tighten empty
  · exact empty

theorem rounded_grounded {row : Vec} {I : Interval} (grounded : I.Grounded) :
    (rounded cfg s row I).Grounded := by
  unfold rounded
  split
  · exact grounded.tighten
  · exact grounded

theorem Regular.tighten_isBottom_iff (regular : f.Regular s.size) (mem : d.1 ∈ f.axes) :
    (tighten cfg s d.1 d.2).isBottom ↔ (rounded cfg s d.1 d.2).isBottom := by
  cases empty : d.2.isBottom with
  | false => rw [regular.tighten_eq_rounded mem empty]
  | true =>
    have kept : tighten cfg s d.1 d.2 = d.2 := if_neg (by simp [empty])
    rw [kept]
    exact iff_of_true empty (rounded_isBottom empty)

/-! ## Frames -/

theorem Regular.normalize_empty_iff (cfg : Settings) (regular : f.Regular s.size) :
    (f.normalize cfg s).empty ↔ ∃ d ∈ f.rows, (rounded cfg s d.1 d.2).isBottom := by
  apply (tightenAll_empty f.axes f.ranges).trans
  apply exists_congr
  intro d
  apply and_congr_right
  intro hd
  exact regular.tighten_isBottom_iff (List.of_mem_zip hd).1

theorem Regular.ranges_normalize_rounded (regular : f.Regular s.size)
    (nonempty : (f.normalize cfg s).empty = false) :
    (f.normalize cfg s).frame.ranges = List.zipWith (rounded cfg s) f.axes f.ranges := by
  rw [regular.ranges_normalize nonempty]
  apply List.ext_getElem (by simp)
  intro i hi hi'
  simp only [List.length_zipWith, lt_min_iff] at hi
  have mem : (f.axes[i], f.ranges[i]) ∈ f.rows :=
    List.mem_iff_getElem.mpr ⟨i, by simpa [Frame.rows] using hi, by simp [Frame.rows]⟩
  -- Only an empty range is passed over by the rounding, and that would have emptied the frame.
  have filled : f.ranges[i].isBottom = false := by
    by_contra empty
    have emptied := (regular.normalize_empty_iff cfg).mpr ⟨_, mem, rounded_isBottom (by simpa using empty)⟩
    rw [nonempty] at emptied
    cases emptied
  rw [List.getElem_zipWith, List.getElem_zipWith]
  exact regular.tighten_eq_rounded (d := (f.axes[i], f.ranges[i])) (List.getElem_mem _) filled

theorem Regular.whole_of_normalize (regular : f.Regular s.size)
    (nonempty : (f.normalize cfg s).empty = false) (on : cfg.tightenIntegers)
    (hd : d ∈ (f.normalize cfg s).frame.rows) (integer : s.IntegerRow d.1) :
    d.2.lo.IsWhole ∧ d.2.hi.IsWhole := by
  obtain ⟨regular', ordered⟩ := regular.normalize True nonempty
  have range : d.2.isBottom = false :=
    Interval.isBottom_eq_false_iff.mpr (ordered trivial d.2 (List.of_mem_zip hd).2)
  have fixed := regular.normalize_fixed nonempty d hd
  rw [regular'.tighten_eq_rounded (List.of_mem_zip hd).1 range, rounded, if_pos ⟨on, integer⟩] at fixed
  exact Interval.tighten_eq_self_iff.mp fixed

end Frame

/-! ## Values -/

theorem Interval.Grounded.isBottom_iff {I : Interval} (grounded : I.Grounded) :
    I.isBottom ↔ ∀ q : ℚ, ¬ I.Has q := by
  constructor
  · intro empty q hq
    rw [hq.isBottom] at empty
    cases empty
  · intro none
    by_contra nonempty
    obtain ⟨q, hq⟩ := grounded.filled (by simpa using nonempty)
    exact none q hq

namespace Parallelotope

variable {K : Type*} [Field K] [LinearOrder K] [IsStrictOrderedRing K] {a : Parallelotope} {f : Frame}

theorem isBottom_normalize (cfg : Settings) (hf : a.frame? = some f) :
    (a.normalize cfg).isBottom = (f.normalize cfg a.space).empty := by
  cases emptied : (f.normalize cfg a.space).empty <;>
    simp [normalize, hf, Cut.toParallelotope, emptied, isBottom]

/-- Normalising a value of invertible axes keeps its points of integers and adds none, and a second time it
changes nothing.  If the result is not empty it has the axes it had, each range as it is after rounding, and
so integers for the finite ends of the integer rows if these are rounded.  The result is empty if and only if
the ends of some range cross once it is rounded; that is, unless an infinite end stands on the wrong side, if
and only if it then holds no rational.  Minimising, canonicalising and approximating leave this normal form. -/
theorem normal_form_keeps_points (cfg : Settings) (hf : a.frame? = some f)
    (regular : f.Regular a.space.size) :
    (∀ x : ℕ → K, a.space.Admits x → ((a.normalize cfg).Has x ↔ a.Has x)) ∧
    (a.normalize cfg).normalize cfg = a.normalize cfg ∧
    (∀ g, (a.normalize cfg).frame? = some g → g.axes = f.axes ∧
      g.ranges = List.zipWith (Frame.rounded cfg a.space) f.axes f.ranges ∧
      (cfg.tightenIntegers → ∀ d ∈ g.rows, a.space.IntegerRow d.1 → d.2.lo.IsWhole ∧ d.2.hi.IsWhole)) ∧
    ((a.normalize cfg).isBottom ↔ ∃ d ∈ f.rows,
      (Frame.rounded cfg a.space d.1 d.2).hi < (Frame.rounded cfg a.space d.1 d.2).lo) ∧
    (f.Grounded → ((a.normalize cfg).isBottom ↔ ∃ d ∈ f.rows, ∀ q : ℚ,
      ¬ (Frame.rounded cfg a.space d.1 d.2).Has q)) ∧
    ∀ t ∈ [Transform.minimize, .canonicalize, .approximate],
      (t.run cfg a).Yields (· = a.normalize cfg) := by
  have shaped : a.Shaped False := by
    intro g hg
    obtain rfl : f = g := Option.some.inj (hf.symm.trans hg)
    exact ⟨regular, False.elim⟩
  have empty := isBottom_normalize cfg hf ▸ regular.normalize_empty_iff cfg
  refine ⟨fun x admits => has_normalize_iff admits, normalize_normalize shaped, ?_, ?_, ?_, ?_⟩
  · intro g hg
    rw [normalize, hf] at hg
    obtain ⟨nonempty, rfl⟩ := Cut.eq_of_toParallelotope hg
    refine ⟨rfl, regular.ranges_normalize_rounded nonempty, ?_⟩
    intro on d hd integer
    exact regular.whole_of_normalize nonempty on hd integer
  · simpa [Interval.isBottom] using empty
  · -- With ends on their own sides, a range is empty exactly if its ends have crossed.
    intro grounded
    apply empty.trans
    apply exists_congr
    intro d
    apply and_congr_right
    intro hd
    exact (Frame.rounded_grounded (grounded.rows d hd)).isBottom_iff
  · have tidied : Op.Meets (fun _ => True) (fun _ => True) False (a.tidy cfg) (· = a.normalize cfg) :=
      tidy_eq (fun _ _ _ => trivial) trivial
    simpa [Transform.run] using tidied.yields

/-- The points with `1/2 ≤ 2 x ≤ 9/2` and `x + y/2 ≥ 1/2`, for an integer `x`. -/
def latticeSample : Parallelotope :=
  ⟨⟨1, 1⟩, some ⟨[[2, 0], [1, 1 / 2]], [⟨.fin (1 / 2), .fin (9 / 2)⟩, ⟨.fin (1 / 2), .posInf⟩], none⟩⟩

/-- The points with `4/3 ≤ 3 x ≤ 5/3`, of which none has an integer `x`. -/
def gapSample : Parallelotope :=
  ⟨⟨1, 1⟩, some ⟨[[1, 1 / 2], [3, 0]], [.top, ⟨.fin (4 / 3), .fin (5 / 3)⟩], none⟩⟩

theorem latticeSample_wellFormed : latticeSample.WellFormed := by
  apply shaped_mk (Frame.regular_of_invert? ⟨rfl, by decide⟩ rfl _)
  · decide +kernel
  · decide +kernel

theorem gapSample_wellFormed : gapSample.WellFormed := by
  apply shaped_mk (Frame.regular_of_invert? ⟨rfl, by decide⟩ rfl _)
  · decide +kernel
  · decide +kernel

/-- The range of `2 x` is rounded and keeps its points of integers.  That of `3 x` holds no integer, which
empties the value, although there is a rational in it. -/
theorem normal_form_keeps_points_sample :
    latticeSample.WellFormed ∧ gapSample.WellFormed ∧
    latticeSample.normalize {} = ⟨⟨1, 1⟩, some ⟨[[2, 0], [1, 1 / 2]], [⟨.fin 1, .fin 4⟩,
      ⟨.fin (1 / 2), .posInf⟩], none⟩⟩ ∧
    (∀ x : ℕ → ℚ, latticeSample.space.Admits x →
      ((latticeSample.normalize {}).Has x ↔ latticeSample.Has x)) ∧
    (Transform.canonicalize.run {} latticeSample).Yields (· = latticeSample.normalize {}) ∧
    (gapSample.normalize {}).isBottom ∧
    ¬ (gapSample.normalize { tightenIntegers := false }).isBottom := by
  have lattice := latticeSample_wellFormed
  have gap := gapSample_wellFormed
  obtain ⟨points, -, -, -, -, run⟩ :=
    normal_form_keeps_points (K := ℚ) (a := latticeSample) {} rfl (lattice _ rfl).1
  have emptied := normal_form_keeps_points (K := ℚ) (a := gapSample) {} rfl (gap _ rfl).1
  have plain := normal_form_keeps_points (K := ℚ) (a := gapSample) { tightenIntegers := false } rfl
    (gap _ rfl).1
  refine ⟨lattice, gap, by decide +kernel, points, run _ (by simp), ?_, ?_⟩
  · exact emptied.2.2.2.1.mpr (by decide +kernel)
  · rw [plain.2.2.2.1]
    decide +kernel

end Parallelotope

end SkewBox
