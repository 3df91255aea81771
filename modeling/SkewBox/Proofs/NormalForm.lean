import SkewBox.Proofs.Emptying
import SkewBox.Proofs.Generators
import SkewBox.Proofs.UnitLaws

/-!
# Normal forms

Normalising rounds the ranges of integer rows inward and finds out whether one of them is empty.  What
it leaves is a normal form: normalising once more changes nothing.

* `Frame.Regular.normalize_normalize`, `Parallelotope.normalize_normalize`: normal forms are kept.
* `Parallelotope.Shaped.normalize`, `tidy_eq`: the normal form of a value.
-/

namespace SkewBox

/-! ## Ranges -/

theorem Interval.tighten_tighten (I : Interval) : I.tighten.tighten = I.tighten := by
  obtain ⟨lo, hi⟩ := I
  cases lo <;> cases hi <;> simp [tighten, Bound.ceil, Bound.floor]

namespace Frame

variable {cfg : Settings} {s : Space} {f : Frame}

theorem tighten_of_not_integral {row : Vec} (plain : ¬ (cfg.tightenIntegers ∧ s.integral row))
    (I : Interval) : tighten cfg s row I = I := by
  unfold tighten
  split
  · rename_i rounded
    simp only [Bool.and_eq_true] at rounded
    exact absurd ⟨rounded.1.1.1, rounded.2⟩ plain
  · rfl

@[simp] theorem tighten_tighten (row : Vec) (I : Interval) :
    tighten cfg s row (tighten cfg s row I) = tighten cfg s row I := by
  by_cases rounded : cfg.tightenIntegers && 0 < s.ints && !I.isBottom && s.integral row
  · have once : tighten cfg s row I = I.tighten := if_pos rounded
    rw [once, tighten, Interval.tighten_tighten]
    exact ite_self _
  · have once : tighten cfg s row I = I := if_neg rounded
    rw [once, once]

theorem tightenAll_of_nonempty {rows : List Vec} {Is : List Interval} (same : rows.length = Is.length)
    (nonempty : (tightenAll cfg s rows Is).2 = false) :
    (tightenAll cfg s rows Is).1 = List.zipWith (tighten cfg s) rows Is := by
  have each : ∀ d ∈ rows.zip Is, (tighten cfg s d.1 d.2).isBottom = false := by
    intro d hd
    by_contra bottom
    have empty := (tightenAll_empty rows Is).mpr ⟨d, hd, by simpa using bottom⟩
    rw [nonempty] at empty
    cases empty
  rw [tightenAll_eq same each]

/-! ## Frames -/

theorem Regular.ranges_normalize (regular : f.Regular s.size)
    (nonempty : (f.normalize cfg s).empty = false) :
    (f.normalize cfg s).frame.ranges = List.zipWith (tighten cfg s) f.axes f.ranges :=
  tightenAll_of_nonempty regular.same.symm nonempty

theorem Regular.getD_normalize (regular : f.Regular s.size)
    (nonempty : (f.normalize cfg s).empty = false) {i : ℕ} (hi : i < s.size) :
    (f.normalize cfg s).frame.ranges.getD i .top =
      tighten cfg s (f.axes.getD i []) (f.ranges.getD i .top) := by
  have axes : i < f.axes.length := regular.axes.shape.length.symm ▸ hi
  have ranges : i < f.ranges.length := regular.ranges.symm ▸ hi
  rw [regular.ranges_normalize nonempty, List.getD_eq_getElem _ _ (by simp [axes, ranges]),
    List.getElem_zipWith, List.getD_eq_getElem _ _ axes, List.getD_eq_getElem _ _ ranges]

theorem Regular.normalize_fixed (regular : f.Regular s.size)
    (nonempty : (f.normalize cfg s).empty = false) :
    ∀ d ∈ (f.normalize cfg s).frame.rows, tighten cfg s d.1 d.2 = d.2 := by
  have rows : (f.normalize cfg s).frame.rows =
      f.axes.zip (List.zipWith (tighten cfg s) f.axes f.ranges) := by
    rw [Frame.rows, regular.ranges_normalize nonempty]
    rfl
  intro d hd
  rw [rows] at hd
  obtain ⟨i, hi, rfl⟩ := List.mem_iff_getElem.mp hd
  simp

theorem Regular.normalize_normalize (regular : f.Regular s.size)
    (nonempty : (f.normalize cfg s).empty = false) :
    (f.normalize cfg s).frame.normalize cfg s = ⟨(f.normalize cfg s).frame, false⟩ := by
  obtain ⟨regular', ordered⟩ := regular.normalize True nonempty
  exact (normalize_eq_self_iff regular' (ordered trivial)).mpr (regular.normalize_fixed nonempty)

end Frame

/-! ## Values -/

namespace Parallelotope

variable {a : Parallelotope} {cfg : Settings} {W W' : Parallelotope → Prop} {mayFail : Prop}

theorem Shaped.normalize (ha : a.Shaped False) (cfg : Settings) : (a.normalize cfg).WellFormed := by
  unfold Parallelotope.normalize
  split
  · rename_i empty
    exact shaped_of_none empty
  · rename_i f hf
    intro g hg
    obtain ⟨nonempty, rfl⟩ := Cut.eq_of_toParallelotope hg
    exact (ha f hf).1.normalize True nonempty

@[simp] theorem space_normalize (cfg : Settings) (a : Parallelotope) :
    (a.normalize cfg).space = a.space := by
  unfold normalize
  split <;> rfl

theorem normalize_normalize (ha : a.Shaped False) :
    (a.normalize cfg).normalize cfg = a.normalize cfg := by
  obtain ⟨s, _ | f⟩ := a
  · rfl
  · have regular := (ha f rfl).1
    cases emptied : (f.normalize cfg s).empty with
    | true => simp [normalize, Cut.toParallelotope, emptied]
    | false =>
      have again := regular.normalize_normalize emptied
      simp [normalize, Cut.toParallelotope, emptied, again]

theorem tidy_eq (stays : a.frame? = none → ∀ b, W b → W' b) (good : W' (a.normalize cfg)) :
    Op.Meets W W' mayFail (a.tidy cfg) (· = a.normalize cfg) := by
  unfold tidy
  unfold normalize at good ⊢
  cases hf : a.frame? with
  | none =>
    refine (Op.meets_pure ?_).leaves (stays hf)
    rfl
  | some f =>
    simp only [hf] at good
    exact Op.put_meets good rfl

end Parallelotope

end SkewBox
