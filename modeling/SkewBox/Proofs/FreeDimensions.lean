import SkewBox.Proofs.Support

/-!
# Unconstrained dimensions

The test asks of every row that mentions a dimension whether its range is everything.  Moving a point
along the dimension gives such a row any value at all, so that the row leaves its range unless this is
everything; and a value with a rational in each of its ranges has a point to start from.

* `Parallelotope.isUnconstrained_eq`: the test without the walk over the rows.
* `Parallelotope.unconstrained_decided`: the test and the points of the value.
-/

namespace SkewBox

theorem foldlM_and_eq {ε α : Type} {step : Bool → α → Except ε Bool} {test : α → Bool} {items : List α}
    (denied : ∀ a ∈ items, step false a = .ok false) (tests : ∀ a ∈ items, step true a = .ok (test a))
    (answer : Bool) : items.foldlM step answer = .ok (answer && items.all test) := by
  induction items generalizing answer with
  | nil => simp [pure, Except.pure]
  | cons a items ih =>
    obtain ⟨first, denied⟩ := List.forall_mem_cons.mp denied
    obtain ⟨here, tests⟩ := List.forall_mem_cons.mp tests
    rw [List.foldlM_cons]
    cases answer with
    | false => rw [first, ok_bind, ih denied tests, Bool.false_and, Bool.false_and]
    | true => rw [here, ok_bind, ih denied tests, List.all_cons, Bool.true_and]

variable {K : Type*} [Field K] [LinearOrder K] [IsStrictOrderedRing K] {d : ℕ} {x : ℕ → K}

theorem Interval.isTop_iff_forall_has {I : Interval} : I.isTop ↔ ∀ v : K, I.Has v := by
  refine ⟨fun top v => has_of_isTop top, fun all => ?_⟩
  obtain ⟨lo, hi⟩ := I
  have lower : lo = .negInf := by
    cases lo with
    | negInf => rfl
    | fin q =>
      have below : (q : K) ≤ q - 1 := (all (q - 1)).1
      linarith
    | posInf => exact (all 0).1.elim
  have upper : hi = .posInf := by
    cases hi with
    | negInf => exact (all 0).2.elim
    | fin q =>
      have above : (q : K) + 1 ≤ q := (all (q + 1)).2
      linarith
    | posInf => rfl
  simp [isTop, lower, upper]

theorem Vec.forall_update_has_iff {row : Vec} {I : Interval} (inside : d < row.length)
    (has : I.Has (row.eval x)) :
    (∀ t, I.Has (row.eval (Function.update x d t))) ↔ row.getD d 0 = 0 ∨ I.isTop := by
  simp only [eval_update inside]
  by_cases zero : row.getD d 0 = 0
  · simp only [zero, Rat.cast_zero, zero_mul, add_zero, has, implies_true, true_or]
  · have nonzero : ((row.getD d 0 : ℚ) : K) ≠ 0 := Rat.cast_ne_zero.mpr zero
    simp only [zero, false_or]
    rw [Interval.isTop_iff_forall_has (K := K)]
    refine ⟨fun all v => ?_, fun all t => all _⟩
    have value := all (x d + (v - row.eval x) / ((row.getD d 0 : ℚ) : K))
    rwa [add_sub_cancel_left, mul_div_cancel₀ _ nonzero, add_sub_cancel] at value

theorem Frame.Has.forall_update_iff {f : Frame} (has : f.Has x) (wide : ∀ row ∈ f.axes, d < row.length) :
    (∀ t, f.Has (Function.update x d t)) ↔ ∀ row ∈ f.rows, row.1.getD d 0 = 0 ∨ row.2.isTop := by
  simp only [Frame.Has] at has ⊢
  rw [forall_comm]
  refine forall_congr' fun row => ?_
  rw [forall_comm]
  refine forall_congr' fun mem => ?_
  exact Vec.forall_update_has_iff (wide row.1 (List.of_mem_zip mem).1) (has row mem)

namespace Parallelotope

variable {a : Parallelotope} {f : Frame}

theorem isUnconstrained_eq (hf : a.frame? = some f) (wide : ∀ row ∈ f.axes, d < row.length)
    (inside : d < a.space.size) :
    a.isUnconstrained (.int d) =
      .ok (f.rows.all fun row => decide (row.1.getD d 0 = 0) || row.2.isTop) := by
  unfold isUnconstrained
  rw [Space.check_eq_ok.mpr ⟨rfl, inside⟩, ok_bind]
  simp only [hf]
  refine foldlM_and_eq (fun row _ => rfl) (fun row mem => ?_) true
  have width := wide row.1 (List.of_mem_zip mem).1
  simp only [List.getElem?_eq_getElem width, List.getD_eq_getElem _ _ width]
  rfl

/-- Over a value with invertible axes and a rational in each of its ranges, the test of a dimension
answers whether each point of the value may be moved along the dimension at will. -/
theorem unconstrained_decided {a : Parallelotope} (regular : a.Shaped False) (nonempty : a.isBottom = false)
    (filled : a.Filled) {d : ℕ} (inside : d < a.space.size) :
    ∃ free, a.isUnconstrained (.int d) = .ok free ∧
      (free = true ↔ ∀ x : ℕ → K, a.Has x → ∀ t, a.Has (Function.update x d t)) := by
  cases hf : a.frame? with
  | none => simp [isBottom, hf] at nonempty
  | some f =>
    have regular := (regular f hf).1
    have wide : ∀ row ∈ f.axes, d < row.length := fun row mem =>
      (regular.axes.shape.width row mem).symm ▸ inside
    refine ⟨_, isUnconstrained_eq hf wide inside, ?_⟩
    simp only [has_iff_of_frame hf, List.all_eq_true, Bool.or_eq_true, decide_eq_true_eq]
    constructor
    · exact fun free x has => (has.forall_update_iff wide).mpr free
    · intro moves
      obtain ⟨x, has⟩ := regular.exists_has (K := K) (filled f hf)
      exact (has.forall_update_iff wide).mp (moves x has)

/-- The sum of the coordinates is free, and the second coordinate is not negative. -/
def shelfSample : Parallelotope :=
  ⟨⟨1, 1⟩, some ⟨[[1, 1], [0, 1]], [.top, ⟨.fin 0, .posInf⟩], none⟩⟩

/-- The shelf goes on in the first dimension, and has an edge in the second. -/
theorem unconstrained_decided_shelf :
    shelfSample.Shaped False ∧ shelfSample.isBottom = false ∧ shelfSample.Filled ∧
    shelfSample.isUnconstrained (.int 0) = .ok true ∧
    (∀ x : ℕ → ℚ, shelfSample.Has x → ∀ t, shelfSample.Has (Function.update x 0 t)) ∧
    shelfSample.isUnconstrained (.int 1) = .ok false ∧
    ¬ ∀ x : ℕ → ℚ, shelfSample.Has x → ∀ t, shelfSample.Has (Function.update x 1 t) := by
  have regular : shelfSample.Shaped False :=
    shaped_mk (Frame.regular_of_invert? ⟨rfl, by decide⟩ rfl (by decide +kernel)) False.elim
  have filled : shelfSample.Filled := filled_mk (by decide)
  have first : shelfSample.isUnconstrained (.int 0) = .ok true := by decide +kernel
  have second : shelfSample.isUnconstrained (.int 1) = .ok false := by decide +kernel
  obtain ⟨_, test, moves⟩ := unconstrained_decided (K := ℚ) regular rfl filled (d := 0) (by decide)
  obtain ⟨_, test', moves'⟩ := unconstrained_decided (K := ℚ) regular rfl filled (d := 1) (by decide)
  obtain rfl := Except.ok.inj (test.symm.trans first)
  obtain rfl := Except.ok.inj (test'.symm.trans second)
  exact ⟨regular, rfl, filled, first, moves.mp rfl, second, fun all => by simpa using moves'.mpr all⟩

end Parallelotope

end SkewBox
