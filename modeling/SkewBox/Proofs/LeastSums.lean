import SkewBox.Proofs.BoundingBoxes
import SkewBox.Proofs.LeastUnion

/-!
# Least sums with rays and lines

A ray takes from each row the end towards which the row grows along it, and a line takes both.  So each
row takes exactly the values that the points of the value reach along the rays and lines, and the result is
the least system of ranges for these axes around the points that are reached.  One generator never
gives back what another has taken, so that their order does not matter.

* `Parallelotope.opened_has`, `range_opened_leq`: what is reached is kept, and no row takes more.
* `Parallelotope.rays_least`: rays and lines added to a value.
-/

namespace SkewBox

theorem Mat.image_add {K : Type*} [Field K] (m : Mat) (x u : ℕ → K) (i : ℕ) :
    m.image (fun j => x j + u j) i = m.image x i + m.image u i :=
  Vec.eval_add _ x u

namespace Parallelotope

variable {K : Type*} [Field K] [LinearOrder K] [IsStrictOrderedRing K]

/-! ## Order of the generators -/

theorem extend_comm (line line' : Bool) (v v' : ℚ) (I : Interval) :
    extend line v (extend line' v' I) = extend line' v' (extend line v I) := by
  by_cases still : v = 0
  · simp [extend, still]
  by_cases still' : v' = 0
  · simp [extend, still']
  simp only [extend, still, still', if_false, Interval.mk.injEq]
  constructor
  · by_cases first : line || v < 0 <;> by_cases second : line' || v' < 0 <;> simp [first, second]
  · by_cases first : line || 0 < v <;> by_cases second : line' || 0 < v' <;> simp [first, second]

theorem opened_comm (f : Frame) (g h : Generator) : opened (opened f g) h = opened (opened f h) g := by
  simp only [opened, Frame.mk.injEq, true_and, and_true]
  apply List.ext_getElem
  · simp [Nat.min_left_comm]
  · intro i _ _
    simp [extend_comm]

theorem foldl_opened_perm {gens gens' : List Generator} (perm : gens'.Perm gens) (f : Frame) :
    gens'.foldl opened f = gens.foldl opened f :=
  perm.foldl_eq' (fun g _ h _ f => opened_comm f g h) f

/-! ## Rows -/

section Rows

variable {f : Frame} {m : Mat} {n i : ℕ} {gens : List Generator}

/-- The steps that a row makes along the generators are those that it makes from a point to where the
generators lead. -/
theorem exists_leads_inRows (shape : m.HasShape n n) (sizes : ∀ g ∈ gens, g.coords.length = n) (hi : i < n)
    {P : K → Prop} :
    (∃ w : ℕ → K, Leads (inRows m gens) w ∧ P (w i)) ↔ ∃ u : ℕ → K, Leads gens u ∧ P (m.image u i) := by
  have kinds : ∀ ts : List K, List.Forall₂ Along (inRows m gens) ts ↔ List.Forall₂ Along gens ts := fun ts =>
    List.forall₂_map_left_iff
  constructor
  · rintro ⟨w, ⟨ts, along, value⟩, holds⟩
    rw [value, swept_inRows shape sizes ts hi] at holds
    exact ⟨swept gens ts, ⟨ts, (kinds ts).mp along, fun _ => rfl⟩, holds⟩
  · rintro ⟨u, ⟨ts, along, value⟩, holds⟩
    rw [funext value, ← swept_inRows shape sizes ts hi] at holds
    exact ⟨swept (inRows m gens) ts, ⟨ts, (kinds ts).mpr along, fun _ => rfl⟩, holds⟩

theorem range_opened_has_iff (regular : f.Regular n) (filled : f.Filled)
    (sizes : ∀ g ∈ gens, g.coords.length = n) (hi : i < n) {v : K} :
    ((gens.foldl opened f).ranges.getD i .top).Has v ↔
      ∃ u : ℕ → K, Leads gens u ∧ (f.ranges.getD i .top).Has (v - f.axes.image u i) := by
  have inside : i < f.ranges.length := regular.ranges.symm ▸ hi
  have range : (gens.foldl opened f).ranges.getD i .top =
      openedRange (inRows f.axes gens) i (f.ranges.getD i .top) := by
    rw [foldl_opened regular.same]
    simp [inside]
  rw [range, openedRange_has_iff (Interval.filled_getD filled i)]
  exact exists_leads_inRows regular.axes.shape sizes hi (P := fun t => (f.ranges.getD i .top).Has (v - t))

theorem foldl_opened_regular (regular : f.Regular n) (gens : List Generator) :
    (gens.foldl opened f).Regular n ∧ (gens.foldl opened f).axes = f.axes := by
  rw [foldl_opened regular.same]
  exact ⟨regular.setRanges _ (by simp [regular.ranges]), rfl⟩

theorem opened_has (regular : f.Regular n) (filled : f.Filled) (sizes : ∀ g ∈ gens, g.coords.length = n)
    {x u : ℕ → K} (hx : f.Has x) (leads : Leads gens u) : (gens.foldl opened f).Has fun j => x j + u j := by
  obtain ⟨regular', axes⟩ := foldl_opened_regular regular gens
  rw [regular'.has_iff_lt]
  intro i hi
  rw [range_opened_has_iff regular filled sizes hi, axes]
  refine ⟨u, leads, ?_⟩
  rw [Mat.image_add, add_sub_cancel_right]
  exact regular.has_iff_lt.mp hx i hi

/-- A range for a row that holds its values wherever the generators lead from the points holds the range
that the row gets. -/
theorem range_opened_leq (regular : f.Regular n) (filled : f.Filled)
    (sizes : ∀ g ∈ gens, g.coords.length = n) (hi : i < n) {J : Interval}
    (within : ∀ x u : ℕ → ℚ, f.Has x → Leads gens u → J.Has (f.axes.image (fun j => x j + u j) i)) :
    ((gens.foldl opened f).ranges.getD i .top).leq J := by
  have reached : ∀ q : ℚ, ((gens.foldl opened f).ranges.getD i .top).Has q → J.Has q := by
    intro q hq
    -- The row takes the value `q` after a step `u` from a point at which it is in its old range.
    obtain ⟨u, leads, before⟩ := (range_opened_has_iff regular filled sizes hi).mp hq
    obtain ⟨x, hx, value⟩ := regular.exists_row filled hi before
    have member := within x u hx leads
    rwa [Mat.image_add, value, sub_add_cancel] at member
  apply Interval.leq_of_has _ reached
  rw [foldl_opened regular.same]
  have inside : i < f.ranges.length := regular.ranges.symm ▸ hi
  simpa [inside] using openedRange_filled (inRows f.axes gens) i (Interval.filled_getD filled i)

end Rows

/-! ## Values -/

theorem checkRay_of_kind {s : Space} {g : Generator} (kind : g.kind = .ray ∨ g.kind = .line)
    (size : g.coords.length = s.size) : checkRay s g = .ok () := by
  cases kind with
  | inl ray => simp [checkRay, ray, GeneratorKind.isModular, size]
  | inr line => simp [checkRay, line, GeneratorKind.isModular, size]

/-- Rays and lines of the space are added to a value of invertible axes with a rational number in each of its
ranges.  The result keeps the axes and has every point to which the rays and lines lead from a point of the
value; any ranges for these axes that admit all these points, as far as they are rational, admit the whole
result.  Any other order of the rays and lines gives the same result. -/
theorem rays_least {a : Parallelotope} {f : Frame} (hf : a.frame? = some f)
    (regular : f.Regular a.space.size) (filled : f.Filled) (gens : List Generator)
    (kinds : ∀ g ∈ gens, g.kind = .ray ∨ g.kind = .line)
    (sizes : ∀ g ∈ gens, g.coords.length = a.space.size) :
    (a.addRays gens).Yields fun b => ∃ Is : List Interval, b = ⟨a.space, some { f with ranges := Is }⟩ ∧
      Is.length = a.space.size ∧
      (∀ x u : ℕ → K, a.Has x → Leads gens u → b.Has fun j => x j + u j) ∧
      (∀ Js : List Interval, Js.length = a.space.size →
        (∀ x u : ℕ → ℚ, a.Has x → Leads gens u → Frame.Has ⟨f.axes, Js, none⟩ fun j => x j + u j) →
        ∀ x : ℕ → K, b.Has x → Frame.Has ⟨f.axes, Js, none⟩ x) ∧
      ∀ gens' : List Generator, gens'.Perm gens → (a.addRays gens').Yields (· = b) := by
  -- The order of the generators does not matter, since opening the ranges commutes.
  have added : ∀ gens' : List Generator, gens'.Perm gens →
      (a.addRays gens').Yields (· = ⟨a.space, some (gens.foldl opened f)⟩) := by
    intro gens' perm
    have checked : ∀ g ∈ gens', checkRay a.space g = .ok () := fun g hg =>
      checkRay_of_kind (kinds g (perm.mem_iff.mp hg)) (sizes g (perm.mem_iff.mp hg))
    have result := (addRays_eq checked).yields
    rwa [hf, Option.map_some, foldl_opened_perm perm] at result
  obtain ⟨b, report, run, rfl⟩ := added gens (.refl gens)
  obtain ⟨regular', axes⟩ := foldl_opened_regular regular gens
  refine ⟨_, report, run, (gens.foldl opened f).ranges, by rw [foldl_opened regular.same], regular'.ranges,
    ?_, ?_, added⟩
  · intro x u hx leads
    rw [has_mk]
    exact opened_has regular filled sizes ((has_iff_of_frame hf).mp hx) leads
  · intro Js length within x hx
    have system : Frame.Regular ⟨f.axes, Js, none⟩ a.space.size := Frame.regular_mk regular.axes length
    rw [has_mk, regular'.has_iff_lt, axes] at hx
    rw [system.has_iff_lt]
    intro i hi
    -- Each opened range lies in every range that holds the row at the points moved along.
    apply Interval.leq_has _ (hx i hi)
    apply range_opened_leq regular filled sizes hi
    intro y u hy leads
    exact system.has_iff_lt.mp (within y u ((has_iff_of_frame hf).mpr hy) leads) i hi

/-- The band, with a ray across both of its rows and a line along one: it has the points to which these lead,
here `(3, -2)` from `(0, 0)`, lies in any ranges that admit all of them, and does not ask which came first. -/
theorem rays_least_sample :
    bandSample.WellFormed ∧ bandSample.Filled ∧
    (bandSample.addRays [⟨.ray, [1, 0]⟩, ⟨.line, [1, 1]⟩]).Yields fun b =>
      b.Has (fun j => ([3, -2] : List ℚ).getD j 0) ∧
      (∀ I J : Interval, (∀ x u : ℕ → ℚ, bandSample.Has x → Leads [⟨.ray, [1, 0]⟩, ⟨.line, [1, 1]⟩] u →
          Frame.Has ⟨[[1, -1], [1, 1]], [I, J], none⟩ fun j => x j + u j) →
        ∀ x : ℕ → ℚ, b.Has x → Frame.Has ⟨[[1, -1], [1, 1]], [I, J], none⟩ x) ∧
      (bandSample.addRays [⟨.line, [1, 1]⟩, ⟨.ray, [1, 0]⟩]).Yields (· = b) := by
  have filled : bandSample.Filled := filled_mk (by decide)
  have band := bandSample_wellFormed
  obtain ⟨b, report, run, Is, -, -, reached, least, order⟩ := rays_least (K := ℚ) (a := bandSample) rfl
    (band _ rfl).1 (filled _ rfl) [⟨.ray, [1, 0]⟩, ⟨.line, [1, 1]⟩] (by decide) (by decide)
  refine ⟨band, filled, b, report, run, ?_, fun I J within => least [I, J] rfl within, ?_⟩
  · have origin : bandSample.Has fun _ => (0 : ℚ) := by
      refine has_mk.mpr ?_
      norm_num [Frame.Has, Frame.rows, Interval.Has]
    -- Five times the ray, and the line twice backwards.
    have step : Leads [⟨.ray, [1, 0]⟩, ⟨.line, [1, 1]⟩] fun j => ([3, -2] : List ℚ).getD j 0 := by
      refine ⟨[5, -2], .cons (fun _ => by norm_num) (.cons (fun ray => absurd rfl ray) .nil), fun j => ?_⟩
      rcases j with _ | _ | j <;> norm_num
    simpa using reached _ _ origin step
  · exact order _ (List.Perm.swap ..)

end Parallelotope

end SkewBox
