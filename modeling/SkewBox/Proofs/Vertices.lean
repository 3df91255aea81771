import SkewBox.Proofs.Generators
import SkewBox.Proofs.Refusals

/-!
# Vertices, rays and lines of a value

The rows of a regular frame take any values, so the points of a value are those of a box of row values, seen
through the inverse of the axes.  A box is the sum of the mixtures of its corners and of the steps that its
unbounded sides allow.  The corners are as many as there are choices of an end for each row.

* `Interval.Recedes`: the steps that stay within the unbounded sides of an interval.
* `Parallelotope.Weights`, `exists_weights`: numbers between the coordinates of vertices are mixtures.
* `Parallelotope.Leads`, `leads_recessions`: the steps that rays and lines allow.
* `Parallelotope.generators_describe`: the points that they span, and the limit on their number.
-/

namespace SkewBox

variable {K : Type*} [Field K] [LinearOrder K] [IsStrictOrderedRing K]

/-! ## Ranges -/

namespace Interval

variable {I : Interval} {u v y : K}

/-- No member is moved beyond a finite end by the step. -/
def Recedes (I : Interval) (u : K) : Prop := (I.lo.isFinite → 0 ≤ u) ∧ (I.hi.isFinite → u ≤ 0)

theorem Has.add_recedes (has : I.Has v) (recedes : I.Recedes u) : I.Has (v + u) := by
  obtain ⟨lo, hi⟩ := I
  constructor
  · cases lo with
    | negInf => trivial
    | fin q =>
      have low : (q : K) ≤ v := has.1
      exact low.trans (le_add_of_nonneg_right (recedes.1 rfl))
    | posInf => exact has.1.elim
  · cases hi with
    | negInf => exact has.2.elim
    | fin q =>
      have high : v ≤ (q : K) := has.2
      exact (add_le_of_nonpos_right (recedes.2 rfl)).trans high
    | posInf => trivial

end Interval

/-! ## Columns -/

namespace Mat

variable {m : Mat} {r c i j : ℕ}

/-- The first `n` columns. -/
def columns (m : Mat) (n : ℕ) : List Vec := (List.range n).map fun i => m.map (·.getD i 0)

theorem HasShape.column_eq (shape : m.HasShape r c) (inside : i < c) :
    m.column i = .ok (m.map (·.getD i 0)) := by
  rw [column, mapM_eq_ok, List.forall₂_map_right_iff, List.forall₂_same]
  intro row hrow
  have inside' : i < row.length := by rwa [shape.width row hrow]
  simp [lookup, place?, inside']

theorem HasShape.map_columns (shape : m.HasShape r c) (inside : j < r) :
    (m.columns c).map (·.getD j 0) = m.getD j [] := by
  have length := shape.getD_length inside
  have inside' : j < m.length := shape.length ▸ inside
  rw [List.getD_eq_getElem _ _ inside'] at length ⊢
  apply List.ext_getElem (by simp [columns, length])
  intro i hi hi'
  simp [columns, inside', hi']

end Mat

namespace Parallelotope

/-! ## Mixtures -/

/-- Weights for `n` vertices. -/
structure Weights (n : ℕ) (ws : List K) : Prop where
  count : ws.length = n
  nonneg : ∀ w ∈ ws, 0 ≤ w
  convex : ws.sum = 1

/-- The points as generators. -/
def asVertices (ys : List Vec) : List Generator := ys.map fun y => ⟨.vertex, y⟩

omit [LinearOrder K] [IsStrictOrderedRing K] in
theorem swept_ofFn (gens : List Generator) (w : Fin gens.length → K) (j : ℕ) :
    swept gens (List.ofFn w) j = ∑ k, w k * (((gens.get k).coords.getD j 0 : ℚ) : K) := by
  rw [swept, ← List.sum_ofFn]
  congr 1
  apply List.ext_getElem (by simp)
  intro k hk hk'
  simp

theorem exists_weights {gens : List Generator} {g h : Generator} (hg : g ∈ gens) (hh : h ∈ gens) {j : ℕ}
    {z : K} (low : ((g.coords.getD j 0 : ℚ) : K) ≤ z) (high : z ≤ ((h.coords.getD j 0 : ℚ) : K)) :
    ∃ ws, Weights gens.length ws ∧ swept gens ws j = z := by
  obtain ⟨i, rfl⟩ := List.get_of_mem hg
  obtain ⟨i', rfl⟩ := List.get_of_mem hh
  have between : z ∈ segment K (((gens.get i).coords.getD j 0 : ℚ) : K)
      (((gens.get i').coords.getD j 0 : ℚ) : K) := by
    rw [segment_eq_Icc (low.trans high)]
    exact ⟨low, high⟩
  obtain ⟨s, t, hs, ht, total, value⟩ := between
  let w : Fin gens.length → K := fun k => s * (if k = i then 1 else 0) + t * if k = i' then 1 else 0
  have nonneg : ∀ k, 0 ≤ w k := by
    intro k
    simp only [w]
    positivity
  refine ⟨List.ofFn w, ⟨List.length_ofFn, by simpa [List.mem_ofFn] using nonneg, ?_⟩, ?_⟩
  · rw [List.sum_ofFn]
    simp [w, Finset.sum_add_distrib, total]
  · rw [swept_ofFn, ← value]
    simp [w, add_mul, Finset.sum_add_distrib]

/-! ## Products -/

/-- The weights of all pairs. -/
def pairWeights (us ws : List K) : List K := us.flatMap fun u => ws.map (u * ·)

omit [LinearOrder K] [IsStrictOrderedRing K] in
theorem sum_pairWeights (us ws : List K) : (pairWeights us ws).sum = us.sum * ws.sum := by
  induction us with
  | nil => simp [pairWeights]
  | cons u us ih =>
    have scaled : (ws.map (u * ·)).sum = u * ws.sum := by simpa using List.sum_map_mul_left ws id u
    rw [pairWeights, List.flatMap_cons, List.sum_append, scaled, List.sum_cons, add_mul, ← ih]
    rfl

theorem Weights.pair {m n : ℕ} {us ws : List K} (first : Weights m us) (second : Weights n ws) :
    Weights (m * n) (pairWeights us ws) where
  count := by simp [pairWeights, List.length_flatMap, first.count, second.count]
  nonneg := by
    intro w hw
    obtain ⟨u, hu, hw⟩ := List.mem_flatMap.mp hw
    obtain ⟨v, hv, rfl⟩ := List.mem_map.mp hw
    exact mul_nonneg (first.nonneg u hu) (second.nonneg v hv)
  convex := by rw [sum_pairWeights, first.convex, second.convex, one_mul]

omit [LinearOrder K] [IsStrictOrderedRing K] in
theorem swept_map_cons (x : ℚ) (u : K) {ys : List Vec} {ws : List K} (same : ws.length = ys.length) :
    swept (asVertices (ys.map (x :: ·))) (ws.map (u * ·)) 0 = u * x * ws.sum ∧
      ∀ j, swept (asVertices (ys.map (x :: ·))) (ws.map (u * ·)) (j + 1) =
        u * swept (asVertices ys) ws j := by
  induction ys generalizing ws with
  | nil => simp [List.length_eq_zero_iff.mp same, asVertices]
  | cons y ys ih =>
    cases ws with
    | nil => simp at same
    | cons w ws =>
      obtain ⟨first, others⟩ := @ih ws (by simpa using same)
      simp only [asVertices, List.map_cons, swept_cons, List.sum_cons] at first others ⊢
      refine ⟨?_, fun j => ?_⟩
      · rw [first]
        simp
        ring
      · rw [others]
        simp
        ring

omit [LinearOrder K] [IsStrictOrderedRing K] in
theorem swept_pairs {xs : List ℚ} {us : List K} (same : us.length = xs.length) {ys : List Vec} {ws : List K}
    (same' : ws.length = ys.length) :
    swept (asVertices (xs.flatMap fun x => ys.map (x :: ·))) (pairWeights us ws) 0 =
        swept (asVertices (xs.map ([·]))) us 0 * ws.sum ∧
      ∀ j, swept (asVertices (xs.flatMap fun x => ys.map (x :: ·))) (pairWeights us ws) (j + 1) =
        us.sum * swept (asVertices ys) ws j := by
  induction xs generalizing us with
  | nil => simp [List.length_eq_zero_iff.mp same, asVertices, pairWeights]
  | cons x xs ih =>
    cases us with
    | nil => simp at same
    | cons u us =>
      obtain ⟨first, others⟩ := @ih us (by simpa using same)
      obtain ⟨head, tail⟩ := swept_map_cons x u same'
      -- The corners that begin with `x` come first, and their weights carry the factor `u`.
      have split : ∀ j, swept (asVertices ((x :: xs).flatMap fun x => ys.map (x :: ·)))
          (pairWeights (u :: us) ws) j = swept (asVertices (ys.map (x :: ·))) (ws.map (u * ·)) j +
            swept (asVertices (xs.flatMap fun x => ys.map (x :: ·))) (pairWeights us ws) j := by
        intro j
        rw [← swept_append (by simp [asVertices, same'])]
        simp [asVertices, pairWeights]
      refine ⟨?_, fun j => ?_⟩
      · rw [split, head, first]
        simp [asVertices]
        ring
      · rw [split, tail, others, List.sum_cons]
        ring

/-! ## Corners -/

/-- A value of a row is a mixture of its corners and a step along its unbounded sides. -/
theorem exists_weights_corners {I : Interval} {y : K} (has : I.Has y) :
    ∃ ws, Weights (corners I).length ws ∧
      I.Recedes (y - swept (asVertices ((corners I).map ([·]))) ws 0) := by
  -- A row with two ends reaches `y` between them; any other row starts from its one corner.
  have near : ∃ p ∈ corners I, ∃ q ∈ corners I, ∃ z : K, (p : K) ≤ z ∧ z ≤ (q : K) ∧ I.Recedes (y - z) := by
    obtain ⟨lo, hi⟩ := I
    cases lo with
    | posInf => exact has.1.elim
    | negInf =>
      cases hi with
      | negInf => exact has.2.elim
      | posInf =>
        refine ⟨0, by simp [corners], 0, by simp [corners], 0, by simp, by simp, ?_⟩
        simp [Interval.Recedes, Bound.isFinite]
      | fin b =>
        have high : y ≤ (b : K) := has.2
        refine ⟨b, by simp [corners], b, by simp [corners], b, le_rfl, le_rfl, ?_⟩
        simpa [Interval.Recedes, Bound.isFinite] using high
    | fin a =>
      have low : (a : K) ≤ y := has.1
      cases hi with
      | negInf => exact has.2.elim
      | posInf =>
        refine ⟨a, by simp [corners], a, by simp [corners], a, le_rfl, le_rfl, ?_⟩
        simpa [Interval.Recedes, Bound.isFinite] using low
      | fin b =>
        have high : y ≤ (b : K) := has.2
        refine ⟨a, ?_, b, ?_, y, low, high, by simp [Interval.Recedes]⟩
        · by_cases same : a = b <;> simp [corners, same]
        · by_cases same : a = b <;> simp [corners, same]
  obtain ⟨p, hp, q, hq, z, low, high, recedes⟩ := near
  have vertex : ∀ x ∈ corners I, (⟨.vertex, [x]⟩ : Generator) ∈ asVertices ((corners I).map ([·])) := by
    simp [asVertices]
  obtain ⟨ws, weights, value⟩ := exists_weights (j := 0) (vertex p hp) (vertex q hq) low high
  exact ⟨ws, by simpa [asVertices] using weights, by rwa [value]⟩

/-- Row values within their ranges are a mixture of the corners of the box and a step along the unbounded
sides. -/
theorem exists_mixture {Is : List Interval} {y : ℕ → K} (has : ∀ i < Is.length, (Is.getD i .top).Has (y i)) :
    ∃ ws, Weights (choices (Is.map corners)).length ws ∧ ∀ i < Is.length,
      (Is.getD i .top).Recedes (y i - swept (asVertices (choices (Is.map corners))) ws i) := by
  induction Is generalizing y with
  | nil => exact ⟨[1], ⟨rfl, by simp, by simp⟩, by simp⟩
  | cons I Is ih =>
    have has₀ : I.Has (y 0) := has 0 (by simp)
    obtain ⟨us, first, recedes⟩ := exists_weights_corners has₀
    obtain ⟨ws, rest, others⟩ := @ih (fun i => y (i + 1)) fun i hi => has (i + 1) (by simpa using hi)
    -- A pair of corners weighs the product of their weights, so each row keeps its own mixture.
    obtain ⟨head, tail⟩ := swept_pairs first.count rest.count
    refine ⟨pairWeights us ws, ?_, ?_⟩
    · simpa [choices, List.length_flatMap] using first.pair rest
    · intro i hi
      simp only [List.map_cons, choices]
      cases i with
      | zero =>
        rw [head, rest.convex, mul_one]
        exact recedes
      | succ i =>
        rw [tail, first.convex, one_mul]
        exact others i (by simpa using hi)

theorem corners_has {I : Interval} (filled : I.Filled) {q : ℚ} (hq : q ∈ corners I) : I.Has (q : K) := by
  obtain ⟨lo, hi⟩ := I
  obtain ⟨order, low, high⟩ := Interval.filled_iff.mp filled
  cases lo with
  | posInf => exact absurd rfl low
  | negInf =>
    cases hi with
    | negInf => exact absurd rfl high
    | posInf => exact Interval.top_has
    | fin b =>
      obtain rfl : q = b := by simpa [corners] using hq
      exact ⟨trivial, le_refl _⟩
  | fin a =>
    cases hi with
    | negInf => exact absurd rfl high
    | posInf =>
      obtain rfl : q = a := by simpa [corners] using hq
      exact ⟨le_refl _, trivial⟩
    | fin b =>
      have order : a ≤ b := Bound.fin_le_fin.mp order
      -- A range with two ends has both as corners, or one if they are the same.
      have among : q = a ∨ q = b := by
        by_cases same : a = b
        · simpa [corners, same] using hq
        · simpa [corners, same] using hq
      have within : a ≤ q ∧ q ≤ b := by grind
      exact ⟨Rat.cast_le.mpr within.1, Rat.cast_le.mpr within.2⟩

/-! ## Steps along rays and lines -/

/-- The rays and lines allow the step. -/
def Leads (gens : List Generator) (v : ℕ → K) : Prop :=
  ∃ ts, List.Forall₂ Along gens ts ∧ ∀ j, v j = swept gens ts j

omit [IsStrictOrderedRing K] in
theorem leads_nil {v : ℕ → K} : Leads [] v ↔ ∀ j, v j = 0 := by
  constructor
  · rintro ⟨ts, along, value⟩
    exact value
  · intro still
    exact ⟨[], .nil, still⟩

omit [IsStrictOrderedRing K] in
theorem leads_cons {g : Generator} {gens : List Generator} {v : ℕ → K} :
    Leads (g :: gens) v ↔ ∃ t, Along g t ∧ Leads gens fun j => v j - t * ((g.coords.getD j 0 : ℚ) : K) := by
  constructor
  · rintro ⟨ts, along, value⟩
    cases along with
    | cons first rest =>
      refine ⟨_, first, _, rest, fun j => ?_⟩
      simp only [value, swept_cons, add_sub_cancel_left]
  · rintro ⟨t, first, ts, rest, value⟩
    refine ⟨t :: ts, .cons first rest, fun j => ?_⟩
    rw [swept_cons, ← value, add_sub_cancel]

omit [IsStrictOrderedRing K] in
theorem leads_append {gens gens' : List Generator} {v : ℕ → K} :
    Leads (gens ++ gens') v ↔ ∃ u, Leads gens u ∧ Leads gens' fun j => v j - u j := by
  induction gens generalizing v with
  | nil =>
    simp only [List.nil_append, leads_nil]
    constructor
    · intro leads
      exact ⟨fun _ => 0, fun _ => rfl, by simpa using leads⟩
    · rintro ⟨u, still, leads⟩
      simpa [still] using leads
  | cons g gens ih =>
    simp only [List.cons_append, leads_cons, ih]
    constructor
    · rintro ⟨t, along, u, first, second⟩
      refine ⟨fun j => t * ((g.coords.getD j 0 : ℚ) : K) + u j, ⟨t, along, by simpa using first⟩, ?_⟩
      simpa [sub_sub] using second
    · rintro ⟨u, ⟨t, along, first⟩, second⟩
      exact ⟨t, along, _, first, by simpa [sub_sub] using second⟩

theorem leads_recession {I : Interval} {column : Vec} {v : ℕ → K} :
    Leads (recession I column) v ↔ ∃ u, I.Recedes u ∧ ∀ j, v j = u * ((column.getD j 0 : ℚ) : K) := by
  have opposite : ∀ j, (Vec.neg column).getD j 0 = -column.getD j 0 := by
    intro j
    simp [Vec.neg, List.getD_eq_getElem?_getD, List.getElem?_map]
    cases column[j]? <;> simp
  -- Two finite ends leave no way to recede, one leaves a ray, and none leaves a line.
  cases lo : I.lo.isFinite with
  | true =>
    cases hi : I.hi.isFinite with
    | true =>
      have still : ∀ u : K, I.Recedes u ↔ u = 0 := by
        simp [Interval.Recedes, lo, hi, le_antisymm_iff, and_comm]
      simp [recession, lo, hi, leads_nil, still]
    | false =>
      simp [recession, lo, hi, leads_cons, leads_nil, Along, Interval.Recedes, sub_eq_zero]
  | false =>
    cases hi : I.hi.isFinite with
    | true =>
      simp only [recession, lo, hi, leads_cons, leads_nil, Along, Interval.Recedes, sub_eq_zero, opposite]
      constructor
      · rintro ⟨t, forwards, value⟩
        refine ⟨-t, by simpa using forwards, by simpa using value⟩
      · rintro ⟨u, recedes, value⟩
        refine ⟨-u, by simpa using recedes, by simpa using value⟩
    | false => simp [recession, lo, hi, leads_cons, leads_nil, Along, Interval.Recedes, sub_eq_zero]

theorem leads_recessions {Is : List Interval} {columns : List Vec} (same : columns.length = Is.length)
    {v : ℕ → K} : Leads (List.zipWith recession Is columns).flatten v ↔
      ∃ u : ℕ → K, (∀ i < Is.length, (Is.getD i .top).Recedes (u i)) ∧
        ∀ j, v j = Vec.eval (columns.map (·.getD j 0)) u := by
  induction Is generalizing columns v with
  | nil => simp [List.length_eq_zero_iff.mp same, leads_nil]
  | cons I Is ih =>
    cases columns with
    | nil => simp at same
    | cons column columns =>
      have others (v : ℕ → K) := @ih columns (by simpa using same) v
      simp only [List.zipWith_cons_cons, List.flatten_cons, leads_append, leads_recession, others]
      constructor
      · -- The way of the head comes first, and those of the tail follow it.
        rintro ⟨w, ⟨u₀, first, value₀⟩, u, rest, value⟩
        refine ⟨fun i => Nat.casesOn i u₀ u, fun i hi => ?_, fun j => ?_⟩
        · cases i with
          | zero => exact first
          | succ i => exact rest i (by simpa using hi)
        · rw [← add_sub_cancel (w j) (v j), value, value₀, List.map_cons, Vec.eval_cons, mul_comm]
          rfl
      · rintro ⟨u, recedes, value⟩
        refine ⟨fun j => u 0 * ((column.getD j 0 : ℚ) : K), ⟨u 0, recedes 0 (by simp), fun _ => rfl⟩,
          fun i => u (i + 1), fun i hi => recedes (i + 1) (by simpa using hi), fun j => ?_⟩
        rw [value, List.map_cons, Vec.eval_cons, mul_comm, add_sub_cancel_left]

/-! ## The generators of a frame -/

theorem mem_choices {xss : List (List ℚ)} {y : Vec} (hy : y ∈ choices xss) :
    y.length = xss.length ∧ ∀ i < xss.length, y.getD i 0 ∈ xss.getD i [] := by
  induction xss generalizing y with
  | nil => simpa [choices] using hy
  | cons xs xss ih =>
    simp only [choices, List.mem_flatMap, List.mem_map] at hy
    obtain ⟨x, hx, y, hy, rfl⟩ := hy
    obtain ⟨length, members⟩ := ih hy
    constructor
    · simp [length]
    · intro i hi
      cases i with
      | zero => exact hx
      | succ i => exact members i (by simpa using hi)

/-- The corners of the box of row values. -/
def cornersOf (f : Frame) : List Vec := choices (f.ranges.map corners)

/-- The corners, and the steps of the unbounded rows, seen through the inverse `w`. -/
def generatorsOf (f : Frame) (w : Mat) (n : ℕ) : List Generator :=
  asVertices ((cornersOf f).map w.mulVec) ++
    (List.zipWith recession f.ranges (w.columns n)).flatten

theorem recession_kind {I : Interval} {column : Vec} {g : Generator} (hg : g ∈ recession I column) :
    g.kind ≠ .vertex ∧ g.kind.isModular = false ∧ g.coords.length = column.length := by
  unfold recession at hg
  split at hg <;> simp_all [Vec.neg, GeneratorKind.isModular]

theorem exists_recession {Is : List Interval} {columns : List Vec} {g : Generator}
    (hg : g ∈ (List.zipWith recession Is columns).flatten) :
    ∃ I, ∃ column ∈ columns, g ∈ recession I column := by
  rw [← List.map_uncurry_zip_eq_zipWith] at hg
  obtain ⟨_, row, hg⟩ := List.mem_flatten.mp hg
  obtain ⟨⟨I, column⟩, mem, rfl⟩ := List.mem_map.mp row
  exact ⟨I, column, (List.of_mem_zip mem).2, hg⟩

section

variable {f : Frame} {w : Mat} {n : ℕ}

theorem verticesOf_generatorsOf :
    verticesOf (generatorsOf f w n) = asVertices ((cornersOf f).map w.mulVec) := by
  rw [verticesOf, generatorsOf, List.filter_append, List.filter_eq_self.mpr, List.filter_eq_nil_iff.mpr,
    List.append_nil]
  · intro g hg
    obtain ⟨I, column, -, hg⟩ := exists_recession hg
    simp [(recession_kind hg).1]
  · simp [asVertices]

theorem directionsOf_generatorsOf :
    directionsOf (generatorsOf f w n) = (List.zipWith recession f.ranges (w.columns n)).flatten := by
  rw [directionsOf, generatorsOf, List.filter_append, List.filter_eq_nil_iff.mpr, List.nil_append,
    List.filter_eq_self.mpr]
  · intro g hg
    obtain ⟨I, column, -, hg⟩ := exists_recession hg
    simp [(recession_kind hg).1]
  · simp [asVertices]

theorem swept_mulVec (shape : w.HasShape n n) {ys : List Vec} (lengths : ∀ y ∈ ys, y.length = n)
    (ws : List K) {j : ℕ} (hj : j < n) :
    swept (asVertices (ys.map w.mulVec)) ws j = w.image (swept (asVertices ys) ws) j := by
  have seen : asVertices (ys.map w.mulVec) = inRows w (asVertices ys) := by simp [asVertices, inRows]
  rw [seen]
  exact swept_inRows shape (by simpa [asVertices] using lengths) ws hj

theorem generatorsOf_kinds (shape : w.HasShape n n) {g : Generator} (hg : g ∈ generatorsOf f w n) :
    g.kind.isModular = false ∧ g.coords.length = n := by
  rw [generatorsOf, List.mem_append] at hg
  cases hg with
  | inl vertex =>
    obtain ⟨v, hv, rfl⟩ := List.mem_map.mp vertex
    obtain ⟨y, -, rfl⟩ := List.mem_map.mp hv
    exact ⟨rfl, by simp [Mat.mulVec, shape.length]⟩
  | inr direction =>
    obtain ⟨I, column, mem, hg⟩ := exists_recession direction
    obtain ⟨i, -, rfl⟩ := List.mem_map.mp mem
    obtain ⟨-, kind, length⟩ := recession_kind hg
    exact ⟨kind, by simp [length, shape.length]⟩

theorem leads_generatorsOf (regular : f.Regular n) (inverse : w.IsInverse f.axes n) {v : ℕ → K} :
    (∃ v', Leads (directionsOf (generatorsOf f w n)) v' ∧ ∀ j < n, v j = v' j) ↔
      ∀ i < n, (f.ranges.getD i .top).Recedes (f.axes.image v i) := by
  have same : (w.columns n).length = f.ranges.length := by simp [Mat.columns, regular.ranges]
  simp only [directionsOf_generatorsOf, leads_recessions same, regular.ranges]
  constructor
  · rintro ⟨v', ⟨u, recedes, value⟩, near⟩ i hi
    have image : ∀ j < n, v j = w.image u j := by
      intro j hj
      rw [near j hj, value, inverse.shape.map_columns hj, Mat.image]
    rw [Mat.image_congr regular.axes.shape image, inverse.image_image' regular.axes.shape u hi]
    exact recedes i hi
  · intro recedes
    refine ⟨_, ⟨f.axes.image v, recedes, fun j => rfl⟩, fun j hj => ?_⟩
    rw [inverse.shape.map_columns hj]
    exact (inverse.image_image regular.axes.shape v hj).symm

theorem Spans.vertices_ne_nil {gens : List Generator} {ws ts : List K} {x : ℕ → K}
    (spans : Spans gens n ws ts x) : verticesOf gens ≠ [] := by
  intro none
  have count := spans.count
  have convex := spans.convex
  rw [none, List.length_nil, List.length_eq_zero_iff] at count
  simp [count] at convex

omit [IsStrictOrderedRing K] in
theorem exists_spans_iff {gens : List Generator} {x : ℕ → K} :
    (∃ ws ts, Spans gens n ws ts x) ↔ ∃ ws, Weights (verticesOf gens).length ws ∧
      ∃ v, Leads (directionsOf gens) v ∧ ∀ j < n, x j - swept (verticesOf gens) ws j = v j := by
  constructor
  · rintro ⟨ws, ts, spans⟩
    refine ⟨ws, ⟨spans.count, spans.nonneg, spans.convex⟩, _, ⟨ts, spans.along, fun _ => rfl⟩, fun j hj => ?_⟩
    rw [spans.point j hj, add_sub_cancel_left]
  · rintro ⟨ws, weights, v, ⟨ts, along, value⟩, point⟩
    refine ⟨ws, ts, weights.count, weights.nonneg, weights.convex, along, fun j hj => ?_⟩
    rw [← value, ← point j hj, add_sub_cancel]

theorem image_sub_swept (regular : f.Regular n) (inverse : w.IsInverse f.axes n) (x : ℕ → K) (ws : List K)
    {i : ℕ} (hi : i < n) :
    f.axes.image (fun j => x j - swept (verticesOf (generatorsOf f w n)) ws j) i =
      f.axes.image x i - swept (asVertices (cornersOf f)) ws i := by
  have lengths : ∀ y ∈ cornersOf f, y.length = n := by
    intro y hy
    rw [(mem_choices hy).1, List.length_map, regular.ranges]
  have shape := regular.axes.shape
  rw [← inverse.image_image' shape (swept (asVertices (cornersOf f)) ws) hi, shape.image_eq_sum hi,
    shape.image_eq_sum hi, shape.image_eq_sum hi, ← Finset.sum_sub_distrib]
  refine Finset.sum_congr rfl fun j hj => ?_
  rw [verticesOf_generatorsOf, swept_mulVec inverse.shape lengths ws (Finset.mem_range.mp hj), mul_sub]

theorem generatorsOf_span_iff (regular : f.Regular n) (filled : f.Filled) (inverse : w.IsInverse f.axes n)
    {x : ℕ → K} : (∃ ws ts, Spans (generatorsOf f w n) n ws ts x) ↔ f.Has x := by
  have count : (verticesOf (generatorsOf f w n)).length = (cornersOf f).length := by
    simp [verticesOf_generatorsOf, asVertices]
  simp only [exists_spans_iff, count, leads_generatorsOf regular inverse, regular.has_iff_lt]
  constructor
  · rintro ⟨ws, weights, recedes⟩ i hi
    have corner : ∀ g ∈ asVertices (cornersOf f),
        (f.ranges.getD i .top).Has ((g.coords.getD i 0 : ℚ) : K) := by
      intro g hg
      obtain ⟨y, hy, rfl⟩ := List.mem_map.mp hg
      have inside : i < f.ranges.length := by rwa [regular.ranges]
      have chosen := (mem_choices hy).2 i (by simpa using inside)
      apply corners_has (Interval.filled_getD filled i)
      simpa [inside] using chosen
    -- The range holds the corners, so their mixture, and the step does not leave it.
    have mixture := swept_has (by simpa [asVertices] using weights.count) weights.nonneg weights.convex corner
    have step := recedes i hi
    rw [image_sub_swept regular inverse x ws hi] at step
    simpa using mixture.add_recedes step
  · intro has
    obtain ⟨ws, weights, recedes⟩ := exists_mixture (regular.ranges.symm ▸ has)
    refine ⟨ws, weights, fun i hi => ?_⟩
    rw [image_sub_swept regular inverse x ws hi]
    exact recedes i (by rwa [regular.ranges])

end

/-! ## The generators of a value -/

/-- The number of ends among which a corner chooses in a row. -/
def endCount (I : Interval) : ℕ := if I.lo.isFinite ∧ I.hi.isFinite ∧ I.lo ≠ I.hi then 2 else 1

theorem length_corners (I : Interval) : (corners I).length = endCount I := by
  obtain ⟨lo, hi⟩ := I
  cases lo with
  | fin a =>
    cases hi with
    | fin b => by_cases same : a = b <;> simp [corners, endCount, same, Bound.isFinite]
    | _ => simp [corners, endCount, Bound.isFinite]
  | _ => cases hi <;> simp [corners, endCount, Bound.isFinite]

/-- The number of choices of an end for each row. -/
def cornerCount (f : Frame) : ℕ := (f.ranges.map endCount).prod

/-- There are more corners than the limit allows. -/
def Exceeds (a : Parallelotope) (limit : ℤ) : Prop := ∃ f, a.frame? = some f ∧ limit < cornerCount f

theorem toGenerators_ends {W : Parallelotope → Prop} {cfg : Settings} {a : Parallelotope} {f : Frame} {n : ℕ}
    (hf : a.frame? = some f) (regular : f.Regular n) :
    Op.Ends W W (fun e => e = .tooManyVertices (cornerCount f) cfg.maxVertices ∧
        cfg.maxVertices < cornerCount f) (a.toGenerators cfg) fun gens =>
      ¬ cfg.maxVertices < cornerCount f ∧ ∃ w, w.IsInverse f.axes n ∧ gens = generatorsOf f w n := by
  have count : ((f.ranges.map corners).map List.length).foldl (· * ·) 1 = cornerCount f := by
    rw [← List.prod_eq_foldl, List.map_map, cornerCount]
    congr 1
    exact List.map_congr_left fun I _ => length_corners I
  simp only [toGenerators, hf]
  apply (Op.invert_meets regular).ends.bind
  rintro _ ⟨w, regular', rfl⟩
  have inverse : w.IsInverse f.axes n := regular'.inverse w rfl
  apply (Op.meets_lift_ok (P := (· = w)) rfl rfl).ends.bind
  intro v same
  simp only [same]
  -- Each row contributes the column of the inverse that moves along it alone.
  have rows : Op.Meets W W False (f.ranges.zipIdx.mapM fun d => do return recession d.1 (← w.column d.2))
      (List.Forall₂ (fun d gens => recession d.1 (w.map (·.getD d.2 0)) = gens) f.ranges.zipIdx) := by
    apply Op.meets_mapM
    intro d hd
    have inside : d.2 < n := regular.ranges ▸ (List.mem_zipIdx' hd).1
    exact (Op.meets_lift_ok (inverse.shape.column_eq inside) rfl).bind fun _ column =>
      Op.meets_pure (by rw [column])
  apply rows.ends.bind
  intro extra each
  have extra_eq : List.zipWith recession f.ranges (w.columns n) = extra := by
    rw [← List.forall₂_map_left_iff, List.forall₂_eq_eq_eq] at each
    rw [← each]
    apply List.ext_getElem (by simp [Mat.columns, regular.ranges])
    intro i hi hi'
    simp [Mat.columns]
  simp only [count, ← extra_eq]
  split
  · rename_i exceeds
    exact (Op.ends_throw (P := fun _ => False) ⟨rfl, exceeds⟩).bind fun _ => False.elim
  · rename_i within
    refine (Op.meets_pure ⟨within, w, inverse, ?_⟩).ends
    simp [generatorsOf, asVertices, cornersOf]

/-- The points are those that the generators span. -/
def Describes (gens : List Generator) (a : Parallelotope) (K : Type*) [Field K] [LinearOrder K] : Prop :=
  ∀ x : ℕ → K, a.Has x ↔ ∃ ws ts, Spans gens a.space.size ws ts x

theorem describes_nil {a : Parallelotope} (hf : a.frame? = none) : Describes [] a K := by
  intro x
  constructor
  · intro has
    exact absurd has (not_has_of_none hf x)
  · rintro ⟨ws, ts, spans⟩
    exact absurd rfl spans.vertices_ne_nil

/-- The generators of a value of invertible axes describe it, if each of its ranges holds a rational number:
its points are the mixtures of the vertices, moved forwards along the rays and either way along the lines.
They are refused, as an invalid argument, exactly if the corners exceed the limit. -/
theorem generators_describe (cfg : Settings) {a : Parallelotope} (ha : a.WellFormed) :
    (¬ a.Exceeds cfg.maxVertices → (a.toGenerators cfg).Yields fun gens =>
      (∀ g ∈ gens, g.coords.length = a.space.size) ∧ (a.Filled → Describes gens a K)) ∧
    ((∃ e report, (a.toGenerators cfg).start = (.error e, report) ∧ e.family = .invalidArgument) ↔
      a.Exceeds cfg.maxVertices) := by
  -- Either the vertices fit and all is described, or they do not and the call is refused.
  have outcome : ((a.toGenerators cfg).Yields fun gens => ¬ a.Exceeds cfg.maxVertices ∧
      (∀ g ∈ gens, g.coords.length = a.space.size) ∧ (a.Filled → Describes gens a K)) ∨
      ∃ e report, (a.toGenerators cfg).start = (.error e, report) ∧
        (e.family = .invalidArgument ∧ a.Exceeds cfg.maxVertices) := by
    cases hf : a.frame? with
    | none =>
      have empty : a.toGenerators cfg = pure [] := by simp [toGenerators, hf]
      refine .inl ⟨[], _, by rw [empty]; rfl, by simp [Exceeds, hf], by simp, fun _ => describes_nil hf⟩
    | some f =>
      have regular := (ha f hf).1
      have exceeds_iff : a.Exceeds cfg.maxVertices ↔ cfg.maxVertices < cornerCount f := by simp [Exceeds, hf]
      rw [exceeds_iff]
      refine ((toGenerators_ends (W := fun _ => True) hf regular).mono ?_ ?_).yields_or_error
      · rintro e ⟨rfl, exceeds⟩
        exact ⟨rfl, exceeds⟩
      · rintro gens ⟨within, w, inverse, rfl⟩
        refine ⟨within, fun g hg => (generatorsOf_kinds inverse.shape hg).2, fun filled x => ?_⟩
        rw [has_iff_of_frame hf, generatorsOf_span_iff regular (filled f hf) inverse]
  cases outcome with
  | inl yields =>
    obtain ⟨gens, report, run, within, described⟩ := yields
    exact ⟨fun _ => ⟨gens, report, run, described⟩, by simp [run, within]⟩
  | inr refused =>
    obtain ⟨e, report, run, family, exceeds⟩ := refused
    exact ⟨fun within => absurd exceeds within, by simp [run, family, exceeds]⟩

/-- A leaning trench: one row has two ends, one has one and one has none. -/
def trenchSample : Parallelotope :=
  ⟨⟨0, 3⟩, some ⟨[[1, 1, 0], [0, 2, 0], [0, 1, -1]], [⟨.fin 0, .fin 2⟩, ⟨.negInf, .fin 1⟩, .top], none⟩⟩

theorem trenchSample_solid : trenchSample.Solid := by
  apply solid_mk ⟨rfl, Frame.regular_of_invert? ⟨rfl, by decide⟩ rfl _, _⟩
  · decide +kernel
  · decide +kernel

theorem trenchSample_not_exceeds : ¬ trenchSample.Exceeds 4096 := by
  rintro ⟨f, hf, many⟩
  obtain rfl := Option.some.inj hf
  exact absurd many (by decide +kernel)

/-- Two vertices describe the trench, with a ray and a line; one is not allowed to. -/
theorem generators_describe_sample :
    trenchSample.Solid ∧ ¬ trenchSample.Exceeds 4096 ∧ trenchSample.Exceeds 1 ∧
    ((trenchSample.toGenerators {}).Yields fun gens => Describes gens trenchSample ℚ) ∧
    ∃ e report, (trenchSample.toGenerators { maxVertices := 1 }).start = (.error e, report) ∧
      e.family = .invalidArgument := by
  have many : trenchSample.Exceeds 1 := ⟨_, rfl, by decide +kernel⟩
  obtain ⟨gens, report, run, -, describes⟩ :=
    (generators_describe (K := ℚ) {} trenchSample_solid.wellFormed).1 trenchSample_not_exceeds
  refine ⟨trenchSample_solid, trenchSample_not_exceeds, many, ⟨gens, report, run, describes ?_⟩, ?_⟩
  · exact fun f hf => (trenchSample_solid f hf).filled
  · exact (generators_describe (K := ℚ) { maxVertices := 1 } trenchSample_solid.wellFormed).2.mpr many

end Parallelotope

end SkewBox
