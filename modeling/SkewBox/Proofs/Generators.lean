import SkewBox.Proofs.Constraints
import SkewBox.Proofs.ExactUnion

/-!
# Points of generators

The value of generators is the box around the vertices, tightened and then opened along the rays and
lines.  An end of a range is given up, or no ray leads beyond it; so the points that the generators
span are kept as long as tightening leaves something to open.

* `Parallelotope.opened`, `addRays_eq`: rays and lines added, as a function of the frame.
* `Parallelotope.Spans`, `spanned_points_kept`: the points that generators span are kept.
-/

namespace SkewBox

variable {K : Type*} [Field K] [LinearOrder K] [IsStrictOrderedRing K] {cfg : Settings} {s : Space}

/-! ## Tightening -/

namespace Frame

theorem tightenAll_eq {rows : List Vec} {Is : List Interval} (same : rows.length = Is.length)
    (nonempty : ∀ d ∈ rows.zip Is, (tighten cfg s d.1 d.2).isBottom = false) :
    tightenAll cfg s rows Is = (List.zipWith (tighten cfg s) rows Is, false) := by
  induction rows generalizing Is with
  | nil =>
    cases Is with
    | nil => rfl
    | cons I Is => simp at same
  | cons row rows ih =>
    cases Is with
    | nil => simp at same
    | cons I Is =>
      obtain ⟨first, rest⟩ := List.forall_mem_cons.mp nonempty
      simp only at first
      simp [tightenAll, first, ih (by simpa using same) rest]

/-- A row that is rounded takes integer values at points of integers, so each end stays where it was
with regard to them, whatever the other end is. -/
theorem tighten_ends (cfg : Settings) (row : Vec) (I : Interval) {x : ℕ → K}
    (admits : s.Admits x) :
    (I.lo.Below (row.eval x) → (tighten cfg s row I).lo.Below (row.eval x)) ∧
      (I.hi.Above (row.eval x) → (tighten cfg s row I).hi.Above (row.eval x)) := by
  unfold tighten
  split
  · rename_i integral
    simp only [Bool.and_eq_true] at integral
    obtain ⟨z, value⟩ := Space.integral_eval integral.2 admits
    rw [value]
    exact ⟨Bound.ceil_below_intCast, Bound.floor_above_intCast⟩
  · exact ⟨id, id⟩

end Frame

/-! ## Boxes -/

namespace Parallelotope

theorem hullAt_has {vertices : List Vec} {v : Vec} (hv : v ∈ vertices) (j : ℕ) :
    (hullAt vertices j).Has ((v.getD j 0 : ℚ) : K) := by
  have mem : Bound.fin (v.getD j 0) ∈ vertices.map fun v => Bound.fin (v.getD j 0) :=
    List.mem_map.mpr ⟨v, hv, rfl⟩
  unfold hullAt
  cases ends : vertices.map fun v => Bound.fin (v.getD j 0) with
  | nil =>
    rw [ends] at mem
    exact absurd mem List.not_mem_nil
  | cons b bs =>
    rw [ends] at mem
    exact ⟨Bound.below_ratCast.mpr ((foldl_min_isLeast bs b).2 mem),
      Bound.above_ratCast.mpr ((foldl_max_isGreatest bs b).2 mem)⟩

omit [LinearOrder K] [IsStrictOrderedRing K] in
@[simp] theorem swept_nil (ts : List K) (j : ℕ) : swept [] ts j = 0 := rfl

omit [LinearOrder K] [IsStrictOrderedRing K] in
@[simp] theorem swept_cons (g : Generator) (gens : List Generator) (t : K) (ts : List K) (j : ℕ) :
    swept (g :: gens) (t :: ts) j = t * ((g.coords.getD j 0 : ℚ) : K) + swept gens ts j := by
  simp [swept]

omit [LinearOrder K] [IsStrictOrderedRing K] in
theorem swept_eq_zero {gens : List Generator} {j : ℕ} (still : ∀ g ∈ gens, g.coords.getD j 0 = 0)
    (ts : List K) : swept gens ts j = 0 := by
  refine List.sum_eq_zero fun v hv => ?_
  obtain ⟨⟨g, t⟩, mem, rfl⟩ := List.mem_map.mp hv
  simp only [still g (List.of_mem_zip mem).1, Rat.cast_zero, mul_zero]

omit [LinearOrder K] [IsStrictOrderedRing K] in
theorem sum_mul_eq_sum_zip {gens : List Generator} {ws : List K} (same : ws.length = gens.length) (q : K) :
    ws.sum * q = ((gens.zip ws).map fun d => d.2 * q).sum := by
  rw [List.sum_map_mul_right]
  congr 2
  exact (List.map_snd_zip same.le).symm

/-- Weights that are not negative move a common bound of the generators with them. -/
theorem mul_sum_le_swept {gens : List Generator} {ws : List K} {j : ℕ} {q : K}
    (same : ws.length = gens.length) (nonneg : ∀ w ∈ ws, 0 ≤ w)
    (bound : ∀ g ∈ gens, q ≤ ((g.coords.getD j 0 : ℚ) : K)) : ws.sum * q ≤ swept gens ws j := by
  rw [sum_mul_eq_sum_zip same]
  refine List.sum_le_sum fun d hd => ?_
  obtain ⟨hg, hw⟩ := List.of_mem_zip hd
  exact mul_le_mul_of_nonneg_left (bound d.1 hg) (nonneg d.2 hw)

theorem swept_le_mul_sum {gens : List Generator} {ws : List K} {j : ℕ} {q : K}
    (same : ws.length = gens.length) (nonneg : ∀ w ∈ ws, 0 ≤ w)
    (bound : ∀ g ∈ gens, ((g.coords.getD j 0 : ℚ) : K) ≤ q) : swept gens ws j ≤ ws.sum * q := by
  rw [sum_mul_eq_sum_zip same]
  refine List.sum_le_sum fun d hd => ?_
  obtain ⟨hg, hw⟩ := List.of_mem_zip hd
  exact mul_le_mul_of_nonneg_left (bound d.1 hg) (nonneg d.2 hw)

theorem swept_has {I : Interval} {gens : List Generator} {ws : List K} {j : ℕ}
    (same : ws.length = gens.length) (nonneg : ∀ w ∈ ws, 0 ≤ w) (convex : ws.sum = 1)
    (members : ∀ g ∈ gens, I.Has ((g.coords.getD j 0 : ℚ) : K)) : I.Has (swept gens ws j) := by
  obtain ⟨g, hg⟩ : ∃ g, g ∈ gens := by
    cases gens with
    | nil => simp [List.length_eq_zero_iff.mp same] at convex
    | cons g gens => exact ⟨g, List.mem_cons_self ..⟩
  obtain ⟨lo, hi⟩ := I
  constructor
  · cases lo with
    | negInf => trivial
    | fin q => simpa [convex] using mul_sum_le_swept (q := (q : K)) same nonneg fun g hg => (members g hg).1
    | posInf => exact (members g hg).1.elim
  · cases hi with
    | negInf => exact (members g hg).2.elim
    | fin q => simpa [convex] using swept_le_mul_sum (q := (q : K)) same nonneg fun g hg => (members g hg).2
    | posInf => trivial

/-! ## Rays and lines -/

/-- The frame with every range opened towards the sides to which a ray or line leads. -/
def opened (f : Frame) (g : Generator) : Frame :=
  { f with ranges := List.zipWith (extend (g.kind = .line)) (Mat.mulVec f.axes g.coords) f.ranges }

theorem addRay_eq {W : Parallelotope → Prop} {mayFail : Prop} (f : Frame) (g : Generator) :
    Op.Meets W W mayFail (addRay f g) (· = opened f g) := by
  unfold addRay
  dsimp only
  split
  · exact Op.inexact_meets.bind fun _ _ => Op.meets_pure rfl
  · exact Op.meets_pure rfl

theorem addRays_eq {a : Parallelotope} {gens : List Generator}
    (checked : ∀ g ∈ gens, checkRay a.space g = .ok ()) :
    Op.Meets (fun _ => True) (fun _ => True) False (a.addRays gens)
      (· = ⟨a.space, a.frame?.map (gens.foldl opened)⟩) := by
  unfold addRays
  refine (Op.meets_forM (R := fun _ => True) fun g hg => Op.meets_lift_ok (checked g hg) trivial).bind
    fun _ _ => ?_
  cases hf : a.frame? with
  | none =>
    apply Op.meets_pure
    rw [Option.map_none, ← hf]
  | some f =>
    refine (Op.meets_foldlM (fun done h => h = done.foldl opened f) rfl ?_).bind ?_
    · rintro done g _ - rfl
      exact (addRay_eq _ g).imp fun h eq => by rw [eq, List.foldl_append]; rfl
    · rintro _ rfl
      exact Op.put_meets trivial rfl

/-- The range of a dimension after it was opened along generators. -/
def openedRange (gens : List Generator) (j : ℕ) (I : Interval) : Interval :=
  gens.foldl (fun I g => extend (g.kind = .line) (g.coords.getD j 0) I) I

/-- Generators in the coordinates that the rows of a matrix give. -/
def inRows (m : Mat) (gens : List Generator) : List Generator :=
  gens.map fun g => ⟨g.kind, m.mulVec g.coords⟩

theorem foldl_opened {f : Frame} (same : f.ranges.length = f.axes.length) (gens : List Generator) :
    gens.foldl opened f = { f with ranges := f.ranges.mapIdx (openedRange (inRows f.axes gens)) } := by
  induction gens generalizing f with
  | nil =>
    have still : f.ranges.mapIdx (openedRange []) = f.ranges :=
      List.ext_getElem (by simp) fun i _ _ => by simp [openedRange]
    simp [inRows, still]
  | cons g gens ih =>
    have steps : (Mat.mulVec f.axes g.coords).length = f.axes.length := by simp [Mat.mulVec]
    have next : (opened f g).ranges.length = (opened f g).axes.length := by simp [opened, steps, same]
    rw [List.foldl_cons, ih next]
    -- The axes stay, so the later generators are seen as before.
    simp only [opened, Frame.mk.injEq, true_and, and_true]
    apply List.ext_getElem
    · simp [steps, same]
    · intro i hi hi'
      have inside : i < f.axes.length := by simpa [same] using hi'
      simp [inRows, openedRange, steps, inside]

theorem inRows_identity {n : ℕ} {gens : List Generator} (sizes : ∀ g ∈ gens, g.coords.length = n) :
    inRows (.identity n) gens = gens := by
  have each : ∀ g ∈ gens, (⟨g.kind, Mat.mulVec (.identity n) g.coords⟩ : Generator) = g := by
    intro g hg
    have steps : (Mat.mulVec (.identity n) g.coords).length = n := by simp [Mat.mulVec, Mat.identity]
    have same : Mat.mulVec (.identity n) g.coords = g.coords := by
      apply List.ext_getElem (steps.trans (sizes g hg).symm)
      intro j hj hj'
      have inside : j < n := steps ▸ hj
      have entry := (Mat.hasShape_identity n).getD_mulVec (K := ℚ) inside (sizes g hg)
      simpa [Mat.image_identity inside, hj, hj'] using entry
    rw [same]
  rw [inRows, List.map_congr_left each, List.map_id']

theorem box_opened {n : ℕ} {Is : List Interval} {gens : List Generator} (length : Is.length = n)
    (sizes : ∀ g ∈ gens, g.coords.length = n) :
    ∃ Js, gens.foldl opened ⟨.identity n, Is, none⟩ = ⟨.identity n, Js, none⟩ ∧ Js.length = n ∧
      ∀ j < n, Js.getD j .top = openedRange gens j (Is.getD j .top) := by
  have regular : Frame.Regular ⟨.identity n, Is, none⟩ n :=
    Frame.regular_mk (Mat.regular_identity n) length
  rw [foldl_opened regular.same, inRows_identity sizes]
  refine ⟨_, rfl, by simpa using length, fun j hj => ?_⟩
  have inside : j < Is.length := length ▸ hj
  simp [inside]

theorem swept_inRows {m : Mat} {n : ℕ} (shape : m.HasShape n n) {gens : List Generator}
    (sizes : ∀ g ∈ gens, g.coords.length = n) (ts : List K) {i : ℕ} (hi : i < n) :
    swept (inRows m gens) ts i = m.image (swept gens ts) i := by
  induction gens generalizing ts with
  | nil => simp [inRows, shape.image_eq_sum hi]
  | cons g gens ih =>
    obtain ⟨size, sizes⟩ := List.forall_mem_cons.mp sizes
    cases ts with
    | nil => simp [swept, shape.image_eq_sum hi]
    | cons t ts =>
      have rest := ih sizes ts
      simp only [inRows, List.map_cons, swept_cons, shape.image_eq_sum hi] at rest ⊢
      rw [rest, shape.getD_mulVec hi size, shape.image_eq_sum hi]
      simp only [mul_add, Finset.sum_add_distrib, Finset.mul_sum]
      congr 1
      exact Finset.sum_congr rfl fun j _ => by ring

theorem extend_lo (line : Bool) (v : ℚ) (I : Interval) :
    (extend line v I).lo = .negInf ∨
      (extend line v I).lo = I.lo ∧ ∀ t : K, (line = false → 0 ≤ t) → 0 ≤ t * v := by
  by_cases still : v = 0
  · exact .inr ⟨by simp [extend, still], fun t _ => by simp [still]⟩
  cases line with
  | true => exact .inl (by simp [extend, still])
  | false =>
    cases lt_or_gt_of_ne still with
    | inl down => exact .inl (by simp [extend, still, down])
    | inr up =>
      refine .inr ⟨by simp [extend, still, not_lt.mpr up.le], fun t along => ?_⟩
      exact mul_nonneg (along rfl) (by exact_mod_cast up.le)

theorem extend_hi (line : Bool) (v : ℚ) (I : Interval) :
    (extend line v I).hi = .posInf ∨
      (extend line v I).hi = I.hi ∧ ∀ t : K, (line = false → 0 ≤ t) → t * v ≤ 0 := by
  by_cases still : v = 0
  · exact .inr ⟨by simp [extend, still], fun t _ => by simp [still]⟩
  cases line with
  | true => exact .inl (by simp [extend, still])
  | false =>
    cases lt_or_gt_of_ne still with
    | inl down =>
      refine .inr ⟨by simp [extend, still, not_lt.mpr down.le], fun t along => ?_⟩
      exact mul_nonpos_of_nonneg_of_nonpos (along rfl) (by exact_mod_cast down.le)
    | inr up => exact .inl (by simp [extend, still, up])

omit [IsStrictOrderedRing K] in
theorem Along.nonneg {g : Generator} {t : K} (along : Along g t)
    (ray : decide (g.kind = .line) = false) : 0 ≤ t := along (of_decide_eq_false ray)

theorem opened_lo (gens : List Generator) (j : ℕ) (I : Interval) :
    (openedRange gens j I).lo = .negInf ∨ (openedRange gens j I).lo = I.lo ∧
      ∀ ts : List K, List.Forall₂ Along gens ts → 0 ≤ swept gens ts j := by
  induction gens generalizing I with
  | nil => exact .inr ⟨rfl, fun _ _ => le_rfl⟩
  | cons g gens ih =>
    rcases ih (extend (g.kind = .line) (g.coords.getD j 0) I) with free | ⟨same, upwards⟩
    · exact .inl free
    · rcases extend_lo (K := K) (g.kind = .line) (g.coords.getD j 0) I with free | ⟨kept, first⟩
      · exact .inl (same.trans free)
      · refine .inr ⟨same.trans kept, fun ts along => ?_⟩
        cases along with
        | cons along rest =>
          rw [swept_cons]
          exact add_nonneg (first _ along.nonneg) (upwards _ rest)

theorem opened_hi (gens : List Generator) (j : ℕ) (I : Interval) :
    (openedRange gens j I).hi = .posInf ∨ (openedRange gens j I).hi = I.hi ∧
      ∀ ts : List K, List.Forall₂ Along gens ts → swept gens ts j ≤ 0 := by
  induction gens generalizing I with
  | nil => exact .inr ⟨rfl, fun _ _ => le_rfl⟩
  | cons g gens ih =>
    rcases ih (extend (g.kind = .line) (g.coords.getD j 0) I) with free | ⟨same, downwards⟩
    · exact .inl free
    · rcases extend_hi (K := K) (g.kind = .line) (g.coords.getD j 0) I with free | ⟨kept, first⟩
      · exact .inl (same.trans free)
      · refine .inr ⟨same.trans kept, fun ts along => ?_⟩
        cases along with
        | cons along rest =>
          rw [swept_cons]
          exact add_nonpos (first _ along.nonneg) (downwards _ rest)

/-! ## The value of generators -/

theorem ofIntervals_eq {box : List Interval} (length : box.length = s.size)
    (nonempty : ∀ j < s.size,
      (Frame.tighten cfg s (Vec.unit s.size j) (box.getD j .top)).isBottom = false) :
    ofIntervals cfg s box =
      ⟨s, some ⟨.identity s.size, List.zipWith (Frame.tighten cfg s) (Mat.identity s.size) box, none⟩⟩ := by
  have rows : ∀ d ∈ (Mat.identity s.size).zip box, (Frame.tighten cfg s d.1 d.2).isBottom = false := by
    intro d hd
    obtain ⟨j, hj, rfl⟩ := List.mem_iff_getElem.mp hd
    have small : j < s.size := by simpa [Mat.identity, length] using hj
    simpa [Mat.identity, small, length] using nonempty j small
  have proper : box.any (·.isBottom) = false := by
    rw [List.any_eq_false]
    intro I hI bottom
    obtain ⟨j, hj, rfl⟩ := List.mem_iff_getElem.mp hI
    have row := nonempty j (length ▸ hj)
    rw [List.getD_eq_getElem _ _ hj] at row
    simp [Frame.tighten, bottom] at row
  have tightened := Frame.tightenAll_eq (by simp [Mat.identity, length]) rows
  simp [ofIntervals, proper, normalize, Frame.normalize, tightened, Cut.toParallelotope]

/-- The vertices among generators. -/
def verticesOf (gens : List Generator) : List Generator := gens.filter fun g => g.kind = .vertex

/-- The rays and lines among generators. -/
def directionsOf (gens : List Generator) : List Generator := gens.filter fun g => g.kind ≠ .vertex

/-- The box around the vertices among generators. -/
def boxOf (s : Space) (gens : List Generator) : List Interval :=
  (List.range s.size).map (hullAt ((verticesOf gens).map (·.coords)))

theorem length_boxOf (s : Space) (gens : List Generator) : (boxOf s gens).length = s.size := by
  simp [boxOf]

theorem getD_boxOf (gens : List Generator) {j : ℕ} (hj : j < s.size) :
    (boxOf s gens).getD j .top = hullAt ((verticesOf gens).map (·.coords)) j := by
  simp [boxOf, hj]

theorem boxOf_has {gens : List Generator} {j : ℕ} (hj : j < s.size) {g : Generator}
    (hg : g ∈ verticesOf gens) : ((boxOf s gens).getD j .top).Has ((g.coords.getD j 0 : ℚ) : K) := by
  rw [getD_boxOf gens hj]
  exact hullAt_has (List.mem_map.mpr ⟨g, hg, rfl⟩) j

/-- The point is a mixture of the vertices, moved forwards along the rays and either way along the
lines. -/
structure Spans (gens : List Generator) (n : ℕ) (ws ts : List K) (x : ℕ → K) : Prop where
  count : ws.length = (verticesOf gens).length
  nonneg : ∀ w ∈ ws, 0 ≤ w
  convex : ws.sum = 1
  along : List.Forall₂ Along (directionsOf gens) ts
  point : ∀ j < n, x j = swept (verticesOf gens) ws j + swept (directionsOf gens) ts j

/-- In every integer dimension along which a ray or line leads, some integer lies between the
vertices. -/
def Anchored (s : Space) (gens : List Generator) : Prop :=
  ∀ j < s.ints, (∃ g ∈ directionsOf gens, g.coords.getD j 0 ≠ 0) →
    ∃ z : ℤ, ∃ u ∈ verticesOf gens, ∃ v ∈ verticesOf gens,
      u.coords.getD j 0 ≤ z ∧ (z : ℚ) ≤ v.coords.getD j 0

theorem Spans.mixture {gens : List Generator} {n : ℕ} {ws ts : List K} {x : ℕ → K}
    (spans : Spans gens n ws ts x) {j : ℕ} (hj : j < s.size) :
    ((boxOf s gens).getD j .top).Has (swept (verticesOf gens) ws j) :=
  swept_has spans.count spans.nonneg spans.convex fun _ hg => boxOf_has hj hg

theorem ofGenerators_eq (cfg : Settings) {gens : List Generator}
    (kinds : ∀ g ∈ gens, g.kind.isModular = false) (sizes : ∀ g ∈ gens, g.coords.length = s.size)
    (vertex : ∃ g ∈ gens, g.kind = .vertex) :
    Op.Meets (fun _ => True) (fun _ => True) False (ofGenerators cfg s gens)
      (· = ⟨s, (ofIntervals cfg s (boxOf s gens)).frame?.map ((directionsOf gens).foldl opened)⟩) := by
  have fits : (gens.find? fun g => g.coords.length ≠ s.size) = none := by
    rw [List.find?_eq_none]
    intro g hg
    simp [sizes g hg]
  have some : ((verticesOf gens).map (·.coords)).isEmpty = false := by
    obtain ⟨g, hg, kind⟩ := vertex
    cases none : verticesOf gens with
    | nil =>
      have mem : g ∈ verticesOf gens := List.mem_filter.mpr ⟨hg, by simp [kind]⟩
      rw [none] at mem
      exact absurd mem List.not_mem_nil
    | cons => rfl
  have space : (ofIntervals cfg s (boxOf s gens)).space = s := by
    unfold ofIntervals
    split <;> rfl
  have checked : ∀ g ∈ directionsOf gens,
      checkRay (ofIntervals cfg s (boxOf s gens)).space g = .ok () := by
    intro g hg
    obtain ⟨mem, kind⟩ := List.mem_filter.mp hg
    have kind : g.kind ≠ .vertex := by simpa using kind
    rw [space]
    simp [checkRay, kind, kinds g mem, sizes g mem]
  -- All checks pass, so adding the rays is opening the box along them.
  have rays := addRays_eq checked
  rw [space] at rays
  unfold ofGenerators
  simp only [fits]
  split
  · rename_i empty
    exact absurd (some.symm.trans empty) Bool.false_ne_true
  · split
    · exact Op.inexact_meets.bind fun _ _ => rays
    · exact rays

/-- A range of the box stays nonempty when it is tightened: a point of integers is spanned, and where a
ray or line leads some integer lies between the vertices. -/
theorem tighten_boxOf_isBottom {gens : List Generator} {ws ts : List K} {x : ℕ → K}
    (spans : Spans gens s.size ws ts x) (admits : s.Admits x)
    (anchored : cfg.tightenIntegers → Anchored s gens) {j : ℕ} (hj : j < s.size) :
    (Frame.tighten cfg s (Vec.unit s.size j) ((boxOf s gens).getD j .top)).isBottom = false := by
  have mixture := spans.mixture hj
  by_cases off : cfg.tightenIntegers = false
  · simpa [Frame.tighten, off] using mixture.isBottom
  -- It is enough that some point of integers has its coordinate in the box.
  obtain ⟨y, admits', has⟩ : ∃ y : ℕ → K, s.Admits y ∧ ((boxOf s gens).getD j .top).Has (y j) := by
    by_cases moved : ∃ g ∈ directionsOf gens, g.coords.getD j 0 ≠ 0
    · by_cases integer : j < s.ints
      · obtain ⟨z, u, hu, v, hv, low, high⟩ := anchored (by simpa using off) j integer moved
        have low : ((u.coords.getD j 0 : ℚ) : K) ≤ z := by exact_mod_cast (Rat.cast_le (K := K)).mpr low
        have high : z ≤ ((v.coords.getD j 0 : ℚ) : K) := by exact_mod_cast (Rat.cast_le (K := K)).mpr high
        exact ⟨fun _ => z, fun _ _ => ⟨z, rfl⟩, (boxOf_has hj hu).1.trans_le low,
          (boxOf_has hj hv).2.trans_ge high⟩
      · refine ⟨Function.update (fun _ => 0) j (swept (verticesOf gens) ws j), fun d hd => ⟨0, ?_⟩, ?_⟩
        · rw [Function.update_of_ne (by omega), Int.cast_zero]
        · rwa [Function.update_self]
    · push Not at moved
      refine ⟨x, admits, ?_⟩
      rwa [spans.point j hj, swept_eq_zero moved, add_zero]
  rw [← Vec.eval_unit (x := y) hj] at has
  exact (Frame.tighten_has cfg admits' has).isBottom

/-- A tightened and opened range still holds what is spanned: each end is infinite, or it holds the
mixture of the vertices and nothing leads beyond it. -/
theorem openedRange_has {gens : List Generator} {ws ts : List K} {x : ℕ → K}
    (spans : Spans gens s.size ws ts x) (admits : s.Admits x) {j : ℕ} (hj : j < s.size) :
    (openedRange (directionsOf gens) j
      (Frame.tighten cfg s (Vec.unit s.size j) ((boxOf s gens).getD j .top))).Has (x j) := by
  have mixture := spans.mixture hj
  have value := spans.point j hj
  have ends := Frame.tighten_ends cfg (Vec.unit s.size j) ((boxOf s gens).getD j .top) admits
  rw [Vec.eval_unit hj] at ends
  constructor
  · rcases opened_lo (K := K) (directionsOf gens) j _ with free | ⟨same, upwards⟩
    · rw [free]
      trivial
    · rw [same]
      have forwards := upwards ts spans.along
      exact ends.1 (mixture.1.trans_le (by linarith))
  · rcases opened_hi (K := K) (directionsOf gens) j _ with free | ⟨same, downwards⟩
    · rw [free]
      trivial
    · rw [same]
      have backwards := downwards ts spans.along
      exact ends.2 (mixture.2.trans_ge (by linarith))

/-- Vertices, rays and lines of a space, at least one of them a vertex, always have a value, and that has
every point of integers that they span, whatever the precision; if ranges are tightened to integers,
some integer has to lie between the vertices in each integer dimension along which a ray or line
leads. -/
theorem spanned_points_kept (cfg : Settings) {s : Space} {gens : List Generator}
    (kinds : ∀ g ∈ gens, g.kind.isModular = false) (sizes : ∀ g ∈ gens, g.coords.length = s.size)
    (vertex : ∃ g ∈ gens, g.kind = .vertex) (anchored : cfg.tightenIntegers → Anchored s gens) :
    (ofGenerators cfg s gens).Yields fun b => b.space = s ∧
      ∀ (x : ℕ → K) (ws ts : List K), s.Admits x → Spans gens s.size ws ts x → b.Has x := by
  refine ((ofGenerators_eq cfg kinds sizes vertex).imp ?_).yields
  rintro _ rfl
  refine ⟨rfl, fun x ws ts admits spans => ?_⟩
  -- An integer lies in every range that is opened later, so tightening does not empty the box.
  rw [ofIntervals_eq (length_boxOf s gens) fun j => tighten_boxOf_isBottom spans admits anchored]
  have directions : ∀ g ∈ directionsOf gens, g.coords.length = s.size := fun g hg =>
    sizes g (List.mem_of_mem_filter hg)
  have length : (List.zipWith (Frame.tighten cfg s) (Mat.identity s.size) (boxOf s gens)).length =
      s.size := by simp [Mat.identity, length_boxOf]
  obtain ⟨Js, run, length', ranges⟩ := box_opened length directions
  rw [Option.map_some, run, has_mk,
    (Frame.regular_mk (Mat.regular_identity s.size) length').has_iff_lt]
  intro j hj
  have range : (List.zipWith (Frame.tighten cfg s) (Mat.identity s.size) (boxOf s gens)).getD j .top =
      Frame.tighten cfg s (Vec.unit s.size j) ((boxOf s gens).getD j .top) := by
    simp [Mat.identity, hj, length_boxOf]
  rw [ranges j hj, range, Mat.image_identity hj]
  exact openedRange_has spans admits hj

/-- Two vertices, a ray and a line, with fractions in the integer dimension. -/
def wedgeSample : List Generator :=
  [⟨.vertex, [1 / 2, 0]⟩, ⟨.vertex, [3 / 2, 1]⟩, ⟨.ray, [1, 1]⟩, ⟨.line, [0, 1]⟩]

/-- The middle of the two vertices, moved along the ray and down the line. -/
def wedgePoint (j : ℕ) : ℚ := if j = 0 then 2 else -1

theorem spanned_points_kept_sample :
    Anchored ⟨1, 1⟩ wedgeSample ∧ Spans wedgeSample 2 [1 / 2, 1 / 2] [1, -5 / 2] wedgePoint ∧
    (ofGenerators {} ⟨1, 1⟩ wedgeSample).Yields fun b => b.space = ⟨1, 1⟩ ∧ b.Has wedgePoint := by
  have anchored : Anchored ⟨1, 1⟩ wedgeSample := by
    intro j hj _
    obtain rfl : j = 0 := Nat.lt_one_iff.mp hj
    exact ⟨1, ⟨.vertex, [1 / 2, 0]⟩, by decide +kernel, ⟨.vertex, [3 / 2, 1]⟩, by decide +kernel,
      by decide +kernel, by decide +kernel⟩
  have spans : Spans wedgeSample 2 [1 / 2, 1 / 2] [1, -5 / 2] wedgePoint := by
    refine ⟨by decide, by decide +kernel, by decide +kernel, ?_, by decide +kernel⟩
    exact .cons (fun _ => zero_le_one) (.cons (fun ray => absurd rfl ray) .nil)
  have sizes : ∀ g ∈ wedgeSample, g.coords.length = (⟨1, 1⟩ : Space).size := by decide
  obtain ⟨b, report, run, space, has⟩ :=
    spanned_points_kept (K := ℚ) {} (by decide) sizes (by decide) fun _ => anchored
  refine ⟨anchored, spans, b, report, run, space, has wedgePoint _ _ (fun j hj => ⟨2, ?_⟩) spans⟩
  obtain rfl : j = 0 := Nat.lt_one_iff.mp hj
  rfl

/-- No integer lies at the vertex, so that tightening leaves an empty box; the line through the vertex
has integer points all the same. -/
theorem fractional_vertex_loses_line :
    Space.Admits ⟨1, 0⟩ (fun _ => (1 : ℚ)) ∧
    Spans [⟨.vertex, [1 / 2]⟩, ⟨.line, [1]⟩] 1 [1] [1 / 2] (fun _ => (1 : ℚ)) ∧
    (ofGenerators {} ⟨1, 0⟩ [⟨.vertex, [1 / 2]⟩, ⟨.line, [1]⟩]).Yields fun b => ¬ b.Has fun _ => (1 : ℚ) := by
  refine ⟨fun _ _ => ⟨1, rfl⟩, ⟨by decide, by decide, by decide +kernel, ?_, by decide +kernel⟩, ?_⟩
  · exact .cons (fun ray => absurd rfl ray) .nil
  · exact ⟨⟨⟨1, 0⟩, none⟩, _, Prod.ext (by decide +kernel) rfl, nofun⟩

end Parallelotope

end SkewBox
