import SkewBox.Parallelotope
import SkewBox.Proofs.Echelon
import SkewBox.Proofs.Enclosure

/-!
# Points of a value

A value stands for the points at which every row of its frame lies in its range.  Points assign a
number of an ordered field to every dimension: rational points are the case of the field `ℚ`.

* `Frame.Has`, `Cut.Has`, `Parallelotope.Has`: the points of a frame, a cut frame and a value.
* `Space.Admits`: points whose integer dimensions are integers.
* `Frame.Regular`, `Frame.Ordered`, `Parallelotope.WellFormed`: what every stored value satisfies.
* `Frame.normalize_has`, `Frame.has_of_normalize_has`, `Parallelotope.has_normalize_iff`: tightening
  keeps the points of integers and adds none.
-/

namespace SkewBox

/-! ## Dimensions that a caller names -/

theorem Datum.map_int_injective {ds es : List ℕ}
    (h : ds.map (fun d : ℕ => Datum.int d) = es.map fun d : ℕ => Datum.int d) : ds = es :=
  Function.Injective.list_map (fun _ _ same => by simpa using same) h

theorem Space.check_eq_ok {s : Space} {datum : Datum} {d : ℕ} :
    s.check datum = .ok d ↔ datum = .int d ∧ d < s.size := by
  constructor
  · intro h
    unfold check at h
    split at h
    · split at h
      · rename_i i inside
        obtain rfl := Except.ok.inj h
        exact ⟨by rw [Int.toNat_of_nonneg inside.1], by omega⟩
      · contradiction
    · contradiction
  · rintro ⟨rfl, inside⟩
    simp [check, inside]

theorem Space.checkDistinct_eq_ok {s : Space} {data : List Datum} {ds : List ℕ} :
    s.checkDistinct data = .ok ds ↔
      data = ds.map (fun d => .int d) ∧ ds.Nodup ∧ ∀ d ∈ ds, d < s.size := by
  -- First the dimensions one by one, then the test that they are different.
  have checked : data.mapM s.check = .ok ds ↔
      data = ds.map (fun d => .int d) ∧ ∀ d ∈ ds, d < s.size := by
    rw [mapM_eq_ok]
    simp only [check_eq_ok]
    constructor
    · intro each
      induction each with
      | nil => simp
      | cons first _ ih =>
        obtain ⟨rfl, inside⟩ := first
        obtain ⟨rfl, rest⟩ := ih
        exact ⟨rfl, List.forall_mem_cons.mpr ⟨inside, rest⟩⟩
    · rintro ⟨rfl, inside⟩
      refine List.forall₂_map_left_iff.mpr (List.forall₂_same.mpr fun d hd => ?_)
      exact ⟨rfl, inside d hd⟩
  unfold checkDistinct
  rw [bind_eq_ok]
  constructor
  · rintro ⟨ds', run, rest⟩
    split at rest
    · rename_i distinct
      obtain rfl := Except.ok.inj rest
      exact ⟨(checked.mp run).1, distinct, (checked.mp run).2⟩
    · contradiction
  · rintro ⟨same, distinct, inside⟩
    exact ⟨ds, checked.mpr ⟨same, inside⟩, if_pos distinct⟩

theorem Space.checkDistinct_single {s : Space} {d : ℕ} (inside : d < s.size) :
    s.checkDistinct [.int d] = .ok [d] :=
  checkDistinct_eq_ok.mpr ⟨rfl, List.nodup_singleton d, by simpa using inside⟩

/-! ## Well-formed frames -/

namespace Frame

/-- There are `n` axes that form an invertible matrix, as many ranges, and the inverse, if it is
known, is the inverse of the axes. -/
structure Regular (f : Frame) (n : ℕ) : Prop where
  axes : f.axes.Regular n
  ranges : f.ranges.length = n
  inverse : ∀ w, f.inverse? = some w → w.IsInverse f.axes n

theorem regular_mk {axes : Mat} {ranges : List Interval} {n : ℕ} (regular : axes.Regular n)
    (length : ranges.length = n) : Regular ⟨axes, ranges, none⟩ n := ⟨regular, length, by simp⟩

/-- No range has its ends in the wrong order. -/
def Ordered (f : Frame) : Prop := ∀ I ∈ f.ranges, I.lo ≤ I.hi

instance (f : Frame) : Decidable f.Ordered :=
  inferInstanceAs (Decidable (∀ I ∈ f.ranges, I.lo ≤ I.hi))

end Frame

namespace Parallelotope

/-- The frame of the value, if it has one, is regular and fits the space; its ranges are in order
if `ordered` asks for it. -/
def Shaped (ordered : Prop) (a : Parallelotope) : Prop :=
  ∀ f, a.frame? = some f → f.Regular a.space.size ∧ (ordered → f.Ordered)

theorem Shaped.weaken {ordered : Prop} {a : Parallelotope} (shaped : a.Shaped ordered) :
    a.Shaped False := fun f hf => ⟨(shaped f hf).1, False.elim⟩

theorem Shaped.of_true {ordered : Prop} {a : Parallelotope} (shaped : a.Shaped True) :
    a.Shaped ordered := fun f hf => ⟨(shaped f hf).1, fun _ => (shaped f hf).2 trivial⟩

theorem checkSpace_eq_ok {a b : Parallelotope} {u : Unit} (h : a.checkSpace b = .ok u) :
    a.space = b.space := by
  unfold checkSpace at h
  split at h
  · assumption
  · contradiction

theorem shaped_mk {ordered : Prop} {s : Space} {f : Frame} (regular : f.Regular s.size)
    (hf : ordered → f.Ordered) : Shaped ordered ⟨s, some f⟩ := by
  intro g hg
  obtain rfl := Option.some.inj hg
  exact ⟨regular, hf⟩

theorem shaped_of_none {ordered : Prop} {a : Parallelotope} (hf : a.frame? = none) :
    a.Shaped ordered := fun f hf' => by simp [hf] at hf'

theorem shaped_bottom {ordered : Prop} (s : Space) : (bottom s).Shaped ordered := shaped_of_none rfl

/-- The value is empty, or has a regular frame with ranges in order. -/
abbrev WellFormed (a : Parallelotope) : Prop := a.Shaped True

end Parallelotope

/-- The computation keeps its operand in shape, whatever new contents it gives it. -/
abbrev Op.Keeps {α : Type} (ordered mayFail : Prop) (x : Op α) (P : α → Prop) : Prop :=
  Op.Meets (·.Shaped ordered) (·.Shaped ordered) mayFail x P

/-- The frame of a cut is regular and fits the space, and its ranges are in order if `ordered`
asks for it, unless the cut is empty. -/
def Cut.Shaped (ordered : Prop) (n : ℕ) (c : Cut) : Prop :=
  c.empty = false → c.frame.Regular n ∧ (ordered → c.frame.Ordered)

theorem Cut.eq_of_toParallelotope {s : Space} {c : Cut} {f : Frame}
    (hf : (c.toParallelotope s).frame? = some f) : c.empty = false ∧ c.frame = f := by
  cases empty : c.empty with
  | true => simp [Cut.toParallelotope, empty] at hf
  | false => exact ⟨rfl, by simpa [Cut.toParallelotope, empty] using hf⟩

theorem Cut.Shaped.toParallelotope {ordered : Prop} {s : Space} {c : Cut}
    (shaped : c.Shaped ordered s.size) : (c.toParallelotope s).Shaped ordered := by
  intro f hf
  obtain ⟨nonempty, rfl⟩ := Cut.eq_of_toParallelotope hf
  exact shaped nonempty

/-! ## Points -/

section Points

variable {K : Type*} [Field K] [LinearOrder K]

/-- Every row takes a value in its range at `x`. -/
def Frame.Has (f : Frame) (x : ℕ → K) : Prop := ∀ d ∈ f.rows, d.2.Has (d.1.eval x)

/-- The cut is not empty and its frame has the point. -/
def Cut.Has (c : Cut) (x : ℕ → K) : Prop := c.empty = false ∧ c.frame.Has x

/-- The value has a frame, and that has the point. -/
def Parallelotope.Has (a : Parallelotope) (x : ℕ → K) : Prop := ∃ f, a.frame? = some f ∧ f.Has x

/-- The integer dimensions of the point are integers. -/
def Space.Admits (s : Space) (x : ℕ → K) : Prop := ∀ d < s.ints, ∃ z : ℤ, x d = z

omit [LinearOrder K] in
theorem Space.admits_of_real {s : Space} (real : s.ints = 0) (x : ℕ → K) : s.Admits x :=
  fun d hd => absurd hd (by omega)

theorem Cut.toParallelotope_has {s : Space} {c : Cut} {x : ℕ → K} :
    (c.toParallelotope s).Has x ↔ c.Has x := by
  obtain ⟨f, _ | _⟩ := c <;> simp [Cut.toParallelotope, Parallelotope.Has, Cut.Has]

theorem Parallelotope.has_mk {s : Space} {f : Frame} {x : ℕ → K} :
    Parallelotope.Has ⟨s, some f⟩ x ↔ f.Has x := by
  simp [Parallelotope.Has]

theorem Parallelotope.has_iff_of_frame {a : Parallelotope} {f : Frame} (hf : a.frame? = some f)
    {x : ℕ → K} : a.Has x ↔ f.Has x := by
  simp [Parallelotope.Has, hf]

theorem Parallelotope.not_has_of_none {a : Parallelotope} (hf : a.frame? = none) (x : ℕ → K) :
    ¬ a.Has x := by
  simp [Parallelotope.Has, hf]

theorem Parallelotope.not_isBottom_of_has {a : Parallelotope} {x : ℕ → K} (has : a.Has x) :
    a.isBottom = false := by
  obtain ⟨f, hf, -⟩ := has
  simp [Parallelotope.isBottom, hf]

theorem Frame.has_iff {f : Frame} (same : f.ranges.length = f.axes.length) {x : ℕ → K} :
    f.Has x ↔ ∀ i, (f.ranges.getD i .top).Has (f.axes.image x i) := by
  have length : f.rows.length = f.axes.length := by simp [Frame.rows, same]
  constructor
  · intro has i
    by_cases inside : i < f.axes.length
    · have inside' : i < f.ranges.length := same ▸ inside
      have row := has f.rows[i] (List.getElem_mem (length ▸ inside))
      rw [List.getD_eq_getElem _ _ inside', Mat.image_of_lt inside]
      simpa [Frame.rows] using row
    · -- Beyond the last row there is no condition.
      rw [List.getD_eq_default _ _ (by omega)]
      exact Interval.top_has
  · intro has d hd
    obtain ⟨i, hi, rfl⟩ := List.mem_iff_getElem.mp hd
    have inside : i < f.axes.length := length ▸ hi
    have inside' : i < f.ranges.length := same ▸ inside
    have row := has i
    rw [List.getD_eq_getElem _ _ inside', Mat.image_of_lt inside] at row
    simpa [Frame.rows] using row

theorem Frame.Regular.same {f : Frame} {n : ℕ} (regular : f.Regular n) :
    f.ranges.length = f.axes.length := regular.ranges.trans regular.axes.shape.length.symm

theorem Frame.Regular.has_iff_lt {f : Frame} {n : ℕ} (regular : f.Regular n) {x : ℕ → K} :
    f.Has x ↔ ∀ i < n, (f.ranges.getD i .top).Has (f.axes.image x i) := by
  rw [Frame.has_iff regular.same]
  refine ⟨fun has i _ => has i, fun has i => ?_⟩
  by_cases hi : i < n
  · exact has i hi
  · rw [List.getD_eq_default _ _ (by rw [regular.ranges]; omega)]
    exact Interval.top_has

theorem Frame.Regular.has_congr {f : Frame} {n : ℕ} (regular : f.Regular n) {x y : ℕ → K}
    (agrees : ∀ j < n, x j = y j) (has : f.Has x) : f.Has y := by
  rw [Frame.has_iff regular.same] at has ⊢
  intro i
  rw [← Mat.image_congr regular.axes.shape agrees]
  exact has i

theorem Frame.Regular.has_congr_iff {f : Frame} {n : ℕ} (regular : f.Regular n) {x y : ℕ → K}
    (agrees : ∀ j < n, x j = y j) : f.Has x ↔ f.Has y :=
  ⟨regular.has_congr agrees, regular.has_congr fun j hj => (agrees j hj).symm⟩

end Points

/-! ## Row coordinates -/

namespace Frame

variable {f : Frame} {n : ℕ}

theorem Regular.exists_solve (regular : f.Regular n) :
    ∃ w, f.solve = .ok w ∧ w.IsInverse f.axes n := by
  cases known : f.inverse? with
  | some w => exact ⟨w, by simp [solve, known], regular.inverse w known⟩
  | none =>
    obtain ⟨w, found⟩ := regular.axes.exists_invert?
    exact ⟨w, by simp [solve, known, found], Mat.invert?_isInverse regular.axes.shape found⟩

theorem Regular.solve_eq {w : Option Mat} (regular : f.Regular n)
    (regular' : Regular { f with inverse? := w } n) : solve { f with inverse? := w } = f.solve := by
  obtain ⟨v, solved, inverse⟩ := regular.exists_solve
  obtain ⟨v', solved', inverse'⟩ := regular'.exists_solve
  rw [solved, solved', inverse.unique inverse']

theorem regular_of_invert? {axes : Mat} {ranges : List Interval} (shape : axes.HasShape n n)
    (length : ranges.length = n) (invertible : axes.invert?.isSome) :
    Regular ⟨axes, ranges, none⟩ n := by
  obtain ⟨w, found⟩ := Option.isSome_iff_exists.mp invertible
  exact regular_mk ((Mat.invert?_isInverse shape found).regular shape) length

/-- The coordinates of the direction `r` in the axes of the frame. -/
structure IsCoords (f : Frame) (n : ℕ) (r lam : Vec) : Prop where
  length : lam.length = n
  eq : ∃ w : Mat, w.IsInverse f.axes n ∧ lam = Mat.vecMat r w

theorem Regular.exists_coords (regular : f.Regular n) (r : Vec) :
    ∃ lam, f.coords r = .ok lam ∧ f.IsCoords n r lam := by
  obtain ⟨w, solved, inverse⟩ := regular.exists_solve
  refine ⟨Mat.vecMat r w, ?_, Mat.length_vecMat r inverse.shape, w, inverse, rfl⟩
  rw [coords, solved, ok_bind, Mat.vecMatChecked_eq r inverse.shape]

theorem IsCoords.eval {K : Type*} [Field K] [CharZero K] {r lam : Vec}
    (coords : f.IsCoords n r lam) (shape : f.axes.HasShape n n) (length : r.length = n)
    (x : ℕ → K) : lam.eval (f.axes.image x) = r.eval x := by
  obtain ⟨w, inverse, rfl⟩ := coords.eq
  rw [Mat.eval_vecMat inverse.shape length]
  exact Vec.eval_congr fun i hi => inverse.image_image shape x (length ▸ hi)

theorem Regular.exists_remember (regular : f.Regular n) :
    ∃ w, f.remember = .ok { f with inverse? := some w } ∧ w.IsInverse f.axes n := by
  obtain ⟨w, solved, inverse⟩ := regular.exists_solve
  exact ⟨w, by rw [remember, solved, ok_bind]; rfl, inverse⟩

end Frame

theorem Op.invert_meets {f : Frame} {n : ℕ} (regular : f.Regular n) {W : Parallelotope → Prop}
    {mayFail : Prop} :
    Op.Meets W W mayFail (Op.invert f) fun g =>
      ∃ w, Frame.Regular { f with inverse? := some w } n ∧ g = { f with inverse? := some w } := by
  obtain ⟨w, remembered, inverse⟩ := regular.exists_remember
  unfold Op.invert
  refine (Op.meets_lift_ok remembered rfl).bind fun g hg => ?_
  have asked : Op.Meets W W mayFail
      (modify fun r : Report => { r with asked := true } : Op Unit) fun _ => True :=
    fun _ left => ⟨left, trivial⟩
  refine asked.bind fun _ _ => Op.meets_pure ⟨w, ⟨regular.axes, regular.ranges, ?_⟩, hg.symm⟩
  exact fun v hv => Option.some.inj hv ▸ inverse

/-! ## Integer tightening -/

section Tightening

variable {K : Type*} [Field K] {cfg : Settings} {s : Space}

theorem Space.integral_eval {row : Vec} (integral : s.integral row) {x : ℕ → K}
    (admits : s.Admits x) : ∃ z : ℤ, row.eval x = z := by
  -- The rows are walked with the dimension as a counter, which starts at any `k` in the induction.
  suffices general : ∀ k, (row.zipIdx k).all (fun entry =>
      entry.1 = 0 || (s.isInt entry.2 && entry.1.den = 1)) → ∃ z : ℤ, row.eval (fun i => x (k + i)) = z by
    obtain ⟨z, value⟩ := general 0 integral
    exact ⟨z, by simpa using value⟩
  clear integral
  intro k
  induction row generalizing k with
  | nil => exact fun _ => ⟨0, by simp⟩
  | cons c row ih =>
    intro all
    rw [List.zipIdx_cons, List.all_cons, Bool.and_eq_true] at all
    obtain ⟨z, tail⟩ := ih (k + 1) all.2
    have head : ∃ z : ℤ, (c : K) * x k = z := by
      rcases Bool.or_eq_true_iff.mp all.1 with zero | integer
      · have vanishes : c = 0 := of_decide_eq_true zero
        exact ⟨0, by simp [vanishes]⟩
      · simp only [isInt, Bool.and_eq_true, decide_eq_true_eq] at integer
        obtain ⟨y, hy⟩ := admits k integer.1
        refine ⟨c.num * y, ?_⟩
        rw [hy, ← Rat.coe_int_num_of_den_eq_one integer.2]
        push_cast
        rfl
    obtain ⟨y, hy⟩ := head
    refine ⟨y + z, ?_⟩
    have shift : (fun i => x (k + (i + 1))) = fun i => x (k + 1 + i) := by
      funext i
      rw [add_assoc, add_comm 1 i]
    rw [Vec.eval_cons, shift, tail]
    simpa using hy

variable [LinearOrder K] {x : ℕ → K}

theorem Frame.forall_zip_cons {row : Vec} {rows : List Vec} {I : Interval} {Is : List Interval} :
    (∀ d ∈ (row :: rows).zip (I :: Is), d.2.Has (d.1.eval x)) ↔
      I.Has (row.eval x) ∧ ∀ d ∈ rows.zip Is, d.2.Has (d.1.eval x) := by
  simp

variable [IsStrictOrderedRing K]

theorem Frame.tighten_has (cfg : Settings) {row : Vec} {I : Interval} (admits : s.Admits x)
    (has : I.Has (row.eval x)) : (Frame.tighten cfg s row I).Has (row.eval x) := by
  unfold Frame.tighten
  split
  · rename_i integral
    simp only [Bool.and_eq_true] at integral
    obtain ⟨z, value⟩ := Space.integral_eval integral.2 admits
    rw [value] at has ⊢
    exact Interval.tighten_has has
  · exact has

theorem Frame.has_of_tighten_has {row : Vec} {I : Interval}
    (has : (Frame.tighten cfg s row I).Has (row.eval x)) : I.Has (row.eval x) := by
  unfold Frame.tighten at has
  split at has
  · exact has.of_tighten
  · exact has

namespace Frame

theorem tightenAll_has_of_keeps {rows : List Vec} {Is : List Interval}
    (keeps : ∀ d ∈ rows.zip Is, d.2.Has (d.1.eval x) → (tighten cfg s d.1 d.2).Has (d.1.eval x))
    (has : ∀ d ∈ rows.zip Is, d.2.Has (d.1.eval x)) :
    (tightenAll cfg s rows Is).2 = false ∧
      ∀ d ∈ rows.zip (tightenAll cfg s rows Is).1, d.2.Has (d.1.eval x) := by
  induction rows generalizing Is with
  | nil => simp [tightenAll]
  | cons row rows ih =>
    cases Is with
    | nil => simp [tightenAll]
    | cons I Is =>
      obtain ⟨head, tail⟩ := forall_zip_cons.mp has
      have head' := keeps (row, I) (List.mem_cons_self ..) head
      obtain ⟨empty, rest⟩ := ih (fun d hd => keeps d (List.mem_cons_of_mem _ hd)) tail
      simp only [tightenAll, head'.isBottom, empty]
      exact ⟨rfl, forall_zip_cons.mpr ⟨head', rest⟩⟩

theorem tightenAll_has (admits : s.Admits x) {rows : List Vec} {Is : List Interval}
    (has : ∀ d ∈ rows.zip Is, d.2.Has (d.1.eval x)) :
    (tightenAll cfg s rows Is).2 = false ∧
      ∀ d ∈ rows.zip (tightenAll cfg s rows Is).1, d.2.Has (d.1.eval x) :=
  tightenAll_has_of_keeps (fun _ _ => tighten_has cfg admits) has

theorem has_of_tightenAll_has {rows : List Vec} {Is : List Interval}
    (has : ∀ d ∈ rows.zip (tightenAll cfg s rows Is).1, d.2.Has (d.1.eval x)) :
    ∀ d ∈ rows.zip Is, d.2.Has (d.1.eval x) := by
  induction rows generalizing Is with
  | nil => simp
  | cons row rows ih =>
    cases Is with
    | nil => simp
    | cons I Is =>
      simp only [tightenAll] at has
      split at has
      · -- An empty range ends the walk; the ranges behind it are left as they are.
        obtain ⟨head, tail⟩ := forall_zip_cons.mp has
        exact forall_zip_cons.mpr ⟨has_of_tighten_has head, tail⟩
      · obtain ⟨head, tail⟩ := forall_zip_cons.mp has
        exact forall_zip_cons.mpr ⟨has_of_tighten_has head, ih tail⟩

theorem normalize_has (admits : s.Admits x) {f : Frame} (has : f.Has x) :
    (f.normalize cfg s).Has x :=
  tightenAll_has admits has

theorem has_of_normalize_has {f : Frame} (has : (f.normalize cfg s).Has x) : f.Has x :=
  has_of_tightenAll_has has.2

end Frame

theorem Parallelotope.has_normalize_iff {a : Parallelotope} (admits : a.space.Admits x) :
    (a.normalize cfg).Has x ↔ a.Has x := by
  cases hf : a.frame? with
  | none => simp [normalize, hf]
  | some f =>
    rw [normalize, hf, has_iff_of_frame hf]
    exact Cut.toParallelotope_has.trans ⟨Frame.has_of_normalize_has, Frame.normalize_has admits⟩

end Tightening

/-! ## Shapes after normalising -/

namespace Frame

variable {cfg : Settings} {s : Space}

theorem length_tightenAll (rows : List Vec) (Is : List Interval) :
    (tightenAll cfg s rows Is).1.length = Is.length := by
  induction rows generalizing Is with
  | nil => simp [tightenAll]
  | cons row rows ih =>
    cases Is with
    | nil => simp [tightenAll]
    | cons I Is =>
      simp only [tightenAll]
      split
      · rfl
      · simp [ih Is]

theorem tightenAll_ordered {rows : List Vec} {Is : List Interval} (same : Is.length = rows.length)
    (nonempty : (tightenAll cfg s rows Is).2 = false) :
    ∀ I ∈ (tightenAll cfg s rows Is).1, I.lo ≤ I.hi := by
  induction rows generalizing Is with
  | nil =>
    obtain rfl := List.length_eq_zero_iff.mp same
    simp [tightenAll]
  | cons row rows ih =>
    cases Is with
    | nil => simp at same
    | cons I Is =>
      simp only [tightenAll] at nonempty ⊢
      split at nonempty
      · contradiction
      · rename_i notBottom
        rw [if_neg notBottom]
        intro J hJ
        rcases List.mem_cons.mp hJ with rfl | hJ
        · exact Interval.isBottom_eq_false_iff.mp (by simpa using notBottom)
        · exact ih (by simpa using same) nonempty J hJ

theorem Regular.setRanges {f : Frame} {n : ℕ} (regular : f.Regular n) (Is : List Interval)
    (length : Is.length = n) : Regular { f with ranges := Is } n :=
  ⟨regular.axes, length, regular.inverse⟩

theorem Regular.normalize {f : Frame} {n : ℕ} (regular : f.Regular n) (ordered : Prop) :
    (f.normalize cfg s).Shaped ordered n := by
  intro nonempty
  refine ⟨regular.setRanges _ ((length_tightenAll _ _).trans regular.ranges), fun _ => ?_⟩
  exact tightenAll_ordered regular.same nonempty

end Frame

end SkewBox
