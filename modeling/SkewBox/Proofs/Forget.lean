import SkewBox.Forget
import SkewBox.Proofs.Points

/-!
# Points after forgetting dimensions

Eliminating a dimension keeps every point of the frame, whatever the dimension becomes.  The row
that was the pivot then reads the dimension alone, and stays so while others are eliminated.

* `Frame.Reads`: one row is the unit row of a dimension that no other row mentions.
* `Frame.Forgets`: what forgetting several dimensions makes of a frame.
* `Parallelotope.forget_keeps`: the operation on values.
-/

namespace SkewBox

namespace Frame

/-- Row `p` reads dimension `d` alone, and no other row mentions the dimension. -/
structure Reads (f : Frame) (n d p : ℕ) : Prop where
  inside : p < n
  row : f.axes.getD p [] = Vec.unit n d
  others : ∀ i < n, i ≠ p → f.axes.entry i d = 0

variable {f : Frame} {n d p : ℕ} {cfg : Settings} {s : Space} {project : Bool} {ordered : Prop}

/-! ## The pivot -/

theorem Regular.exists_mentioning (regular : f.Regular n) (inside : d < n) :
    ∃ rows, f.mentioning d = .ok rows ∧ ∀ i, i ∈ rows ↔ i < n ∧ f.axes.entry i d ≠ 0 := by
  have wide : (f.axes.all fun row => d < row.length) = true :=
    List.all_eq_true.mpr fun row hrow => by simp [regular.axes.shape.width row hrow, inside]
  refine ⟨_, by rw [mentioning, if_pos wide], fun i => ?_⟩
  simp only [List.mem_map, List.mem_filter, Prod.exists, List.mem_zipIdx_iff_getElem?,
    decide_eq_true_eq, exists_eq_right]
  rw [← regular.axes.shape.length]
  constructor
  · rintro ⟨row, found, nonzero⟩
    obtain ⟨hi, rfl⟩ := List.getElem?_eq_some_iff.mp found
    exact ⟨hi, by rwa [Mat.entry, List.getD_eq_getElem _ _ hi]⟩
  · rintro ⟨hi, nonzero⟩
    rw [Mat.entry, List.getD_eq_getElem _ _ hi] at nonzero
    exact ⟨f.axes[i], List.getElem?_eq_getElem hi, nonzero⟩

theorem Regular.exists_entry_ne_zero (regular : f.Regular n) (inside : d < n) :
    ∃ i < n, f.axes.entry i d ≠ 0 := by
  by_contra none
  push Not at none
  -- Otherwise the unit point of the dimension would make all rows zero.
  have zero : ∀ i < n, f.axes.image (fun t => if t = d then (1 : ℚ) else 0) i = 0 := by
    intro i hi
    rw [← regular.axes.shape.entry_eq_image hi inside]
    exact none i hi
  simpa using regular.axes.kernel zero inside

theorem pivotFor?_mem {rows : List ℕ} (h : f.pivotFor? d rows = some p) : p ∈ rows := by
  cases rows with
  | nil => simp [pivotFor?] at h
  | cons first rest =>
    obtain rfl := Option.some.inj h
    refine foldl_choose_mem (fun best i => ?_) rest first
    split
    · exact .inr rfl
    · exact .inl rfl

theorem Regular.exists_pivotFor? (regular : f.Regular n) (inside : d < n) {rows : List ℕ}
    (mem : ∀ i, i ∈ rows ↔ i < n ∧ f.axes.entry i d ≠ 0) :
    ∃ p, f.pivotFor? d rows = some p ∧ p < n ∧ f.axes.entry p d ≠ 0 := by
  obtain ⟨i, hi⟩ := regular.exists_entry_ne_zero inside
  have nonempty : i ∈ rows := (mem i).mpr hi
  cases found : f.pivotFor? d rows with
  | none =>
    cases rows with
    | nil => exact absurd nonempty List.not_mem_nil
    | cons first rest => simp [pivotFor?] at found
  | some p => exact ⟨p, rfl, (mem p).mp (pivotFor?_mem found)⟩

/-! ## Elimination -/

section Row

variable {P : Precision} {pivot row : Direction}

theorem length_eliminate (same : row.1.length = pivot.1.length) :
    (eliminate P d pivot row).1.length = row.1.length := by
  simp only [eliminate]
  split
  · rfl
  · exact Vec.length_addScaled _ same

theorem eval_eliminate {K : Type*} [Field K] [CharZero K] (same : row.1.length = pivot.1.length)
    (x : ℕ → K) :
    (eliminate P d pivot row).1.eval x =
      row.1.eval x - ((row.1.getD d 0 / pivot.1.getD d 0 : ℚ) : K) * pivot.1.eval x := by
  simp only [eliminate]
  split
  · rename_i zero
    rw [zero, Rat.cast_zero, zero_mul, sub_zero]
  · rw [Vec.eval_addScaled _ same, Rat.cast_neg]
    ring

theorem eliminate_has {K : Type*} [Field K] [LinearOrder K] [IsStrictOrderedRing K] {v w : K}
    (hv : row.2.Has v) (hw : pivot.2.Has w) :
    (eliminate P d pivot row).2.Has (v - ((row.1.getD d 0 / pivot.1.getD d 0 : ℚ) : K) * w) := by
  simp only [eliminate]
  split
  · rename_i zero
    rw [zero, Rat.cast_zero, zero_mul, sub_zero]
    exact hv
  · exact Interval.sub_has hv (Interval.scale_has _ hw)

theorem eliminate_ordered (hrow : row.2.lo ≤ row.2.hi) (hpivot : pivot.2.lo ≤ pivot.2.hi) :
    (eliminate P d pivot row).2.lo ≤ (eliminate P d pivot row).2.hi := by
  simp only [eliminate]
  split
  · exact hrow
  · exact Interval.sub_ordered hrow (Interval.scale_ordered _ hpivot)

end Row

theorem Regular.row_eliminateAll (cfg : Settings) (project : Bool) (regular : f.Regular s.size)
    {i : ℕ} (hi : i < s.size) :
    let g := f.eliminateAll cfg s d p project
    (g.axes.getD i [], g.ranges.getD i .top) =
      if i = p then (Vec.unit s.size d, if project then .zero else .top)
      else eliminate cfg.precision d (f.axes.getD p [], f.ranges.getD p .top)
        (f.axes.getD i [], f.ranges.getD i .top) := by
  have haxes : i < f.axes.length := regular.axes.shape.length ▸ hi
  have hranges : i < f.ranges.length := regular.ranges ▸ hi
  have hrows : i < f.rows.length := by simp [rows, haxes, hranges]
  have row : f.rows[i] = (f.axes.getD i [], f.ranges.getD i .top) := by
    simp [rows, haxes, hranges]
  simp only [eliminateAll]
  generalize (f.axes.getD p [], f.ranges.getD p Interval.top) = pivot
  rw [List.getD_eq_getElem _ _ (by simpa using hrows),
    List.getD_eq_getElem _ _ (by simpa using hrows)]
  simp only [List.getElem_map, List.getElem_mapIdx, row]

theorem Regular.row_eliminateAll_of_zero (cfg : Settings) (project : Bool) (regular : f.Regular s.size)
    {i : ℕ} (hi : i < s.size) (other : i ≠ p) (zero : f.axes.entry i d = 0) :
    (f.eliminateAll cfg s d p project).axes.getD i [] = f.axes.getD i [] ∧
      (f.eliminateAll cfg s d p project).ranges.getD i .top = f.ranges.getD i .top := by
  have row := regular.row_eliminateAll (d := d) (p := p) cfg project hi
  rw [Mat.entry] at zero
  simp only [if_neg other, eliminate, zero, zero_div, if_true, Prod.mk.injEq] at row
  exact row

theorem Regular.length_ranges_eliminateAll (regular : f.Regular s.size) :
    (f.eliminateAll cfg s d p project).ranges.length = s.size := by
  simp [eliminateAll, rows, regular.axes.shape.length, regular.ranges]

theorem Regular.hasShape_eliminateAll (regular : f.Regular s.size) (hp : p < s.size) :
    (f.eliminateAll cfg s d p project).axes.HasShape s.size s.size := by
  have length : (f.eliminateAll cfg s d p project).axes.length = s.size := by
    simp [eliminateAll, rows, regular.axes.shape.length, regular.ranges]
  refine ⟨length, fun row hrow => ?_⟩
  obtain ⟨i, hi, rfl⟩ := List.mem_iff_getElem.mp hrow
  have inside : i < s.size := length ▸ hi
  have entry := congrArg Prod.fst
    (regular.row_eliminateAll (d := d) (p := p) cfg project inside)
  simp only [List.getD_eq_getElem _ _ hi] at entry
  rw [entry]
  split
  · exact Vec.length_unit ..
  · have width := fun {k} hk => regular.axes.shape.getD_length (i := k) hk
    rw [length_eliminate ((width inside).trans (width hp).symm), width inside]

theorem Regular.image_eliminateAll {K : Type*} [Field K] [CharZero K] (regular : f.Regular s.size)
    (hd : d < s.size) (hp : p < s.size) {i : ℕ} (hi : i < s.size) (x : ℕ → K) :
    (f.eliminateAll cfg s d p project).axes.image x i =
      if i = p then x d
      else f.axes.image x i -
        ((f.axes.entry i d / f.axes.entry p d : ℚ) : K) * f.axes.image x p := by
  have row := congrArg Prod.fst (regular.row_eliminateAll (d := d) (p := p) cfg project hi)
  simp only at row
  rw [Mat.image, row]
  split
  · exact Vec.eval_unit hd x
  · have width := fun {k} hk => regular.axes.shape.getD_length (i := k) hk
    exact eval_eliminate ((width hi).trans (width hp).symm) x

/-- Only zero makes all rows zero after the elimination: together with a shift of the dimension it
makes all rows zero before. -/
theorem Regular.eliminateAll (regular : f.Regular s.size) (hd : d < s.size) (hp : p < s.size)
    (pivot : f.axes.entry p d ≠ 0) : (f.eliminateAll cfg s d p project).Regular s.size := by
  refine ⟨.of_kernel (regular.hasShape_eliminateAll hp) fun x zero j hj => ?_,
    regular.length_ranges_eliminateAll, nofun⟩
  have rows := fun i hi => (regular.image_eliminateAll hd hp hi x).symm.trans (zero i hi)
  have dimension : x d = 0 := by simpa using rows p hp
  -- The factor by which the column of `d` makes up the values of the rows.
  let t := f.axes.image x p / f.axes.entry p d
  have column : ∀ i < s.size, f.axes.image x i = f.axes.entry i d * t := by
    intro i hi
    by_cases same : i = p
    · subst same
      simp only [t]
      field_simp
    · have row := rows i hi
      rw [if_neg same, Rat.cast_id, sub_eq_zero] at row
      rw [row]
      simp only [t]
      field_simp
  -- Moving the dimension by that factor makes the old rows zero.
  have shifted : ∀ i < s.size, f.axes.image (Function.update x d (x d - t)) i = 0 := by
    intro i hi
    have inside : d < (f.axes.getD i []).length := (regular.axes.shape.getD_length hi).symm ▸ hd
    have move := Vec.eval_update inside x (x d - t)
    rw [Mat.image, move]
    have row := column i hi
    simp only [Mat.image, Mat.entry] at row
    rw [row, Rat.cast_id]
    ring
  have solved := fun j hj => regular.axes.kernel shifted (j := j) hj
  by_cases same : j = d
  · rw [same, dimension]
  · have other := solved j hj
    rwa [Function.update_of_ne same] at other

theorem Regular.eliminateAll_ordered (regular : f.Regular s.size) (hp : p < s.size)
    (hf : f.Ordered) : (f.eliminateAll cfg s d p project).Ordered := by
  have range : ∀ i < s.size, (f.ranges.getD i .top).lo ≤ (f.ranges.getD i .top).hi := by
    intro i hi
    have inside : i < f.ranges.length := regular.ranges ▸ hi
    rw [List.getD_eq_getElem _ _ inside]
    exact hf _ (List.getElem_mem inside)
  intro I hI
  obtain ⟨i, hi, rfl⟩ := List.mem_iff_getElem.mp hI
  have inside : i < s.size := regular.length_ranges_eliminateAll ▸ hi
  have row := congrArg Prod.snd (regular.row_eliminateAll (d := d) (p := p) cfg project inside)
  simp only [List.getD_eq_getElem _ _ hi] at row
  rw [row]
  split
  · cases project
    · exact Bound.negInf_le _
    · exact le_rfl
  · exact eliminate_ordered (range i inside) (range p hp)

/-! ## Rows that read a dimension -/

theorem Regular.entry_eliminateAll (regular : f.Regular s.size) (hd : d < s.size)
    (hp : p < s.size) {i j : ℕ} (hi : i < s.size) (hj : j < s.size) :
    (f.eliminateAll cfg s d p project).axes.entry i j =
      if i = p then (if d = j then 1 else 0)
      else f.axes.entry i j - f.axes.entry i d / f.axes.entry p d * f.axes.entry p j := by
  rw [(regular.hasShape_eliminateAll hp).entry_eq_image hi hj, regular.image_eliminateAll hd hp hi,
    ← regular.axes.shape.entry_eq_image hi hj, ← regular.axes.shape.entry_eq_image hp hj]
  rfl

theorem Regular.reads_eliminateAll (regular : f.Regular s.size) (hd : d < s.size)
    (hp : p < s.size) (pivot : f.axes.entry p d ≠ 0) :
    (f.eliminateAll cfg s d p project).Reads s.size d p := by
  refine ⟨hp, ?_, fun i hi other => ?_⟩
  · simpa using congrArg Prod.fst (regular.row_eliminateAll (d := d) (p := p) cfg project hp)
  · rw [regular.entry_eliminateAll hd hp hi hd, if_neg other]
    field_simp
    ring

theorem Reads.entry {e q : ℕ} (reads : f.Reads n e q) (j : ℕ) (hj : j < n) :
    f.axes.entry q j = if e = j then 1 else 0 := by
  rw [Mat.entry, reads.row, Vec.getD_unit hj]

theorem Reads.eliminateAll {e q : ℕ} (reads : f.Reads s.size e q) (regular : f.Regular s.size)
    (hd : d < s.size) (hp : p < s.size) (pivot : f.axes.entry p d ≠ 0) (he : e < s.size)
    (other : e ≠ d) : (f.eliminateAll cfg s d p project).Reads s.size e q := by
  have zero : f.axes.entry q d = 0 := by rw [reads.entry d hd, if_neg other]
  -- The row that reads `e` alone has no entry at `d`, so it is neither the pivot nor changed.
  have notPivot : q ≠ p := by
    rintro rfl
    exact pivot zero
  refine ⟨reads.inside, ?_, fun i hi notRow => ?_⟩
  · rw [(regular.row_eliminateAll_of_zero cfg project reads.inside notPivot zero).1, reads.row]
  · rw [regular.entry_eliminateAll hd hp hi he]
    split
    · exact if_neg (Ne.symm other)
    · rw [reads.others i hi notRow, reads.others p hp (Ne.symm notPivot)]
      ring

/-! ## Points -/

section Points

variable {K : Type*} [Field K] [LinearOrder K]

/-- The frame `g` is `f` without what it says about the dimensions `ds`, which the rows `ps` now
read alone: it has every point of `f` with whatever there, or with zeros when projecting. -/
structure Forgets (f : Frame) (s : Space) (ordered : Prop) (project : Bool) (K : Type*) [Field K]
    [LinearOrder K] (ds ps : List ℕ) (g : Frame) : Prop where
  regular : g.Regular s.size
  ordered : ordered → g.Ordered
  reads : List.Forall₂ (fun d p => g.Reads s.size d p) ds ps
  keeps : ∀ e < s.size, e ∉ ds → ∀ q, f.Reads s.size e q → g.Reads s.size e q
  has : ∀ x y : ℕ → K, f.Has x → (∀ j, j ∉ ds → y j = x j) →
    (project → ∀ d ∈ ds, y d = 0) → g.Has y

theorem Forgets.trans {ds ps : List ℕ} {g h : Frame}
    (first : f.Forgets s ordered project K [d] [p] g) (hd : d < s.size) (fresh : d ∉ ds)
    (rest : g.Forgets s ordered project K ds ps h) :
    f.Forgets s ordered project K (d :: ds) (p :: ps) h where
  regular := rest.regular
  ordered := rest.ordered
  reads := .cons (rest.keeps d hd fresh p (List.forall₂_cons.mp first.reads).1) rest.reads
  keeps e he other q reads := by
    have notFirst : e ∉ [d] := by simpa using List.ne_of_not_mem_cons other
    exact rest.keeps e he (List.not_mem_of_not_mem_cons other) q (first.keeps e he notFirst q reads)
  has x y has agrees zero := by
    -- The point in between has the new value of `d` and the old values of the others.
    refine rest.has (Function.update x d (y d)) y (first.has x _ has ?_ ?_) ?_ ?_
    · intro j hj
      rw [Function.update_of_ne (by simpa using hj)]
    · intro h e he
      obtain rfl := List.mem_singleton.mp he
      rw [Function.update_self, zero h e (by simp)]
    · intro j hj
      by_cases same : j = d
      · rw [same, Function.update_self]
      · rw [Function.update_of_ne same, agrees j (List.not_mem_cons_of_ne_of_not_mem same hj)]
    · exact fun h e he => zero h e (List.mem_cons_of_mem _ he)

variable [IsStrictOrderedRing K]

theorem Regular.eliminateAll_has (regular : f.Regular s.size) (hd : d < s.size) (hp : p < s.size)
    (pivot : f.axes.entry p d ≠ 0) {x y : ℕ → K} (has : f.Has x)
    (agrees : ∀ j, j ≠ d → y j = x j) (zero : project → y d = 0) :
    (f.eliminateAll cfg s d p project).Has y := by
  have regular' : (f.eliminateAll cfg s d p project).Regular s.size :=
    regular.eliminateAll hd hp pivot
  rw [has_iff regular.same] at has
  rw [has_iff regular'.same]
  intro i
  by_cases hi : i < s.size
  · have row := congrArg Prod.snd (regular.row_eliminateAll (d := d) (p := p) cfg project hi)
    simp only at row
    rw [row, regular.image_eliminateAll hd hp hi]
    split
    · -- The pivot row reads the dimension: anything is allowed there, or zero.
      cases project with
      | false => exact Interval.top_has
      | true =>
        rw [zero rfl]
        exact Interval.zero_has
    · -- The values of both rows move by their coefficients of `d`, and these cancel.
      have moved : ∀ k < s.size,
          f.axes.image y k = f.axes.image x k + ((f.axes.entry k d : ℚ) : K) * (y d - x d) := by
        intro k hk
        have inside : d < (f.axes.getD k []).length :=
          (regular.axes.shape.getD_length hk).symm ▸ hd
        rw [Mat.image, Mat.image, Mat.entry, ← Vec.eval_update inside]
        refine Vec.eval_congr fun j _ => ?_
        by_cases same : j = d
        · rw [same, Function.update_self]
        · rw [Function.update_of_ne same, agrees j same]
      have value : f.axes.image y i - ((f.axes.entry i d / f.axes.entry p d : ℚ) : K) *
          f.axes.image y p = f.axes.image x i -
            ((f.axes.entry i d / f.axes.entry p d : ℚ) : K) * f.axes.image x p := by
        have nonzero : ((f.axes.entry p d : ℚ) : K) ≠ 0 := Rat.cast_ne_zero.mpr pivot
        rw [moved i hi, moved p hp, Rat.cast_div]
        field_simp
        ring
      rw [value]
      exact eliminate_has (has i) (has p)
  · rw [List.getD_eq_default _ _ (by rw [regular'.ranges]; omega)]
    exact Interval.top_has

theorem Regular.eliminateAll_forgets (regular : f.Regular s.size) (hf : ordered → f.Ordered)
    (hd : d < s.size) (hp : p < s.size) (pivot : f.axes.entry p d ≠ 0) :
    f.Forgets s ordered project K [d] [p] (f.eliminateAll cfg s d p project) where
  regular := regular.eliminateAll hd hp pivot
  ordered h := regular.eliminateAll_ordered hp (hf h)
  reads := .cons (regular.reads_eliminateAll hd hp pivot) .nil
  keeps e he other q reads := reads.eliminateAll regular hd hp pivot he (by simpa using other)
  has x y has agrees zero := regular.eliminateAll_has hd hp pivot has
    (fun j hj => agrees j (by simpa using hj)) fun h => zero h d (by simp)

/-! ## The operation -/

variable {W : Parallelotope → Prop} {mayFail : Prop}

omit [LinearOrder K] [IsStrictOrderedRing K] [Field K] in
theorem Regular.forgetOne_eq (regular : f.Regular s.size) (hd : d < s.size) :
    Op.Meets W W mayFail (f.forgetOne cfg s project d) fun r =>
      ∃ p < s.size, f.axes.entry p d ≠ 0 ∧ r = (f.eliminateAll cfg s d p project, p) := by
  obtain ⟨rows, mentioned, mem⟩ := regular.exists_mentioning hd
  obtain ⟨p, found, hp, pivot⟩ := regular.exists_pivotFor? hd mem
  unfold forgetOne
  refine (Op.meets_lift_ok mentioned rfl).bind fun _ same => ?_
  subst same
  simp only [found]
  split
  · exact Op.inexact_meets.bind fun _ _ => Op.meets_pure ⟨p, hp, pivot, rfl⟩
  · exact Op.meets_pure ⟨p, hp, pivot, rfl⟩

theorem Regular.forgetOne_meets (regular : f.Regular s.size) (hf : ordered → f.Ordered)
    (hd : d < s.size) :
    Op.Meets W W mayFail (f.forgetOne cfg s project d) fun r =>
      f.Forgets s ordered project K [d] [r.2] r.1 := by
  apply (regular.forgetOne_eq hd).imp
  rintro _ ⟨p, hp, pivot, rfl⟩
  exact regular.eliminateAll_forgets hf hd hp pivot

theorem Regular.forgetAll_keeps {ds : List ℕ} (regular : f.Regular s.size)
    (hf : ordered → f.Ordered) (distinct : ds.Nodup) (inside : ∀ d ∈ ds, d < s.size) :
    Op.Keeps ordered mayFail (f.forgetAll cfg s project ds) fun r =>
      f.Forgets s ordered project K ds r.2 r.1 := by
  induction ds generalizing f with
  | nil =>
    refine Op.meets_pure ⟨regular, hf, .nil, fun _ _ _ _ => id, fun x y has agrees _ => ?_⟩
    obtain rfl : y = x := funext fun j => agrees j List.not_mem_nil
    exact has
  | cons d ds ih =>
    -- A dimension that was forgotten stays so, since the later ones are different.
    obtain ⟨fresh, distinct⟩ := List.nodup_cons.mp distinct
    have hd := inside d (List.mem_cons_self ..)
    unfold forgetAll
    refine (regular.forgetOne_meets (K := K) hf hd).bind ?_
    rintro ⟨g, p⟩ first
    have shaped : Cut.Shaped ordered s.size ⟨g, false⟩ := fun _ => ⟨first.regular, first.ordered⟩
    refine (Op.write_meets shaped.toParallelotope).bind fun _ _ => ?_
    refine (ih first.regular first.ordered distinct
      fun e he => inside e (List.mem_cons_of_mem _ he)).bind ?_
    rintro ⟨h, ps⟩ rest
    exact Op.meets_pure (first.trans hd fresh rest)

end Points

end Frame

/-! ## Values -/

namespace Parallelotope

variable {K : Type*} [Field K] [LinearOrder K]

/-- The value `b` has every point of `a` with anything in the dimensions `ds`, or with zeros there
when projecting. -/
structure Forgets (a : Parallelotope) (project : Bool) (K : Type*) [Field K] [LinearOrder K]
    (ds : List ℕ) (b : Parallelotope) : Prop where
  space : b.space = a.space
  wellFormed : b.WellFormed
  has : ∀ x y : ℕ → K, a.Has x → a.space.Admits y → (∀ j, j ∉ ds → y j = x j) →
    (project → ∀ d ∈ ds, y d = 0) → b.Has y

variable [IsStrictOrderedRing K]

theorem forget_keeps {a : Parallelotope} {cfg : Settings} {data : List Datum} {project : Bool}
    {ordered mayFail : Prop} (ha : a.Shaped ordered)
    (fails : ∀ e, a.space.checkDistinct data = .error e → mayFail) :
    Op.Keeps ordered mayFail (a.forget cfg data project) fun b =>
      ∃ ds, a.space.checkDistinct data = .ok ds ∧ a.Forgets project K ds b := by
  unfold forget
  refine (Op.meets_lift (fun _ => id) fails).bind fun ds checked => ?_
  obtain ⟨-, distinct, inside⟩ := Space.checkDistinct_eq_ok.mp checked
  cases hf : a.frame? with
  | none =>
    refine Op.meets_pure ⟨ds, checked, rfl, shaped_of_none hf, fun x y has => ?_⟩
    exact absurd has (not_has_of_none hf x)
  | some f =>
    obtain ⟨regular, hordered⟩ := ha f hf
    refine (regular.forgetAll_keeps (K := K) hordered distinct inside).bind ?_
    rintro ⟨g, ps⟩ forgets
    refine Op.put_meets (forgets.regular.normalize ordered).toParallelotope
      ⟨ds, checked, rfl, (forgets.regular.normalize True).toParallelotope, ?_⟩
    rintro x y ⟨f', hf', has⟩ admits agrees zero
    obtain rfl : f = f' := Option.some.inj (hf.symm.trans hf')
    rw [Cut.toParallelotope_has]
    exact Frame.normalize_has admits (forgets.has x y has agrees zero)

end Parallelotope

end SkewBox
