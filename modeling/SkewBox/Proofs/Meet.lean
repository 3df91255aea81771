import SkewBox.Meet
import SkewBox.Proofs.Points

/-!
# Intersection keeps common points

Each of the three ways in which a frame is intersected with a direction keeps every common point
of integers, adds no point and leaves a regular frame.

* `Frame.Narrows`: what an intersection does to a frame.
* `Frame.Regular.meetDirection_keeps`, `meetAll_keeps`, `meet_meets`: the operations on frames.
* `Parallelotope.meetDirection_keeps`, …: the operations on values.
-/

namespace SkewBox

/-! ## Row coordinates with few entries -/

namespace Vec

theorem mem_support {v : Vec} {k : ℕ} : k ∈ v.support ↔ k < v.length ∧ v.getD k 0 ≠ 0 := by
  simp only [support, List.mem_map, List.mem_filter, Prod.exists, List.mem_zipIdx_iff_getElem?]
  constructor
  · rintro ⟨c, i, ⟨entry, nonzero⟩, rfl⟩
    obtain ⟨inside, rfl⟩ := List.getElem?_eq_some_iff.mp entry
    refine ⟨inside, ?_⟩
    rw [List.getD_eq_getElem _ _ inside]
    simpa using nonzero
  · rintro ⟨inside, nonzero⟩
    rw [List.getD_eq_getElem _ _ inside] at nonzero
    exact ⟨v[k], k, ⟨List.getElem?_eq_getElem inside, by simpa using nonzero⟩, rfl⟩

variable {K : Type*} [Field K]

theorem eval_of_isZero {v : Vec} (zero : v.isZero) (x : ℕ → K) : v.eval x = 0 := by
  induction v generalizing x with
  | nil => rfl
  | cons c v ih =>
    simp only [isZero, List.all_cons, Bool.and_eq_true, decide_eq_true_eq] at zero
    rw [eval_cons, zero.1, Rat.cast_zero, zero_mul, zero_add]
    exact ih zero.2 _

theorem eval_of_support {v : Vec} {k : ℕ} (single : v.support = [k]) (x : ℕ → K) :
    v.eval x = ((v.getD k 0 : ℚ) : K) * x k := by
  have inside : k ∈ v.support := single ▸ List.mem_singleton.mpr rfl
  rw [eval_eq_sum le_rfl,
    Finset.sum_eq_single_of_mem k (Finset.mem_range.mpr (mem_support.mp inside).1)]
  intro i hi other
  have zero : v.getD i 0 = 0 := by
    by_contra nonzero
    have mem : i ∈ v.support := mem_support.mpr ⟨Finset.mem_range.mp hi, nonzero⟩
    rw [single, List.mem_singleton] at mem
    exact other mem
  rw [zero, Rat.cast_zero, zero_mul]

end Vec

namespace Frame

/-! ## Replacing a row -/

theorem image_set {m : Mat} {k : ℕ} (inside : k < m.length) (r : Vec) {K : Type*} [Field K]
    (x : ℕ → K) (i : ℕ) :
    Mat.image (m.set k r) x i = if i = k then r.eval x else m.image x i := by
  rw [Mat.image, getD_set inside]
  split_ifs <;> rfl

variable {f : Frame} {n : ℕ}

theorem Regular.setRow (regular : f.Regular n) {r lam : Vec} (length : r.length = n)
    (coords : f.IsCoords n r lam) {k : ℕ} (inside : k < n) (weight : lam.getD k 0 ≠ 0)
    (I : Interval) : (f.setRow k r I).Regular n := by
  have hk : k < f.axes.length := regular.axes.shape.length ▸ inside
  have shape : Mat.HasShape (f.axes.set k r) n n := by
    refine ⟨by rw [List.length_set, regular.axes.shape.length], fun row mem => ?_⟩
    rcases List.mem_or_eq_of_mem_set mem with mem | rfl
    · exact regular.axes.shape.width row mem
    · exact length
  refine ⟨.of_kernel shape fun x zero j hj => ?_, by simp [Frame.setRow, regular.ranges], nofun⟩
  have others : ∀ i < n, i ≠ k → f.axes.image x i = 0 := by
    intro i hi other
    have row : Mat.image (f.axes.set k r) x i = 0 := zero i hi
    rwa [image_set hk, if_neg other] at row
  have direction : r.eval x = 0 := by
    have row : Mat.image (f.axes.set k r) x k = 0 := zero k inside
    rwa [image_set hk, if_pos rfl] at row
  -- The direction is a combination of the old rows; all others vanish, so its weight on row `k` counts.
  have replaced : f.axes.image x k = 0 := by
    rw [← coords.eval regular.axes.shape length x, Vec.eval_eq_sum coords.length.le,
      Finset.sum_eq_single_of_mem k (Finset.mem_range.mpr inside)] at direction
    · rw [Rat.cast_id, mul_eq_zero] at direction
      exact direction.resolve_left weight
    · intro i hi other
      rw [others i (Finset.mem_range.mp hi) other, mul_zero]
  refine regular.axes.kernel (fun i hi => ?_) hj
  by_cases same : i = k
  · rw [same, replaced]
  · exact others i hi same

theorem strongest_mem {lam : Vec} {candidates : List ℕ} {k : ℕ}
    (h : strongest lam candidates = some k) : k ∈ candidates := by
  cases candidates with
  | nil => simp [strongest] at h
  | cons first rest =>
    obtain rfl := Option.some.inj h
    refine foldl_choose_mem (fun best i => ?_) rest first
    split
    · exact .inr rfl
    · exact .inl rfl

/-! ## Narrowing -/

section Narrowing

variable {K : Type*} [Field K] [LinearOrder K]

/-- A cut of a frame that keeps its points of integers with `S`, adds none, and is regular. -/
structure Narrows (f : Frame) (s : Space) (ordered : Prop) (S : (ℕ → K) → Prop) (c : Cut) : Prop where
  shaped : c.Shaped ordered s.size
  keeps : ∀ x, s.Admits x → f.Has x → S x → c.Has x
  within : ∀ x : ℕ → K, c.Has x → f.Has x

variable {s : Space} {cfg : Settings} {ordered : Prop} {S T : (ℕ → K) → Prop}

theorem narrows_empty {g : Frame} (none : ∀ x : ℕ → K, f.Has x → ¬ S x) :
    f.Narrows s ordered S ⟨g, true⟩ :=
  ⟨nofun, fun x _ has hS => absurd hS (none x has), fun _ has => absurd has.1 (by simp)⟩

theorem Regular.narrows_self (regular : f.Regular s.size) (hf : ordered → f.Ordered) :
    f.Narrows s ordered S ⟨f, false⟩ :=
  ⟨fun _ => ⟨regular, hf⟩, fun _ _ has _ => ⟨rfl, has⟩, fun _ has => has.2⟩

theorem Narrows.trans {g : Frame} {c : Cut} (first : f.Narrows s ordered S ⟨g, false⟩)
    (second : g.Narrows s ordered T c) : f.Narrows s ordered (fun x => S x ∧ T x) c :=
  ⟨second.shaped,
    fun x admits has both =>
      second.keeps x admits (first.keeps x admits has both.1).2 both.2,
    fun x has => first.within x ⟨rfl, second.within x has⟩⟩

variable [IsStrictOrderedRing K]

theorem Regular.normalize_narrows {g : Frame} (regular : g.Regular s.size)
    (keeps : ∀ x, f.Has x → S x → g.Has x) (within : ∀ x : ℕ → K, g.Has x → f.Has x) :
    f.Narrows s ordered S (g.normalize cfg s) :=
  ⟨regular.normalize ordered, fun x admits has hS => normalize_has admits (keeps x has hS),
    fun x has => within x (has_of_normalize_has has)⟩

/-! ## One direction -/

variable {r lam : Vec} {I : Interval}

theorem Regular.setRange_has {n k : ℕ} (regular : f.Regular n) (hk : k < n) {J : Interval}
    {x : ℕ → K} :
    (f.setRange k ((f.ranges.getD k .top).meet J)).Has x ↔ f.Has x ∧ J.Has (f.axes.image x k) := by
  have hk' : k < f.ranges.length := regular.ranges ▸ hk
  have regular' := regular.setRanges (f.ranges.set k ((f.ranges.getD k .top).meet J))
    (by simp [regular.ranges])
  have row : ∀ i, ((f.ranges.set k ((f.ranges.getD k .top).meet J)).getD i .top).Has
      (f.axes.image x i) ↔ (f.ranges.getD i .top).Has (f.axes.image x i) ∧
        (i = k → J.Has (f.axes.image x k)) := by
    intro i
    rw [getD_set hk']
    by_cases same : i = k
    · simp [same, Interval.has_meet]
    · simp [same]
  rw [setRange, regular'.has_iff_lt, regular.has_iff_lt]
  simp only [row]
  constructor
  · exact fun has => ⟨fun i hi => (has i hi).1, (has k hk).2 rfl⟩
  · exact fun has i hi => ⟨has.1 i hi, fun _ => has.2⟩

omit [IsStrictOrderedRing K] in
/-- The points of a frame with a free row replaced: the row that goes had no condition on its
value, so nothing is lost with it. -/
theorem Regular.setRow_has {n k : ℕ} (regular : f.Regular n) (hk : k < n)
    (regular' : (f.setRow k r I).Regular n) (free : (f.ranges.getD k .bottom).isTop) {x : ℕ → K} :
    (f.setRow k r I).Has x ↔ f.Has x ∧ I.Has (r.eval x) := by
  have hk' : k < f.ranges.length := regular.ranges ▸ hk
  have hk'' : k < f.axes.length := regular.axes.shape.length ▸ hk
  have top : f.ranges.getD k .top = .top := by
    rw [List.getD_eq_getElem _ _ hk'] at free ⊢
    simp only [Interval.isTop, Bool.and_eq_true, decide_eq_true_eq] at free
    exact Interval.mk.injEq .. ▸ free
  have row : ∀ i, ((f.setRow k r I).ranges.getD i .top).Has ((f.setRow k r I).axes.image x i) ↔
      if i = k then I.Has (r.eval x) else (f.ranges.getD i .top).Has (f.axes.image x i) := by
    intro i
    simp only [Frame.setRow, getD_set hk', image_set hk'']
    split_ifs <;> rfl
  rw [regular'.has_iff_lt, regular.has_iff_lt]
  simp only [row]
  constructor
  · refine fun has => ⟨fun i hi => ?_, by simpa using has k hk⟩
    by_cases same : i = k
    · rw [same, top]
      exact Interval.top_has
    · simpa [same] using has i hi
  · rintro ⟨has, direction⟩ i hi
    split_ifs
    · exact direction
    · exact has i hi

theorem IsCoords.image_of_support {n k : ℕ} (coords : f.IsCoords n r lam)
    (shape : f.axes.HasShape n n) (length : r.length = n) (single : lam.support = [k]) (x : ℕ → K) :
    f.axes.image x k = ((1 / lam.getD k 0 : ℚ) : K) * r.eval x := by
  have mem : k ∈ lam.support := single ▸ List.mem_singleton.mpr rfl
  have weight : ((lam.getD k 0 : ℚ) : K) ≠ 0 := Rat.cast_ne_zero.mpr (Vec.mem_support.mp mem).2
  rw [← coords.eval shape length x, Vec.eval_of_support single]
  push_cast
  field_simp

theorem Regular.narrows_row (regular : f.Regular s.size) (length : r.length = s.size)
    (coords : f.IsCoords s.size r lam) {k : ℕ} (single : lam.support = [k]) :
    f.Narrows s ordered (fun x : ℕ → K => I.Has (r.eval x))
      ((f.setRange k ((f.ranges.getD k .top).meet
        (I.scale cfg.precision (1 / lam.getD k 0)))).normalize cfg s) := by
  have mem : k ∈ lam.support := single ▸ List.mem_singleton.mpr rfl
  have inside : k < s.size := coords.length ▸ (Vec.mem_support.mp mem).1
  have regular' := regular.setRanges (f.ranges.set k ((f.ranges.getD k .top).meet
    (I.scale cfg.precision (1 / lam.getD k 0)))) (by simp [regular.ranges])
  refine regular'.normalize_narrows (fun x has direction => ?_) fun x has => ?_
  · refine (regular.setRange_has inside).mpr ⟨has, ?_⟩
    rw [coords.image_of_support regular.axes.shape length single]
    exact Interval.scale_has _ direction
  · exact ((regular.setRange_has inside).mp has).1

theorem Regular.narrows_replace (regular : f.Regular s.size) (length : r.length = s.size)
    (coords : f.IsCoords s.size r lam) {k : ℕ} (inside : k < s.size) (weight : lam.getD k 0 ≠ 0)
    (free : (f.ranges.getD k .bottom).isTop) :
    f.Narrows s ordered (fun x : ℕ → K => I.Has (r.eval x)) ((f.setRow k r I).normalize cfg s) := by
  have regular' := regular.setRow length coords inside weight I
  refine regular'.normalize_narrows (fun x has direction => ?_) fun x has => ?_
  · exact (regular.setRow_has inside regular' free).mpr ⟨has, direction⟩
  · exact ((regular.setRow_has inside regular' free).mp has).1

/-! ### Propagation -/

variable {p : Precision} {target : Interval} {Is : List Interval} {y : ℕ → K}

theorem allowed_has (fits : lam.length = Is.length) {k : ℕ} (weight : k ∈ lam.support)
    (combination : target.Has (lam.eval y)) (has : ∀ i, (Is.getD i .top).Has (y i)) :
    (allowed p lam target Is k).Has (y k) := by
  obtain ⟨inside, nonzero⟩ := Vec.mem_support.mp weight
  have others : (p.dot (lam.set k 0) Is).Has (Vec.eval (lam.set k 0) y) :=
    p.dot_has (by simp [fits]) has
  -- The combination solved for row `k`.
  have value : y k = ((1 / lam.getD k 0 : ℚ) : K) * (lam.eval y - Vec.eval (lam.set k 0) y) := by
    have nonzero' : ((lam.getD k 0 : ℚ) : K) ≠ 0 := Rat.cast_ne_zero.mpr nonzero
    rw [Vec.eval_set inside]
    push_cast
    field_simp
    ring
  rw [value]
  exact Interval.scale_has _ (Interval.sub_has combination others)

theorem length_propagate (ks : List ℕ) (Is : List Interval) :
    (propagate p lam target ks Is).1.length = Is.length := by
  induction ks generalizing Is with
  | nil => rfl
  | cons k ks ih =>
    simp only [propagate]
    split
    · simp
    · rw [ih, List.length_set]

theorem propagate_has {ks : List ℕ} (weights : ∀ k ∈ ks, k ∈ lam.support)
    (fits : lam.length = Is.length) (combination : target.Has (lam.eval y))
    (has : ∀ i, (Is.getD i .top).Has (y i)) :
    (propagate p lam target ks Is).2 = false ∧
      ∀ i, ((propagate p lam target ks Is).1.getD i .top).Has (y i) := by
  induction ks generalizing Is with
  | nil => exact ⟨rfl, has⟩
  | cons k ks ih =>
    have weight := weights k (List.mem_cons_self ..)
    have inside : k < Is.length := fits ▸ (Vec.mem_support.mp weight).1
    -- Ranges that were narrowed before are read again here: they still hold the values of the point.
    have narrowed : ((Is.getD k .top).meet (allowed p lam target Is k)).Has (y k) :=
      Interval.has_meet.mpr ⟨has k, allowed_has fits weight combination has⟩
    simp only [propagate, narrowed.isBottom]
    refine ih (fun k hk => weights k (List.mem_cons_of_mem _ hk)) (by simp [fits]) fun i => ?_
    rw [getD_set inside]
    split_ifs with same
    · rw [same]
      exact narrowed
    · exact has i

theorem has_of_propagate_has {ks : List ℕ} (weights : ∀ k ∈ ks, k < Is.length)
    (has : ∀ i, ((propagate p lam target ks Is).1.getD i .top).Has (y i)) :
    ∀ i, (Is.getD i .top).Has (y i) := by
  induction ks generalizing Is with
  | nil => exact has
  | cons k ks ih =>
    have inside := weights k (List.mem_cons_self ..)
    have set : ∀ i, ((Is.set k ((Is.getD k .top).meet (allowed p lam target Is k))).getD i .top).Has
        (y i) := by
      simp only [propagate] at has
      split at has
      · exact has
      · exact ih (fun k hk => by simpa using weights k (List.mem_cons_of_mem _ hk)) has
    intro i
    have row := set i
    rw [getD_set inside] at row
    split_ifs at row with same
    · rw [same]
      rw [same] at row
      exact (Interval.has_meet.mp row).1
    · exact row

/-- Several rows with weight, none of them free: each is narrowed to what the others allow. -/
theorem Regular.meetSkew_keeps (regular : f.Regular s.size) (hf : ordered → f.Ordered)
    (length : r.length = s.size) (coords : f.IsCoords s.size r lam) :
    Op.Keeps ordered False (f.meetSkew cfg s lam I)
      (f.Narrows s ordered fun x : ℕ → K => I.Has (r.eval x)) := by
  have fits : lam.length = f.ranges.length := coords.length.trans regular.ranges.symm
  -- The target is what both the direction and the ranges of the rows allow.
  have inTarget : ∀ x : ℕ → K, f.Has x → I.Has (r.eval x) →
      (I.meet (cfg.precision.dot lam f.ranges)).Has (lam.eval (f.axes.image x)) := by
    intro x has direction
    refine Interval.has_meet.mpr ⟨?_, cfg.precision.dot_has fits.le ((has_iff regular.same).mp has)⟩
    rwa [coords.eval regular.axes.shape length]
  unfold meetSkew
  simp only
  split
  · rename_i bottom
    -- The direction takes no value that the ranges allow.
    refine Op.meets_pure (narrows_empty fun x has direction => ?_)
    exact absurd bottom (by simp [(inTarget x has direction).isBottom])
  · split
    · exact Op.meets_pure (regular.narrows_self hf)
    · refine Op.inexact_meets.bind fun _ _ => Op.meets_pure ?_
      have regular' := regular.setRanges (propagate cfg.precision lam
        (I.meet (cfg.precision.dot lam f.ranges)) lam.support f.ranges).1
          ((length_propagate _ _).trans regular.ranges)
      have keeps := fun (x : ℕ → K) has direction =>
        propagate_has (p := cfg.precision) (fun _ => id) fits (inTarget x has direction)
          ((has_iff regular.same).mp has)
      split
      · rename_i empty
        refine narrows_empty fun x has direction => ?_
        exact absurd empty (by simp [(keeps x has direction).1])
      · refine regular'.normalize_narrows (fun x has direction => ?_) fun x has => ?_
        · exact (has_iff regular'.same).mpr (keeps x has direction).2
        · refine (has_iff regular.same).mpr
            (has_of_propagate_has (fun k hk => ?_) ((has_iff regular'.same).mp has))
          exact fits ▸ (Vec.mem_support.mp hk).1

theorem Regular.meetCoords_keeps (regular : f.Regular s.size) (hf : ordered → f.Ordered)
    (length : r.length = s.size) (coords : f.IsCoords s.size r lam) :
    Op.Keeps ordered False (f.meetCoords cfg s r lam I)
      (f.Narrows s ordered fun x : ℕ → K => I.Has (r.eval x)) := by
  have inside : ∀ k ∈ lam.support, k < s.size := fun k hk =>
    coords.length ▸ (Vec.mem_support.mp hk).1
  -- The coordinates are over the rows of the frame, so the guard against a foreign index is idle.
  have within : ¬ (lam.support.any fun k => decide (f.ranges.length ≤ k)) = true := by
    rw [List.any_eq_true]
    rintro ⟨k, hk, beyond⟩
    rw [decide_eq_true_eq, regular.ranges] at beyond
    exact absurd (inside k hk) (not_lt.mpr beyond)
  unfold meetCoords
  simp only [if_neg within]
  -- One row alone is cut; else a free row is replaced; else the direction is skew to the frame.
  split
  · rename_i k single
    exact Op.meets_pure (regular.narrows_row length coords single)
  · split
    · rename_i k best
      obtain ⟨weight, free⟩ := List.mem_filter.mp (strongest_mem best)
      exact Op.meets_pure (regular.narrows_replace length coords (inside k weight)
        (Vec.mem_support.mp weight).2 free)
    · exact regular.meetSkew_keeps hf length coords

theorem Regular.meetDirection_keeps (regular : f.Regular s.size) (hf : ordered → f.Ordered)
    (length : r.length = s.size) (I : Interval) :
    Op.Keeps ordered False (f.meetDirection cfg s r I)
      (f.Narrows s ordered fun x : ℕ → K => I.Has (r.eval x)) := by
  unfold meetDirection
  split
  · rename_i bottom
    refine Op.meets_pure (narrows_empty fun x _ direction => ?_)
    exact absurd bottom (by simp [direction.isBottom])
  · split
    · exact Op.meets_pure (regular.narrows_self hf)
    · split
      · rename_i zero
        -- The zero direction: the condition holds everywhere or nowhere.
        have value : ∀ x : ℕ → K, r.eval x = 0 := Vec.eval_of_isZero zero
        refine Op.meets_pure ⟨fun _ => ⟨regular, hf⟩, fun x _ has direction => ⟨?_, has⟩,
          fun _ has => has.2⟩
        rw [value] at direction
        simp [Interval.has_zero_iff.mp direction]
      · obtain ⟨w, remembered, inverse⟩ := regular.exists_remember
        have regular' : Regular { f with inverse? := some w } s.size :=
          ⟨regular.axes, regular.ranges, fun v hv => Option.some.inj hv ▸ inverse⟩
        obtain ⟨lam, found, coords⟩ := regular'.exists_coords r
        refine (Op.meets_lift_ok remembered rfl).bind fun g hg => ?_
        subst hg
        have shaped : Cut.Shaped ordered s.size ⟨{ f with inverse? := some w }, false⟩ :=
          fun _ => ⟨regular', hf⟩
        refine (Op.write_meets shaped.toParallelotope).bind fun _ _ => ?_
        refine (Op.meets_lift_ok found rfl).bind fun lam' hlam => ?_
        subst hlam
        refine (regular'.meetCoords_keeps (K := K) hf length coords).imp fun c narrows => ?_
        exact ⟨narrows.shaped, narrows.keeps, narrows.within⟩

/-! ## Several directions -/

theorem Regular.meetAll_keeps {dirs : List Direction} (regular : f.Regular s.size)
    (hf : ordered → f.Ordered) (length : ∀ d ∈ dirs, d.1.length = s.size) :
    Op.Keeps ordered False (meetAll cfg s dirs f)
      (f.Narrows s ordered fun x : ℕ → K => ∀ d ∈ dirs, d.2.Has (d.1.eval x)) := by
  induction dirs generalizing f with
  | nil => exact Op.meets_pure (regular.narrows_self hf)
  | cons d dirs ih =>
    obtain ⟨r, I⟩ := d
    rw [meetAll]
    have rowLength := length (r, I) (List.mem_cons_self ..)
    refine (regular.meetDirection_keeps (K := K) hf rowLength I).bind ?_
    intro c narrows
    refine (Op.write_meets narrows.shaped.toParallelotope).bind fun _ _ => ?_
    -- The walk goes on with what is left, or stops when that is empty.
    obtain ⟨g, _ | _⟩ := c
    · obtain ⟨regular', hg⟩ := narrows.shaped rfl
      refine (ih regular' hg fun d hd => length d (List.mem_cons_of_mem _ hd)).imp ?_
      intro c rest
      have both := narrows.trans rest
      exact ⟨both.shaped, fun x admits has all => both.keeps x admits has
        (List.forall_mem_cons.mp all), both.within⟩
    · refine Op.meets_pure ⟨nofun, fun x admits has all => ?_, fun x has => narrows.within x has⟩
      exact narrows.keeps x admits has (all (r, I) (List.mem_cons_self ..))

/-! ## Another frame -/

theorem Regular.getD_zipWith_meet {g : Frame} {n : ℕ} (regular : f.Regular n) (hg : g.Regular n) (i : ℕ) :
    (List.zipWith Interval.meet f.ranges g.ranges).getD i .top =
      (f.ranges.getD i .top).meet (g.ranges.getD i .top) := by
  by_cases inside : i < n
  · have hi : i < f.ranges.length := regular.ranges.symm ▸ inside
    have hi' : i < g.ranges.length := hg.ranges.symm ▸ inside
    rw [List.getD_eq_getElem _ _ (by simpa using ⟨hi, hi'⟩), List.getD_eq_getElem _ _ hi,
      List.getD_eq_getElem _ _ hi', List.getElem_zipWith]
  · have outside : n ≤ i := not_lt.mp inside
    rw [List.getD_eq_default _ _ (by simpa [regular.ranges, hg.ranges] using outside),
      List.getD_eq_default _ _ (regular.ranges.symm ▸ outside),
      List.getD_eq_default _ _ (hg.ranges.symm ▸ outside)]
    rfl

theorem Regular.zipWith_meet_has {g : Frame} {n : ℕ} (regular : f.Regular n) (hg : g.Regular n)
    (same : f.axes = g.axes) {x : ℕ → K} :
    Has { f with ranges := List.zipWith Interval.meet f.ranges g.ranges } x ↔ f.Has x ∧ g.Has x := by
  have length : (List.zipWith Interval.meet f.ranges g.ranges).length = f.axes.length := by
    simp [regular.ranges, hg.ranges, regular.axes.shape.length]
  rw [has_iff (f := { f with ranges := _ }) length, has_iff regular.same, has_iff hg.same]
  simp only [regular.getD_zipWith_meet hg, Interval.has_meet, ← same]
  exact forall_and

theorem Regular.meet_meets {g : Frame} (regular : f.Regular s.size) (hf : ordered → f.Ordered)
    (hg : g.Regular s.size) :
    Op.Meets (·.Shaped ordered) (·.Shaped False) False (f.meet cfg s g)
      (f.Narrows s ordered fun x : ℕ → K => g.Has x) := by
  unfold meet
  split
  · rename_i same
    have regular' := regular.setRanges (List.zipWith Interval.meet f.ranges g.ranges)
      (by simp [regular.ranges, hg.ranges])
    have left : Parallelotope.Shaped False
        ⟨s, some { f with ranges := List.zipWith Interval.meet f.ranges g.ranges }⟩ :=
      Parallelotope.shaped_mk regular' False.elim
    refine Op.Meets.bind_total (Op.refit_meets (P := fun _ => True) left trivial) fun _ _ => ?_
    · refine Op.meets_pure (regular'.normalize_narrows (fun x has other => ?_) fun x has => ?_)
      · exact (regular.zipWith_meet_has hg same).mpr ⟨has, other⟩
      · exact ((regular.zipWith_meet_has hg same).mp has).1
  · have length : ∀ d ∈ g.rows, d.1.length = s.size := fun d hd =>
      hg.axes.shape.width d.1 (List.of_mem_zip hd).1
    exact (regular.meetAll_keeps hf length).leaves fun _ => Parallelotope.Shaped.weaken

end Narrowing

end Frame

/-! ## Values -/

namespace Parallelotope

variable {K : Type*} [Field K] [LinearOrder K] {cfg : Settings} {ordered : Prop}

/-- A value that keeps the points of integers with `S` and adds none. -/
structure Narrows (a : Parallelotope) (ordered : Prop) (S : (ℕ → K) → Prop) (b : Parallelotope) :
    Prop where
  space : b.space = a.space
  shaped : b.Shaped ordered
  keeps : ∀ x, a.space.Admits x → a.Has x → S x → b.Has x
  within : ∀ x : ℕ → K, b.Has x → a.Has x

variable {a b : Parallelotope} {S T : (ℕ → K) → Prop}

theorem Narrows.trans {c : Parallelotope} (first : a.Narrows ordered S b)
    (second : b.Narrows ordered T c) : a.Narrows ordered (fun x => S x ∧ T x) c :=
  ⟨second.space.trans first.space, second.shaped,
    fun x admits has both => second.keeps x (first.space ▸ admits)
      (first.keeps x admits has both.1) both.2,
    fun x has => first.within x (second.within x has)⟩

theorem narrows_self (shaped : a.Shaped ordered) : a.Narrows ordered S a :=
  ⟨rfl, shaped, fun _ _ has _ => has, fun _ => id⟩

theorem narrows_toParallelotope {f : Frame} {c : Cut} (ha : a.frame? = some f)
    (narrows : f.Narrows a.space ordered S c) :
    a.Narrows ordered S (c.toParallelotope a.space) := by
  refine ⟨rfl, narrows.shaped.toParallelotope, fun x admits has hS => ?_, fun x has => ?_⟩
  · exact Cut.toParallelotope_has.mpr (narrows.keeps x admits ((has_iff_of_frame ha).mp has) hS)
  · exact (has_iff_of_frame ha).mpr (narrows.within x (Cut.toParallelotope_has.mp has))

variable [IsStrictOrderedRing K]

theorem meetDirection_keeps (shaped : a.Shaped ordered) {r : Vec} (length : r.length = a.space.size)
    (I : Interval) :
    Op.Keeps ordered False (a.meetDirection cfg r I)
      (a.Narrows ordered fun x : ℕ → K => I.Has (r.eval x)) := by
  unfold meetDirection
  cases ha : a.frame? with
  | none => exact Op.meets_pure (narrows_self shaped)
  | some f =>
    obtain ⟨regular, hf⟩ := shaped f ha
    refine (regular.meetDirection_keeps (K := K) hf length I).bind fun c narrows => ?_
    have result := narrows_toParallelotope ha narrows
    exact Op.put_meets result.shaped result

theorem meet_keeps (ha : a.Shaped ordered) (hb : b.Shaped False) (same : a.space = b.space) :
    Op.Keeps ordered False (a.meet cfg b) (a.Narrows ordered fun x : ℕ → K => b.Has x) := by
  unfold meet
  refine (Op.meets_lift_ok (P := fun _ => True) (by rw [checkSpace, if_pos same]) trivial).bind ?_
  intro _ _
  cases hf : a.frame? with
  | none => exact Op.meets_pure (narrows_self ha)
  | some f =>
    obtain ⟨regular, ordered_f⟩ := ha f hf
    cases hg : b.frame? with
    | none =>
      refine Op.move_meets (shaped_bottom _) ⟨rfl, shaped_bottom _, fun x _ _ has => ?_, fun x has => ?_⟩
      · exact absurd has (not_has_of_none hg x)
      · exact absurd has (not_has_of_none rfl x)
    | some g =>
      have regular_g : g.Regular a.space.size := same ▸ (hb g hg).1
      refine (regular.meet_meets (K := K) ordered_f regular_g).bind_total fun c narrows => ?_
      have result := narrows_toParallelotope hf narrows
      refine Op.put_meets result.shaped ⟨result.space, result.shaped, ?_, result.within⟩
      rintro x admits has ⟨g', hg', has'⟩
      obtain rfl : g = g' := Option.some.inj (hg ▸ hg')
      exact result.keeps x admits has has'

theorem tidy_meets {W W' : Parallelotope → Prop} {mayFail : Prop} (ha : a.Shaped False)
    (stays : a.frame? = none → ∀ b, W b → W' b) (good : ∀ b, b.WellFormed → W' b) :
    Op.Meets W W' mayFail (a.tidy cfg) fun b =>
      a.Narrows True (fun _ : ℕ → K => True) b ∧
        ∀ g, b.frame? = some g → ∃ f, a.frame? = some f ∧ g.axes = f.axes := by
  unfold tidy
  cases hf : a.frame? with
  | none =>
    refine (Op.meets_pure ⟨narrows_self (shaped_of_none hf), fun g hg => ?_⟩).leaves (stays hf)
    simp [hf] at hg
  | some f =>
    have narrows : f.Narrows a.space True (fun _ : ℕ → K => True) (f.normalize cfg a.space) :=
      (ha f hf).1.normalize_narrows (fun _ has _ => has) fun _ => id
    have result := narrows_toParallelotope hf narrows
    refine Op.put_meets (good _ result.shaped) ⟨result, fun g hg => ⟨f, rfl, ?_⟩⟩
    obtain ⟨-, rfl⟩ := Cut.eq_of_toParallelotope hg
    rfl

theorem tidy_keeps {mayFail : Prop} (ha : a.Shaped False) :
    Op.Keeps ordered mayFail (a.tidy cfg) fun b =>
      a.Narrows True (fun _ : ℕ → K => True) b ∧
        ∀ g, b.frame? = some g → ∃ f, a.frame? = some f ∧ g.axes = f.axes :=
  tidy_meets ha (fun _ _ => id) fun _ => Shaped.of_true

theorem meetArray_meets {W P : Parallelotope → Prop} {values : List Parallelotope} (h : ∀ a ∈ values, P a)
    (step : ∀ a b, P a → P b → Op.Meets W W True (meet cfg a b) P) :
    Op.Meets W W True (meetArray cfg values) P := by
  cases values with
  | nil => exact Op.meets_throw _ trivial
  | cons a rest =>
    obtain ⟨ha, hrest⟩ := List.forall_mem_cons.mp h
    refine Op.meets_foldlM (fun _ c => P c) ha fun done b c part hc => step c b hc (hrest b ?_)
    exact part.subset (List.mem_append_right _ (List.mem_singleton_self b))

theorem meetArray_keeps {rest : List Parallelotope} (ha : a.Shaped ordered)
    (hrest : ∀ b ∈ rest, b.Shaped False ∧ b.space = a.space) :
    Op.Keeps ordered False (meetArray cfg (a :: rest))
      (a.Narrows ordered fun x : ℕ → K => ∀ b ∈ rest, b.Has x) := by
  change Op.Keeps ordered False (rest.foldlM (meet cfg) a) _
  induction rest generalizing a with
  | nil => exact Op.meets_pure (narrows_self ha)
  | cons b rest ih =>
    obtain ⟨hb, same⟩ := hrest b (List.mem_cons_self ..)
    rw [List.foldlM_cons]
    refine (meet_keeps (K := K) ha hb same.symm).bind fun c first => ?_
    have later : ∀ b ∈ rest, b.Shaped False ∧ b.space = c.space := fun b hb => by
      rw [first.space]
      exact hrest b (List.mem_cons_of_mem _ hb)
    refine (ih first.shaped later).imp fun d second => ?_
    have both := first.trans second
    exact ⟨both.space, both.shaped, fun x admits has all => both.keeps x admits has
      (List.forall_mem_cons.mp all), both.within⟩

/-- Intersection always has a result, which keeps every common point of integers and has no point
that the first operand does not have: with a direction, with a value, and along a list. -/
theorem intersection_keeps_common_points (cfg : Settings) {a₁ a₂ : Parallelotope}
    (h₁ : a₁.WellFormed) (h₂ : a₂.WellFormed) (same : a₁.space = a₂.space) :
    (∀ (r : Vec) (I : Interval), r.length = a₁.space.size →
      (a₁.meetDirection cfg r I).Yields fun b =>
        (∀ x : ℕ → K, a₁.space.Admits x → a₁.Has x → I.Has (r.eval x) → b.Has x) ∧
          ∀ x : ℕ → K, b.Has x → a₁.Has x) ∧
    ((a₁.meet cfg a₂).Yields fun b =>
        (∀ x : ℕ → K, a₁.space.Admits x → a₁.Has x → a₂.Has x → b.Has x) ∧
          ∀ x : ℕ → K, b.Has x → a₁.Has x) ∧
    ∀ rest : List Parallelotope, (∀ a ∈ rest, a.WellFormed ∧ a.space = a₁.space) →
      (meetArray cfg (a₁ :: rest)).Yields fun b =>
        (∀ x : ℕ → K, a₁.space.Admits x → (∀ a ∈ a₁ :: rest, a.Has x) → b.Has x) ∧
          ∀ x : ℕ → K, b.Has x → a₁.Has x := by
  refine ⟨fun r I length => ?_, ?_, fun rest hrest => ?_⟩
  · refine ((meetDirection_keeps (K := K) h₁ length I).imp ?_).yields
    exact fun b narrows => ⟨narrows.keeps, narrows.within⟩
  · refine ((meet_keeps (K := K) h₁ h₂.weaken same).imp ?_).yields
    exact fun b narrows => ⟨narrows.keeps, narrows.within⟩
  · have shapes : ∀ b ∈ rest, b.Shaped False ∧ b.space = a₁.space := fun b hb =>
      ⟨(hrest b hb).1.weaken, (hrest b hb).2⟩
    refine ((meetArray_keeps (K := K) h₁ shapes).imp ?_).yields
    intro b narrows
    refine ⟨fun x admits all => ?_, narrows.within⟩
    obtain ⟨first, others⟩ := List.forall_mem_cons.mp all
    exact narrows.keeps x admits first others

/-- The points with `0 ≤ i + y ≤ 5/2` and `y ≥ 1/4` for an integer `i`. -/
def slantedSample : Parallelotope :=
  ⟨⟨1, 1⟩, some ⟨[[1, 1], [0, 1]], [⟨.fin 0, .fin (5 / 2)⟩, ⟨.fin (1 / 4), .posInf⟩], none⟩⟩

/-- The points with `i - 2 y ≥ -1` and `i ≤ 3` for an integer `i`. -/
def crossingSample : Parallelotope :=
  ⟨⟨1, 1⟩, some ⟨[[1, -2], [1, 0]], [⟨.fin (-1), .posInf⟩, ⟨.negInf, .fin 3⟩], none⟩⟩

theorem slantedSample_wellFormed : slantedSample.WellFormed := by
  refine shaped_mk (Frame.regular_of_invert? ⟨rfl, by decide⟩ rfl ?_) fun _ => ?_
  · decide +kernel
  · decide +kernel

theorem crossingSample_wellFormed : crossingSample.WellFormed := by
  refine shaped_mk (Frame.regular_of_invert? ⟨rfl, by decide⟩ rfl ?_) fun _ => ?_
  · decide +kernel
  · decide +kernel

/-- The point `(1, 1)` is common to both samples and to a direction, and stays. -/
theorem intersection_keeps_common_points_sample :
    (slantedSample.WellFormed ∧ crossingSample.WellFormed) ∧
      (slantedSample.meet {} crossingSample).Yields (·.Has fun _ => (1 : ℚ)) ∧
      (meetArray {} [slantedSample, crossingSample]).Yields (·.Has fun _ => (1 : ℚ)) ∧
      (slantedSample.meetDirection {} [3, 1] ⟨.fin 2, .fin 4⟩).Yields (·.Has fun _ => (1 : ℚ)) := by
  have admits : slantedSample.space.Admits fun _ => (1 : ℚ) := fun _ _ => ⟨1, by simp⟩
  have slanted : slantedSample.Has fun _ => (1 : ℚ) := by
    refine ⟨_, rfl, ?_⟩
    norm_num [Frame.Has, Frame.rows, Interval.Has]
  have crossing : crossingSample.Has fun _ => (1 : ℚ) := by
    refine ⟨_, rfl, ?_⟩
    norm_num [Frame.Has, Frame.rows, Interval.Has]
  have direction : (Interval.mk (.fin 2) (.fin 4)).Has (Vec.eval [3, 1] fun _ => (1 : ℚ)) := by
    norm_num [Interval.Has]
  obtain ⟨directions, values, lists⟩ := intersection_keeps_common_points (K := ℚ) {}
    slantedSample_wellFormed crossingSample_wellFormed rfl
  refine ⟨⟨slantedSample_wellFormed, crossingSample_wellFormed⟩, ?_, ?_, ?_⟩
  · obtain ⟨b, report, run, keeps, -⟩ := values
    exact ⟨b, report, run, keeps _ admits slanted crossing⟩
  · obtain ⟨b, report, run, keeps, -⟩ := lists [crossingSample] fun a ha => by
      rw [List.mem_singleton.mp ha]
      exact ⟨crossingSample_wellFormed, rfl⟩
    refine ⟨b, report, run, keeps _ admits fun a ha => ?_⟩
    rcases List.mem_cons.mp ha with rfl | ha
    · exact slanted
    · rwa [List.mem_singleton.mp ha]
  · obtain ⟨b, report, run, keeps, -⟩ := directions [3, 1] ⟨.fin 2, .fin 4⟩ rfl
    exact ⟨b, report, run, keeps _ admits slanted direction⟩

end Parallelotope

end SkewBox
