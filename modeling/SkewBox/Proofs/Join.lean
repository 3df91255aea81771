import SkewBox.Join
import SkewBox.Proofs.Bounds
import SkewBox.Proofs.Reshape

/-!
# Unions in shape

An enclosure of a union keeps the axes of the first value, so only the ranges have to be looked at:
they stay as many as the axes, and their ends stay in order.

* `Parallelotope.Shaped.setRanges`: new ranges for the axes of a frame.
* `Frame.RangesOver`, `Parallelotope.rangesOver_eq`: the ranges of axes over another frame.
* `Parallelotope.joinAt_keeps`, `joinArray_keeps`, `addRays_keeps`: unions and rays.
* `Parallelotope.fold_keeps`: dimensions folded into one.
-/

namespace SkewBox

/-! ## Ranges -/

theorem Interval.join_ordered {I J : Interval} (hI : I.lo ≤ I.hi) (hJ : J.lo ≤ J.hi) :
    (I.join J).lo ≤ (I.join J).hi := by
  simp only [join, isBottom_eq_false_iff.mpr hI, isBottom_eq_false_iff.mpr hJ, Bool.false_eq_true,
    if_false]
  exact (min_le_left _ _).trans (hI.trans (le_max_left _ _))

theorem zipWith_ordered {α : Type} {P : α → Prop} {step : α → Interval → Interval}
    (keeps : ∀ a I, P a → I.lo ≤ I.hi → (step a I).lo ≤ (step a I).hi) {as : List α}
    {Is : List Interval} (has : ∀ a ∈ as, P a) (hIs : ∀ I ∈ Is, I.lo ≤ I.hi) :
    ∀ I ∈ List.zipWith step as Is, I.lo ≤ I.hi := by
  induction as generalizing Is with
  | nil => simp
  | cons a as ih =>
    cases Is with
    | nil => simp
    | cons I Is =>
      obtain ⟨ha, has⟩ := List.forall_mem_cons.mp has
      obtain ⟨hI, hIs⟩ := List.forall_mem_cons.mp hIs
      exact List.forall_mem_cons.mpr ⟨keeps a I ha hI, ih has hIs⟩

namespace Frame

variable {f g : Frame} {n : ℕ} {cfg : Settings}

theorem boundDirection_ordered {r : Vec} {I : Interval} (h : f.boundDirection cfg r = .ok I)
    (ordered : f.Ordered) : I.lo ≤ I.hi := by
  obtain ⟨lam, -, same⟩ := bind_eq_ok.mp h
  obtain rfl := Except.ok.inj same
  exact cfg.precision.dot_ordered lam ordered

/-- The intervals are the ranges of the axes of `f` over `g`, found with some inverse of the axes
of `g`. -/
def RangesOver (cfg : Settings) (n : ℕ) (g f : Frame) (Is : List Interval) : Prop :=
  ∃ w, Regular { g with inverse? := w } n ∧
    List.Forall₂ (fun row I => boundDirection cfg { g with inverse? := w } row = .ok I) f.axes Is

namespace RangesOver

variable {Is : List Interval}

theorem length (ranges : RangesOver cfg n g f Is) (shape : f.axes.HasShape n n) : Is.length = n := by
  obtain ⟨w, -, each⟩ := ranges
  exact each.length_eq.symm.trans shape.length

theorem ordered (ranges : RangesOver cfg n g f Is) (ordered : g.Ordered) : ∀ I ∈ Is, I.lo ≤ I.hi := by
  obtain ⟨w, -, each⟩ := ranges
  intro I hI
  obtain ⟨row, -, bounded⟩ := exists_of_mem_right each hI
  exact boundDirection_ordered bounded ordered

theorem bounded (ranges : RangesOver cfg n g f Is) (shape : f.axes.HasShape n n) {i : ℕ} (hi : i < n) :
    ∃ w, Regular { g with inverse? := w } n ∧
      boundDirection cfg { g with inverse? := w } (f.axes.getD i []) = .ok (Is.getD i .top) := by
  have length := ranges.length shape
  obtain ⟨w, regular, each⟩ := ranges
  refine ⟨w, regular, ?_⟩
  have row := each.get (i := i) (by rw [shape.length]; exact hi) (by rw [length]; exact hi)
  rwa [List.getD_eq_getElem _ _ (by rw [shape.length]; exact hi),
    List.getD_eq_getElem _ _ (by rw [length]; exact hi)]

theorem has {K : Type*} [Field K] [LinearOrder K] [IsStrictOrderedRing K]
    (ranges : RangesOver cfg n g f Is) (shape : f.axes.HasShape n n) {x : ℕ → K} (hx : g.Has x)
    (i : ℕ) : (Is.getD i .top).Has (f.axes.image x i) := by
  by_cases hi : i < n
  · obtain ⟨w, regular, bounded⟩ := ranges.bounded shape hi
    obtain ⟨I, bounded', has⟩ := regular.exists_boundDirection (K := K) cfg (shape.getD_length hi)
    obtain rfl := Except.ok.inj (bounded.symm.trans bounded')
    exact has x hx
  · rw [List.getD_eq_default _ _ (by rw [ranges.length shape]; omega)]
    exact Interval.top_has

theorem boundDirection_eq (ranges : RangesOver cfg n g f Is) (shape : f.axes.HasShape n n)
    (regular : g.Regular n) {i : ℕ} (hi : i < n) :
    g.boundDirection cfg (f.axes.getD i []) = .ok (Is.getD i .top) := by
  obtain ⟨w, regular', bounded⟩ := ranges.bounded shape hi
  simp only [boundDirection, coords, regular.solve_eq regular'] at bounded ⊢
  exact bounded

theorem regular_zipWith (ranges : RangesOver cfg n g f Is) (regular : f.Regular n)
    (step : Interval → Interval → Interval) :
    Regular { f with ranges := List.zipWith step f.ranges Is } n :=
  regular.setRanges _ (by simp [regular.ranges, ranges.length regular.axes.shape])

theorem getD_zipWith (ranges : RangesOver cfg n g f Is) (regular : f.Regular n)
    (step : Interval → Interval → Interval) {i : ℕ} (hi : i < n) :
    (List.zipWith step f.ranges Is).getD i .top = step (f.ranges.getD i .top) (Is.getD i .top) := by
  have length := ranges.length regular.axes.shape
  have hi' : i < f.ranges.length := regular.ranges.symm ▸ hi
  rw [List.getD_eq_getElem _ _ (by simp [length, hi, hi']), List.getElem_zipWith,
    List.getD_eq_getElem _ _ hi', List.getD_eq_getElem _ _ (length.symm ▸ hi)]

end RangesOver

end Frame

namespace Parallelotope

variable {a b : Parallelotope} {cfg : Settings} {W : Parallelotope → Prop} {mayFail : Prop}

theorem Shaped.setRanges {f : Frame} (ha : a.Shaped False) (hf : a.frame? = some f) {ordered : Prop}
    {Is : List Interval} (length : Is.length = a.space.size) (hIs : ordered → ∀ I ∈ Is, I.lo ≤ I.hi) :
    Shaped ordered ⟨a.space, some { f with ranges := Is }⟩ :=
  shaped_mk ((ha f hf).1.setRanges Is length) hIs

/-! ## Unions -/

theorem rangesOver_eq {f g : Frame} {n : ℕ} (shape : f.axes.HasShape n n) (hg : g.Regular n) :
    Op.Meets W W mayFail (rangesOver cfg g f) (g.RangesOver cfg n f) := by
  unfold rangesOver
  split
  · rename_i empty
    refine Op.meets_pure ⟨g.inverse?, hg, ?_⟩
    rw [List.isEmpty_iff.mp empty]
    exact .nil
  · refine (Op.invert_meets hg).bind ?_
    rintro _ ⟨w, regular, rfl⟩
    refine (Op.meets_mapM fun row hrow => ?_).imp fun Is each => ⟨some w, regular, each⟩
    obtain ⟨I, bounded, -⟩ := regular.exists_boundDirection (K := ℚ) cfg (shape.width row hrow)
    exact Op.meets_lift_ok bounded bounded

theorem rangesOver_meets {f g : Frame} {n : ℕ} (shape : f.axes.HasShape n n) (hg : g.Regular n)
    (ordered : g.Ordered) :
    Op.Meets W W mayFail (rangesOver cfg g f) fun Is => Is.length = n ∧ ∀ I ∈ Is, I.lo ≤ I.hi :=
  (rangesOver_eq shape hg).imp fun _ ranges => ⟨ranges.length shape, ranges.ordered ordered⟩

theorem leq_meets_of (inverts : ∀ f, a.frame? = some f → Op.Meets W W True (Op.invert f) fun _ => True) :
    Op.Meets W W True (a.leq cfg b) fun _ => True := by
  unfold leq
  refine (Op.lift_meets _).bind fun _ _ => ?_
  split
  · exact Op.meets_pure trivial
  · exact Op.meets_pure trivial
  · rename_i f g hf hg
    split
    · exact Op.meets_pure trivial
    · exact (inverts f hf).bind fun _ _ => Op.lift_meets _

theorem leq_meets (ha : a.Shaped False) : Op.Meets W W True (a.leq cfg b) fun _ => True :=
  leq_meets_of fun f hf => (Op.invert_meets (ha f hf).1).imp fun _ _ => trivial

theorem joinAt_meets (ha : a.WellFormed) (hb : b.WellFormed) (k : ℕ)
    (spaces : a.space ≠ b.space → mayFail)
    (asks : Op.Keeps True mayFail (b.leq cfg a) fun _ => True) :
    Op.Keeps True mayFail (joinAt cfg k a b) fun c => c.WellFormed ∧ c.space = a.space := by
  unfold joinAt
  refine (Op.meets_lift (fun _ checked => checkSpace_eq_ok checked) fun e refused => spaces ?_).bind
    fun _ space => ?_
  · intro same
    rw [checkSpace, if_pos same] at refused
    cases refused
  split
  · exact Op.meets_pure ⟨ha, rfl⟩
  · exact Op.move_meets hb ⟨hb, space.symm⟩
  · rename_i f g hf hg
    obtain ⟨regular, ordered⟩ := ha f hf
    obtain ⟨regular', ordered'⟩ := hb g hg
    rw [← space] at regular'
    refine (Op.about_meets asks).bind fun inside _ => ?_
    -- Both answers of the test lead here; they differ in the mark only.
    have enclose : Op.Keeps True mayFail (do
        let other ← Op.about k (rangesOver cfg g f)
        Op.refit a.space { f with ranges := List.zipWith Interval.join f.ranges other })
        fun c => c.WellFormed ∧ c.space = a.space := by
      refine (Op.about_meets (rangesOver_meets regular.axes.shape regular' (ordered' trivial))).bind ?_
      rintro Is ⟨length, hIs⟩
      have shaped : WellFormed ⟨a.space, some { f with ranges := List.zipWith Interval.join f.ranges Is }⟩ :=
        ha.weaken.setRanges hf (by simp [regular.ranges, length]) fun _ =>
          zipWith_ordered (fun _ _ => Interval.join_ordered) (ordered trivial) hIs
      exact Op.refit_meets shaped ⟨shaped, rfl⟩
    cases inside with
    | false => exact Op.inexact_meets.bind fun _ _ => enclose
    | true => exact enclose

theorem joinAt_keeps (ha : a.WellFormed) (hb : b.WellFormed) (k : ℕ) :
    Op.Keeps True True (joinAt cfg k a b) (·.WellFormed) :=
  (joinAt_meets ha hb k (fun _ => trivial) (leq_meets hb.weaken)).imp fun _ h => h.1

theorem joinArray_meets {W P : Parallelotope → Prop} {values : List Parallelotope} (h : ∀ a ∈ values, P a)
    (step : ∀ a b k, P a → P b → Op.Meets W W True (joinAt cfg k a b) P) :
    Op.Meets W W True (joinArray cfg values) P := by
  suffices general : ∀ (rest : List Parallelotope) (k : ℕ) (a : Parallelotope), P a →
      (∀ b ∈ rest, P b) → Op.Meets W W True (joinFrom cfg k a rest) P by
    cases values with
    | nil => exact Op.meets_throw _ trivial
    | cons a rest =>
      obtain ⟨ha, hrest⟩ := List.forall_mem_cons.mp h
      exact general rest 1 a ha hrest
  intro rest
  induction rest with
  | nil => exact fun k a ha _ => Op.meets_pure ha
  | cons b rest ih =>
    intro k a ha hrest
    obtain ⟨hb, hrest⟩ := List.forall_mem_cons.mp hrest
    exact (step a b k ha hb).bind fun c hc => ih (k + 1) c hc hrest

theorem joinArray_keeps {values : List Parallelotope} (h : ∀ a ∈ values, a.WellFormed) :
    Op.Keeps True True (joinArray cfg values) (·.WellFormed) :=
  joinArray_meets h fun _ _ k ha hb => joinAt_keeps ha hb k

/-! ## Rays and lines -/

theorem extend_ordered (line : Bool) (v : ℚ) {I : Interval} (ordered : I.lo ≤ I.hi) :
    (extend line v I).lo ≤ (extend line v I).hi := by
  unfold extend
  split
  · exact ordered
  · split <;> split <;> simp [ordered]

theorem addRay_keeps {f : Frame} {n : ℕ} (regular : f.Regular n) (ordered : f.Ordered) (g : Generator) :
    Op.Meets W W mayFail (addRay f g) fun h => h.Regular n ∧ h.Ordered := by
  unfold addRay
  have length : (List.zipWith (extend (decide (g.kind = .line))) (Mat.mulVec f.axes g.coords)
      f.ranges).length = n := by
    simp [Mat.mulVec, regular.axes.shape.length, regular.ranges]
  have shaped := regular.setRanges _ length
  have ordered' : ∀ I ∈ List.zipWith (extend (decide (g.kind = .line))) (Mat.mulVec f.axes g.coords)
      f.ranges, I.lo ≤ I.hi :=
    zipWith_ordered (P := fun _ => True) (fun v _ _ => extend_ordered _ v) (fun _ _ => trivial) ordered
  dsimp only
  split
  · exact Op.inexact_meets.bind fun _ _ => Op.meets_pure ⟨shaped, ordered'⟩
  · exact Op.meets_pure ⟨shaped, ordered'⟩

theorem addRays_keeps (ha : a.WellFormed) (gens : List Generator) :
    Op.Keeps True True (a.addRays gens) (·.WellFormed) := by
  unfold addRays
  refine (Op.meets_forM (R := fun _ => True) fun g _ =>
    Op.lift_meets _).bind fun _ _ => ?_
  cases hf : a.frame? with
  | none => exact Op.meets_pure ha
  | some f =>
    obtain ⟨regular, ordered⟩ := ha f hf
    refine (Op.meets_foldlM (fun _ h => h.Regular a.space.size ∧ h.Ordered)
      ⟨regular, ordered trivial⟩ fun _ g h _ hh => addRay_keeps hh.1 hh.2 g).bind ?_
    rintro h ⟨regular', ordered'⟩
    have shaped : WellFormed ⟨a.space, some h⟩ := shaped_mk regular' fun _ => ordered'
    exact Op.put_meets shaped shaped

/-! ## Folding -/

theorem foldPart_keeps (ha : a.WellFormed) {target d : ℕ} (ht : target < a.space.size)
    (hd : d < a.space.size) (c : Change) :
    Op.Keeps True True (a.foldPart cfg c target d) (·.WellFormed) := by
  unfold foldPart
  refine (forget_keeps (K := ℚ) ha fun _ _ => trivial).bind ?_
  rintro v ⟨ds, -, forgets⟩
  cases hf : v.frame? with
  | none => exact Op.meets_throw _ trivial
  | some f =>
    have perm := exchange_perm ht hd
    obtain ⟨regular, ordered⟩ := forgets.wellFormed f hf
    rw [forgets.space] at regular
    refine (Op.meets_lift_ok (regular.moveChecked_eq (by simp [perm.length_eq])) rfl).bind ?_
    rintro _ rfl
    rw [forgets.space]
    refine (removeDimensions_keeps (K := ℚ) (Shaped.permuted regular ordered perm) c).imp ?_
    rintro b ⟨ds', restricts⟩
    exact restricts.shaped

/-- Dimensions are folded into `d` by a union of what is left of the value and of the parts of the others. -/
theorem unionOfParts_meets {d : ℕ} {rest : List ℕ} {First Q : Parallelotope → Prop}
    {Part : ℕ → Parallelotope → Prop}
    (first : Op.Meets W W mayFail (a.removeDimensions cfg (.listing a.space rest)) First)
    (parts : ∀ e ∈ rest, Op.Meets W W mayFail (a.foldPart cfg (.listing a.space rest) d e) (Part e))
    (union : ∀ b others, First b → List.Forall₂ Part rest others →
      Op.Meets W W mayFail (joinArray cfg (b :: others)) Q)
    (left : ∀ b, Q b → W b) :
    Op.Meets W W mayFail (do
      let folded ← Op.aside do
        let first ← a.removeDimensions cfg (.listing a.space rest)
        let others ← rest.mapM (a.foldPart cfg (.listing a.space rest) d)
        joinArray cfg (first :: others)
      Op.move folded) Q := by
  have joined : Op.Meets W W mayFail (do
      let first ← a.removeDimensions cfg (.listing a.space rest)
      let others ← rest.mapM (a.foldPart cfg (.listing a.space rest) d)
      joinArray cfg (first :: others)) Q := by
    apply first.bind
    intro b hb
    apply (Op.meets_mapM parts).bind
    intro others each
    exact union b others hb each
  exact (Op.aside_meets joined).bind fun b hb => Op.move_meets (left b hb) hb

theorem fold_keeps (ha : a.WellFormed) (data : List Datum) :
    Op.Keeps True True (a.fold cfg data) (·.WellFormed) := by
  unfold fold
  by_cases none : data.isEmpty
  · simp only [if_pos none]
    exact Op.meets_throw_bind _ trivial
  simp only [if_neg none]
  refine (Op.meets_lift (fun _ checked => Space.checkDistinct_eq_ok.mp checked)
    fun _ _ => trivial).bind ?_
  rintro dims ⟨-, -, inside⟩
  by_cases mixed : (dims.any (a.space.isInt ·) && dims.any (!a.space.isInt ·)) = true
  · simp only [if_pos mixed]
    exact Op.meets_throw_bind _ trivial
  simp only [if_neg mixed]
  match dims with
  | [] => exact Op.meets_pure ha
  | [_] => exact Op.meets_pure ha
  | d :: d' :: rest =>
    obtain ⟨hd, hrest⟩ := List.forall_mem_cons.mp inside
    have first : Op.Keeps True True (a.removeDimensions cfg (.listing a.space (d' :: rest)))
        (·.WellFormed) :=
      (removeDimensions_keeps (K := ℚ) ha _).imp fun b ⟨_, restricts⟩ => restricts.shaped
    dsimp only
    split
    · exact first
    · apply unionOfParts_meets first (fun e he => foldPart_keeps ha hd (hrest e he) _)
      · intro b others hb each
        apply joinArray_keeps
        apply List.forall_mem_cons.mpr ⟨hb, ?_⟩
        intro c hc
        obtain ⟨_, -, hc⟩ := exists_of_mem_right each hc
        exact hc
      · exact fun _ => id

end Parallelotope

end SkewBox
