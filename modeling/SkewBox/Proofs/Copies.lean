import SkewBox.Proofs.Emptying
import SkewBox.Proofs.ExactUnion
import SkewBox.Proofs.LeastUnion

/-!
# Points of copies and folds

Copies of a dimension may take, at any point, all values that the dimension may take there.  Folding is
the union of what is left of the value with each of the dimensions in the place of the first, so the
result has every point with any of them there.

* `withCopies`: a point with further coordinates.
* `Parallelotope.copies_and_folds_keep_points`: the points that their results have.
-/

namespace SkewBox

open Parallelotope (oldPlaces copyRow copiesAt)

variable {K : Type*}

/-! ## Points with copies -/

/-- The point `x` with the coordinates `y 0`, …, `y (k - 1)` put in before that of dimension `pos`. -/
def withCopies (pos k : ℕ) (y x : ℕ → K) : ℕ → K := fun t =>
  if t < pos then x t else if t < pos + k then y (t - pos) else x (t - k)

theorem withCopies_copy {pos k i : ℕ} (y x : ℕ → K) (hi : i < k) :
    withCopies pos k y x (pos + i) = y i := by
  simp [withCopies, hi]

theorem withCopies_of_lt {pos k t : ℕ} (y x : ℕ → K) (ht : t < pos) : withCopies pos k y x t = x t := by
  simp [withCopies, ht]

theorem withCopies_old {n pos k j : ℕ} (integer : Bool) (y x : ℕ → K) (hj : j < n) :
    withCopies pos k y x
      ((oldPlaces n ((Change.repeated pos k integer).positions.map Int.toNat)).getD j 0) = x j := by
  by_cases before : j < pos
  · have place : (oldPlaces n ((Change.repeated pos k integer).positions.map Int.toNat)).getD j 0 = j := by
      simp [oldPlaces, Change.repeated, hj, before]
    rw [place, withCopies_of_lt _ _ before]
  · have place : (oldPlaces n ((Change.repeated pos k integer).positions.map Int.toNat)).getD j 0 =
        j + k := by
      simp [oldPlaces, Change.repeated, hj, List.countP_replicate, not_lt.mp before]
    have behind : ¬ j + k < pos ∧ ¬ j + k < pos + k := by omega
    rw [place, withCopies, if_neg behind.1, if_neg behind.2, Nat.add_sub_cancel]

theorem update_withCopies {pos k d : ℕ} (before : d < pos) (y x : ℕ → K) (v : K) :
    Function.update (withCopies pos k y x) d v = withCopies pos k y (Function.update x d v) := by
  funext t
  by_cases here : t = d
  · rw [here, Function.update_self, withCopies_of_lt _ _ before, Function.update_self]
  · have behind : ¬ t < pos + k → t - k ≠ d := by omega
    rw [Function.update_of_ne here, withCopies, withCopies, Function.update_of_ne here]
    split_ifs with first second
    · rfl
    · rfl
    · rw [Function.update_of_ne (behind second)]

theorem admits_withCopies [Field K] {s : Space} {d k : ℕ} {x y : ℕ → K} (admits : s.Admits x)
    (whole : ∀ i < k, d < s.ints → ∃ z : ℤ, y i = z) :
    Space.Admits ⟨s.ints + (Change.repeated (copiesAt s d) k (s.isInt d)).ints,
      s.reals + (Change.repeated (copiesAt s d) k (s.isInt d)).reals⟩ (withCopies (copiesAt s d) k y x) := by
  intro t ht
  cases integer : s.isInt d with
  | true =>
    have first : d < s.ints := of_decide_eq_true integer
    simp only [Change.repeated, integer, if_true] at ht
    simp only [copiesAt, integer, if_true, withCopies]
    split_ifs with before
    · exact admits t before
    · exact whole _ (by omega) first
  | false =>
    simp only [Change.repeated, integer, Bool.false_eq_true, if_false, add_zero] at ht
    have before : t < copiesAt s d := by
      simp only [copiesAt, integer, Bool.false_eq_true, if_false, Space.size]
      omega
    rw [withCopies_of_lt _ _ before]
    exact admits t ht

variable [Field K] [LinearOrder K] [IsStrictOrderedRing K]

/-! ## Frames with copies -/

/-- A frame in which the new dimensions take over row `p` has a point if the frame has it, and has it with
each of the new coordinates in the place of the old one. -/
theorem Frame.Regular.copied_has {g h : Frame} {m d p : ℕ} {fresh : List ℕ} (regular : g.Regular m)
    (regular' : h.Regular m) (hd : d < m) (hp : p < m) (out : d ∉ fresh)
    (absent : ∀ t ∈ fresh, g.axes.entry p t = 0)
    (copies : g.SetRows fresh (fun t => copyRow d t (g.axes.getD p [])) (g.ranges.getD p .top) h)
    {z : ℕ → K} (has : g.Has z) (each : ∀ t ∈ fresh, g.Has (Function.update z d (z t))) : h.Has z := by
  rw [regular.has_iff_lt] at has
  rw [regular'.has_iff_lt]
  intro t ht
  by_cases new : t ∈ fresh
  · have width : (g.axes.getD p []).length = m := regular.axes.shape.getD_length hp
    have other : d ≠ t := fun same => out (same ▸ new)
    obtain ⟨row, range⟩ := copies.row t new (regular.axes.shape.length.symm ▸ ht)
      (regular.ranges.symm ▸ ht)
    have value := regular.has_iff_lt.mp (each t new) p hp
    rw [regular.image_update hd hp] at value
    rw [range, Mat.image, row, Vec.eval_copyRow (width.symm ▸ hd) (width.symm ▸ ht) other (absent t new)]
    exact value
  · obtain ⟨row, range⟩ := copies.same t new
    rw [range, Mat.image, row]
    exact has t ht

namespace Parallelotope

variable {a b c : Parallelotope} {cfg : Settings} {d k : ℕ}

/-! ## Expansion -/

theorem copyDimension_eq (cfg : Settings) (b : Parallelotope) (d pos k : ℕ) :
    Op.Meets (fun _ => True) (fun _ => True) True (b.copyDimension cfg d pos k) (Copied cfg b d pos k) := by
  unfold copyDimension
  cases hg : b.frame? with
  | none => exact Op.meets_throw _ trivial
  | some g =>
    apply (Op.meets_lift (fun _ => id) fun _ _ => trivial).bind
    intro rows mentioned
    cases found : g.pivotFor? d rows with
    | none => exact Op.meets_throw _ trivial
    | some p => exact Op.put_meets trivial ⟨g, rows, p, hg, mentioned, found, rfl⟩

/-- The copies have a point that the value has with each of them in the place of the dimension. -/
theorem Copied.has_of_each {pos : ℕ} {integer : Bool} (copied : Copied cfg b d pos k c)
    (ha : a.WellFormed) (extended : a.Extends True (.repeated pos k integer) false K b)
    (hd : d < a.space.size) (before : d < pos) (many : 0 < k) {z : ℕ → K} (admits : b.space.Admits z)
    (has : b.Has z) (each : ∀ i < k, b.Has (Function.update z d (z (pos + i)))) : c.Has z := by
  obtain ⟨g, rows, p, hg, mentioned, found, rfl⟩ := copied
  have regular' := (extended.shaped g hg).1
  obtain ⟨f, h, hf, axes, spread⟩ := extended.axes (by simpa) g hg
  have regular := (ha f hf).1
  obtain ⟨fresh, old⟩ := places_repeated a.space.size pos k integer
  rw [fresh] at spread
  have length : (oldPlaces a.space.size
      ((Change.repeated pos k integer).positions.map Int.toNat)).length = a.space.size := length_oldPlaces ..
  have mem_d := old d hd before ▸ getD_mem (length.symm ▸ hd)
  have small : d < b.space.size := spread.lt_of_mem (List.mem_append_left _ mem_d)
  obtain ⟨rows', mentioned', mem⟩ := regular'.exists_mentioning small
  obtain rfl := Except.ok.inj (mentioned.symm.trans mentioned')
  obtain ⟨hp, pivot⟩ := (mem p).mp (Frame.pivotFor?_mem found)
  have copies := g.setRows_foldl (List.range' pos k) (fun t => copyRow d t (g.axes.getD p []))
    (g.ranges.getD p .top)
  have copied := spread.copied_regular regular length mem_d hp (axes ▸ pivot) axes.symm regular'.ranges
    (by simpa using many.ne') copies
  -- The row that is copied is an old one, so it does not mention the new dimensions.
  have absent : ∀ t ∈ List.range' pos k, g.axes.entry p t = 0 := by
    intro t ht
    obtain ⟨q, hq, rfl⟩ := spread.exists_old mem_d hp (axes ▸ pivot)
    rw [← axes]
    exact spread.entry_fresh regular length (length ▸ hq) ht
  rw [Cut.toParallelotope_has]
  apply Frame.normalize_has admits
  apply regular'.copied_has copied small hp (fun mem => spread.disjoint mem_d mem rfl) absent copies
    ((has_iff_of_frame hg).mp has)
  intro t ht
  obtain ⟨i, hi, rfl⟩ : ∃ i < k, t = pos + i := by
    obtain ⟨low, high⟩ := List.mem_range'_1.mp ht
    exact ⟨t - pos, by omega, by omega⟩
  exact (has_iff_of_frame hg).mp (each i hi)

/-- The value `c` is `a` with copies of dimension `d`, after room was made for them. -/
def Expands (cfg : Settings) (a : Parallelotope) (d k : ℕ) (K : Type*) [Field K] [LinearOrder K]
    (c : Parallelotope) : Prop :=
  ∃ b, a.Extends True (.repeated (copiesAt a.space d) k (a.space.isInt d)) false K b ∧
    Copied cfg b d (copiesAt a.space d) k c

theorem expand_meets {W : Parallelotope → Prop} {mayFail : Prop} {Room Q : Parallelotope → Prop}
    (ha : a.WellFormed) (rows : a.isBottom = false) (hd : d < a.space.size) (many : 0 < k)
    (room : Op.Meets W W mayFail
      (a.addDimensions cfg (.repeated (copiesAt a.space d) k (a.space.isInt d)) false) Room)
    (copies : ∀ b, Room b → Op.Meets W W mayFail (b.copyDimension cfg d (copiesAt a.space d) k) Q) :
    Op.Meets W W mayFail (a.expand cfg (.int d) k) Q := by
  have checked : a.space.check (.int d) = .ok d := Space.check_eq_ok.mpr ⟨rfl, hd⟩
  unfold expand
  apply (Op.meets_lift_ok checked rfl).bind
  rintro _ rfl
  simp only [Int.toNat_natCast, Int.not_ofNat_neg, many.ne', if_false]
  cases hf : a.frame? with
  | none => simp [isBottom, hf] at rows
  | some f =>
    obtain ⟨rows, mentioned, -⟩ := (ha f hf).1.exists_mentioning hd
    apply (Op.meets_lift_ok mentioned rfl).bind
    rintro _ rfl
    exact Op.inexact_if_meets (room.bind copies)

theorem expand_copies (ha : a.WellFormed) (rows : a.isBottom = false) (hd : d < a.space.size)
    (many : 0 < k) : Op.Keeps True True (a.expand cfg (.int d) k) (a.Expands cfg d k K) := by
  apply expand_meets ha rows hd many (addDimensions_keeps (K := K) ha _ false)
  intro b extended
  apply ((copyDimension_meets ha extended hd (lt_copiesAt hd) many fun _ => trivial).and
    (copyDimension_eq cfg b d _ k)).imp
  intro c both
  exact ⟨b, extended, both.2⟩

theorem expand_keeps_points (cfg : Settings) (ha : a.WellFormed) {x₀ : ℕ → K}
    (admits₀ : a.space.Admits x₀) (hx₀ : a.Has x₀) (hd : d < a.space.size) (many : 0 < k) :
    (a.expand cfg (.int d) k).Yields fun c => c.WellFormed ∧
      c.space = ⟨a.space.ints + (Change.repeated (copiesAt a.space d) k (a.space.isInt d)).ints,
        a.space.reals + (Change.repeated (copiesAt a.space d) k (a.space.isInt d)).reals⟩ ∧
      ∀ x y : ℕ → K, a.space.Admits x → a.Has x → (∀ i < k, d < a.space.ints → ∃ z : ℤ, y i = z) →
        (∀ i < k, a.Has (Function.update x d (y i))) →
          c.Has (withCopies (copiesAt a.space d) k y x) := by
  have nonempty : ∀ e : Error, ¬ (e = .fault .sort ∧ a.EmptiesExpanding cfg k) := by
    rintro e ⟨-, -, -, empty⟩
    rw [not_isBottom_of_has ((has_normalize_iff admits₀).mpr hx₀)] at empty
    cases empty
  obtain ⟨c, report, run, hc, -⟩ := (expand_ends ha hd (Int.natCast_nonneg k)).yields nonempty
  obtain ⟨b, extended, copied⟩ :=
    (expand_copies (K := K) ha (not_isBottom_of_has hx₀) hd many).of_start run
  have space : c.space = b.space := by
    obtain ⟨_, _, _, -, -, -, rfl⟩ := copied
    rfl
  refine ⟨c, report, run, hc, space.trans extended.space, fun x y admits hx whole each => ?_⟩
  -- The value with room for the copies has every point of integers with anything there.
  have room : ∀ v : ℕ → K, a.space.Admits v → a.Has v →
      b.space.Admits (withCopies (copiesAt a.space d) k y v) ∧
        b.Has (withCopies (copiesAt a.space d) k y v) := by
    intro v admits hv
    have admits' := admits_withCopies admits whole
    rw [← extended.space] at admits'
    refine ⟨admits', extended.has _ admits' ?_ (by simp)⟩
    obtain ⟨f, hf, hv⟩ := hv
    refine ⟨f, hf, (ha f hf).1.has_congr (fun j hj => ?_) hv⟩
    rw [withCopies_old _ _ _ hj]
  obtain ⟨admits', has⟩ := room x admits hx
  apply copied.has_of_each ha extended hd (lt_copiesAt hd) many admits' has
  intro i hi
  rw [withCopies_copy _ _ hi, update_withCopies (lt_copiesAt hd)]
  apply (room _ _ (each i hi)).2
  intro e he
  by_cases here : e = d
  · rw [here, Function.update_self]
    exact whole i hi (here ▸ he)
  · rw [Function.update_of_ne here]
    exact admits e he

/-! ## Folding -/

/-- The value `b` is what the dimensions of the change leave, and has the points of `a` with dimension `e`
in the place of `d`. -/
def StandsIn (a : Parallelotope) (c : Change) (d e : ℕ) (K : Type*) [Field K] [LinearOrder K]
    (b : Parallelotope) : Prop :=
  ∃ (v : Parallelotope) (ds : List ℕ), v.space = a.space ∧ v.Restricts True c K ds b ∧
    ∀ x : ℕ → K, a.space.Admits x → a.Has x → b.Has fun i => x (Equiv.swap d e ((kept a.space.size ds).getD i 0))

omit [IsStrictOrderedRing K] in
theorem StandsIn.space_eq {change : Change} {d' e e' : ℕ} {b' : Parallelotope}
    (first : a.StandsIn change d e K b) (second : a.StandsIn change d' e' K b') : b.space = b'.space := by
  obtain ⟨v, ds, space, restricts, -⟩ := first
  obtain ⟨v', ds', space', restricts', -⟩ := second
  exact restricts.space_eq restricts' (space.trans space'.symm)

omit [IsStrictOrderedRing K] in
theorem Restricts.standsIn {change : Change} {ds : List ℕ} (restricts : a.Restricts True change K ds b)
    (d : ℕ) : a.StandsIn change d d K b := by
  refine ⟨a, ds, rfl, restricts, fun x admits hx => restricts.has x _ admits hx fun i _ => ?_⟩
  simp

omit [LinearOrder K] [IsStrictOrderedRing K] in
theorem admits_swap {s : Space} {x : ℕ → K} {e : ℕ} (kind : d < s.ints ↔ e < s.ints) (admits : s.Admits x) :
    s.Admits fun j => x (Equiv.swap d e j) := by
  intro t ht
  show ∃ z : ℤ, x (Equiv.swap d e t) = z
  by_cases first : t = d
  · rw [first, Equiv.swap_apply_left]
    exact admits e (kind.mp (first ▸ ht))
  by_cases second : t = e
  · rw [second, Equiv.swap_apply_right]
    exact admits d (kind.mpr (second ▸ ht))
  · rw [Equiv.swap_apply_of_ne_of_ne first second]
    exact admits t ht

theorem foldPart_stands (ha : a.WellFormed) {e : ℕ} (hd : d < a.space.size) (he : e < a.space.size)
    (kind : d < a.space.ints ↔ e < a.space.ints) (change : Change) :
    Op.Keeps True True (a.foldPart cfg change d e) (a.StandsIn change d e K) := by
  unfold foldPart
  apply (forget_keeps (K := K) ha fun _ _ => trivial).bind
  rintro v ⟨_, -, forgets⟩
  cases hf : v.frame? with
  | none => exact Op.meets_throw _ trivial
  | some f =>
    have perm := exchange_perm hd he
    obtain ⟨regular, ordered⟩ := forgets.wellFormed f hf
    rw [forgets.space] at regular
    have length : (exchange a.space.size d e).length = a.space.size := by simp [perm.length_eq]
    have spread : f.Spread a.space.size (exchange a.space.size d e) [] .top _ :=
      regular.spread_permuted perm
    apply (Op.meets_lift_ok (regular.moveChecked_eq length) rfl).bind
    rintro _ rfl
    rw [forgets.space]
    apply (removeDimensions_keeps (K := K) (Shaped.permuted regular ordered perm) change).imp
    rintro b ⟨ds, restricts⟩
    refine ⟨⟨a.space, some _⟩, ds, rfl, restricts, fun x admits hx => ?_⟩
    -- Forgetting keeps the point itself; then its two coordinates are exchanged.
    have kept : f.Has x := (has_iff_of_frame hf).mp (forgets.has x x hx admits (fun _ _ => rfl) (by simp))
    refine restricts.has (fun j => x (Equiv.swap d e j)) _ (admits_swap kind admits) (has_mk.mpr ?_)
      fun _ _ => rfl
    apply spread.has regular length _ (by simp)
    apply regular.has_congr _ kept
    intro j hj
    rw [getD_exchange hd he hj, Equiv.swap_apply_self]

theorem fold_meets {W : Parallelotope → Prop} {mayFail : Prop} {rest : List ℕ}
    {First Q : Parallelotope → Prop} {Part : ℕ → Parallelotope → Prop} (some : rest ≠ [])
    (distinct : (d :: rest).Nodup) (inside : ∀ e ∈ d :: rest, e < a.space.size)
    (kind : (∀ e ∈ d :: rest, e < a.space.ints) ∨ ∀ e ∈ d :: rest, a.space.ints ≤ e)
    (rows : a.isBottom = false)
    (first : Op.Meets W W mayFail (a.removeDimensions cfg (.listing a.space rest)) First)
    (parts : ∀ e ∈ rest, Op.Meets W W mayFail (a.foldPart cfg (.listing a.space rest) d e) (Part e))
    (union : ∀ b others, First b → List.Forall₂ Part rest others →
      Op.Meets W W mayFail (joinArray cfg (b :: others)) Q)
    (left : ∀ b, Q b → W b) :
    Op.Meets W W mayFail (a.fold cfg ((d :: rest).map fun e : ℕ => .int e)) Q := by
  rw [fold_several cfg some distinct inside kind, rows]
  exact unionOfParts_meets first parts union left

theorem fold_stands (ha : a.WellFormed) (rows : a.isBottom = false) {rest : List ℕ} (some : rest ≠ [])
    (distinct : (d :: rest).Nodup) (inside : ∀ e ∈ d :: rest, e < a.space.size)
    (kind : (∀ e ∈ d :: rest, e < a.space.ints) ∨ ∀ e ∈ d :: rest, a.space.ints ≤ e) :
    Op.Keeps True True (a.fold cfg ((d :: rest).map fun e : ℕ => .int e)) fun b => b.WellFormed ∧
      b.space.ints + rest.countP (a.space.isInt ·) = a.space.ints ∧
      b.space.size = (kept a.space.size rest).length ∧
      ∀ e ∈ d :: rest, ∀ x : ℕ → K, a.space.Admits x → a.Has x →
        b.Has fun i => x (Equiv.swap d e ((kept a.space.size rest).getD i 0)) := by
  obtain ⟨hd, hrest⟩ := List.forall_mem_cons.mp inside
  have first : Op.Keeps True True (a.removeDimensions cfg (.listing a.space rest))
      (a.StandsIn (.listing a.space rest) d d K) :=
    (removeDimensions_keeps ha _).imp fun b ⟨ds, restricts⟩ => restricts.standsIn d
  have same : ∀ e ∈ rest, d < a.space.ints ↔ e < a.space.ints := by
    intro e he
    cases kind with
    | inl ints => exact iff_of_true (ints d (by simp)) (ints e (by simp [he]))
    | inr reals => exact iff_of_false (reals d (by simp)).not_gt (reals e (by simp [he])).not_gt
  apply fold_meets some distinct inside kind rows first
    (fun e he => foldPart_stands (K := K) ha hd (hrest e he) (same e he) _)
  · intro b others stands each
    have hb : b.WellFormed := by
      obtain ⟨_, _, -, restricts, -⟩ := stands
      exact restricts.shaped
    have others_wellFormed : ∀ c ∈ others, c.WellFormed ∧ c.space = b.space := by
      intro c hc
      obtain ⟨e, -, stands'⟩ := exists_of_mem_right each hc
      refine ⟨?_, stands'.space_eq stands⟩
      obtain ⟨_, _, -, restricts, -⟩ := stands'
      exact restricts.shaped
    -- The listed dimensions are removed in order, which makes no difference to what is left.
    have perm := List.mergeSort_perm rest (fun x y => decide (x ≤ y))
    have sorted : ∀ {ds}, (Change.listing a.space rest).positions = List.map (fun e : ℕ => (e : ℤ)) ds →
        ds = rest.mergeSort := fun dims => (Nat.cast_injective (R := ℤ)).list_map dims.symm
    have left : kept a.space.size rest.mergeSort = kept a.space.size rest :=
      kept_congr fun j => perm.mem_iff
    have points : ∀ {e c}, a.StandsIn (.listing a.space rest) d e K c → ∀ x : ℕ → K, a.space.Admits x →
        a.Has x → c.Has fun i => x (Equiv.swap d e ((kept a.space.size rest).getD i 0)) := by
      rintro e c ⟨v, ds, -, restricts, has⟩
      rw [sorted restricts.dims, left] at has
      exact has
    have spaces : b.space.ints + rest.countP (a.space.isInt ·) = a.space.ints ∧
        b.space.size = (kept a.space.size rest).length := by
      obtain ⟨v, ds, space, restricts, -⟩ := stands
      have ints := restricts.ints
      have size := restricts.size
      rw [sorted restricts.dims, space] at ints size
      rw [perm.countP_eq] at ints
      exact ⟨ints, left ▸ size⟩
    apply ((joinFrom_total hb others_wellFormed 1).both
      (joinFrom_encloses (K := K) hb others_wellFormed 1) fun _ => id).of_total.imp
    rintro c ⟨⟨hc, space⟩, encloses⟩
    refine ⟨hc, space ▸ spaces.1, space ▸ spaces.2, fun e he x admits hx => ?_⟩
    cases List.mem_cons.mp he with
    | inl here =>
      subst here
      exact encloses b (List.mem_cons_self ..) _ (points stands x admits hx)
    | inr later =>
      obtain ⟨c', mem, stands'⟩ := exists_of_mem_right each.flip later
      exact encloses c' (List.mem_cons_of_mem _ mem) _ (points stands' x admits hx)
  · exact fun b hb => hb.1

/-- A dimension that is forgotten keeps a point of integers, so the parts that are folded have rows. -/
theorem not_emptiesFolding (cfg : Settings) (ha : a.WellFormed) {x : ℕ → K} (admits : a.space.Admits x)
    (hx : a.Has x) {rest : List Datum} {datum : Datum} : ¬ a.EmptiesFolding cfg (datum :: rest) := by
  cases rest with
  | nil => exact id
  | cons other rest =>
    rintro ⟨-, v, report, run, bottom⟩
    have forgets : Op.Keeps True True (a.forget cfg [datum] false) _ :=
      forget_keeps (K := K) ha fun _ _ => trivial
    obtain ⟨ds, -, forgotten⟩ := forgets.of_start run
    rw [not_isBottom_of_has (forgotten.has x x hx admits (fun _ _ => rfl) (by simp))] at bottom
    cases bottom

theorem swap_eq_update {α : Type*} {e t : ℕ} {rest : List ℕ} (he : e ∈ d :: rest) (ht : t ∉ rest)
    (x : ℕ → α) : x (Equiv.swap d e t) = Function.update x d (x e) t := by
  by_cases here : t = d
  · rw [here, Equiv.swap_apply_left, Function.update_self]
  · have other : t ≠ e := by
      rintro rfl
      exact (List.mem_cons.mp he).elim here ht
    rw [Equiv.swap_apply_of_ne_of_ne here other, Function.update_of_ne here]

theorem fold_keeps_points (cfg : Settings) (ha : a.WellFormed) {x₀ : ℕ → K} (admits₀ : a.space.Admits x₀)
    (hx₀ : a.Has x₀) {rest : List ℕ} (distinct : (d :: rest).Nodup)
    (inside : ∀ e ∈ d :: rest, e < a.space.size)
    (kind : (∀ e ∈ d :: rest, e < a.space.ints) ∨ ∀ e ∈ d :: rest, a.space.ints ≤ e) :
    (a.fold cfg ((d :: rest).map fun e : ℕ => .int e)).Yields fun b => b.WellFormed ∧
      b.space.ints + rest.countP (a.space.isInt ·) = a.space.ints ∧
      b.space.size = (kept a.space.size rest).length ∧
      ∀ x : ℕ → K, a.space.Admits x → a.Has x → ∀ e ∈ d :: rest,
        b.Has fun i => Function.update x d (x e) ((kept a.space.size rest).getD i 0) := by
  -- A point of integers keeps the parts from being emptied, so folding returns.
  obtain ⟨b, report, run, hb, -⟩ := (fold_ends ha (by simp) distinct inside kind).yields
    fun e h => not_emptiesFolding cfg ha admits₀ hx₀ h.2
  refine ⟨b, report, run, hb, ?_⟩
  by_cases one : rest = []
  · -- A single dimension stays what it is.
    subst one
    rw [List.map_singleton, fold_single cfg (inside d (by simp))] at run
    obtain rfl : a = b := Except.ok.inj (congrArg Prod.fst run)
    refine ⟨by simp, by simp [kept], fun x admits hx e he => ?_⟩
    obtain rfl : e = d := by simpa using he
    obtain ⟨f, hf, hx⟩ := hx
    refine ⟨f, hf, (ha f hf).1.has_congr (fun i hi => ?_) hx⟩
    simp [kept, hi]
  · obtain ⟨-, ints, size, points⟩ := (fold_stands (K := K) ha (not_isBottom_of_has hx₀) one distinct
      inside kind).of_start run
    refine ⟨ints, size, fun x admits hx e he => ?_⟩
    obtain ⟨f, hf, has⟩ := points e he x admits hx
    refine ⟨f, hf, (hb f hf).1.has_congr (fun i hi => ?_) has⟩
    have left := (mem_kept.mp (getD_mem (size ▸ hi))).2
    exact swap_eq_update he left x

/-- Let `x` be a point of integers of a well-formed value.  Copies of one of its dimensions, put after the
last dimension of its kind, are made; if the value has `x` with `y i` at the dimension, for each copy `i`, the
result has `x` with the numbers `y i` at the copies.  Dimensions of one kind are folded into the first of
them, and the result has `x` with the coordinate of any of them there, without the other coordinates.  The
space grows by the copies, and loses the dimensions that are folded into the first. -/
theorem copies_and_folds_keep_points (cfg : Settings) (ha : a.WellFormed) {x : ℕ → K}
    (admits : a.space.Admits x) (hx : a.Has x) :
    (∀ d < a.space.size, ∀ k : ℕ, 0 < k → ∀ y : ℕ → K,
      (∀ i < k, (d < a.space.ints → ∃ z : ℤ, y i = z) ∧ a.Has (Function.update x d (y i))) →
      (a.expand cfg (.int d) k).Yields fun b =>
        b.space = (if d < a.space.ints then ⟨a.space.ints + k, a.space.reals⟩
          else ⟨a.space.ints, a.space.reals + k⟩) ∧
        b.Has (withCopies (copiesAt a.space d) k y x)) ∧
    ∀ (d : ℕ) (rest : List ℕ), (d :: rest).Nodup → (∀ e ∈ d :: rest, e < a.space.size) →
      ((∀ e ∈ d :: rest, e < a.space.ints) ∨ ∀ e ∈ d :: rest, a.space.ints ≤ e) →
      (a.fold cfg ((d :: rest).map fun e : ℕ => .int e)).Yields fun b =>
        b.space.ints + rest.countP (a.space.isInt ·) = a.space.ints ∧
        b.space.size + rest.length = a.space.size ∧
        ∀ e ∈ d :: rest,
          b.Has fun i => Function.update x d (x e) ((kept a.space.size rest).getD i 0) := by
  constructor
  · intro d hd k many y copies
    obtain ⟨c, report, run, -, space, points⟩ := expand_keeps_points cfg ha admits hx hd many
    refine ⟨c, report, run, ?_,
      points x y admits hx (fun i hi => (copies i hi).1) fun i hi => (copies i hi).2⟩
    rw [space]
    by_cases int : d < a.space.ints
    · simp [Change.repeated, Space.isInt, int]
    · simp [Change.repeated, Space.isInt, int]
  · intro d rest distinct inside kind
    obtain ⟨b, report, run, -, ints, size, points⟩ :=
      fold_keeps_points cfg ha admits hx distinct inside kind
    have total := length_kept (List.nodup_cons.mp distinct).2 fun e he =>
      inside e (List.mem_cons_of_mem d he)
    exact ⟨b, report, run, ints, by omega, points x admits hx⟩

/-- The points with `0 ≤ i + j ≤ 5`, `j + y ≥ 1/2` and `1 ≤ 2 y ≤ 7` for integers `i` and `j`. -/
def ridgeSample : Parallelotope :=
  ⟨⟨2, 1⟩, some ⟨[[1, 1, 0], [0, 1, 1], [0, 0, 2]],
    [⟨.fin 0, .fin 5⟩, ⟨.fin (1 / 2), .posInf⟩, ⟨.fin 1, .fin 7⟩], none⟩⟩

theorem ridgeSample_wellFormed : ridgeSample.WellFormed := by
  refine shaped_mk (Frame.regular_of_invert? ⟨rfl, by decide⟩ rfl ?_) fun _ => ?_
  · decide +kernel
  · decide +kernel

/-- The point `(1, 2, 3)` with copies `0` and `3` of the first dimension, and with the first two dimensions
folded into the second. -/
theorem copies_and_folds_keep_points_sample :
    ridgeSample.WellFormed ∧ (ridgeSample.space.Admits fun t => [(1 : ℚ), 2, 3].getD t 0) ∧
    (ridgeSample.Has fun t => [(1 : ℚ), 2, 3].getD t 0) ∧
    (ridgeSample.expand { precision := .binary64 } (.int 0) 2).Yields (fun b => b.space = ⟨4, 1⟩ ∧
      b.Has (withCopies 2 2 (fun i => [(0 : ℚ), 3].getD i 0) fun t => [(1 : ℚ), 2, 3].getD t 0)) ∧
    (ridgeSample.fold { precision := .binary64 } [.int 1, .int 0]).Yields fun b => ∀ e ∈ [1, 0],
      b.Has fun i => Function.update (fun t => [(1 : ℚ), 2, 3].getD t 0) 1 ([(1 : ℚ), 2, 3].getD e 0)
        ((kept 3 [0]).getD i 0) := by
  have admits : ridgeSample.space.Admits fun t => [(1 : ℚ), 2, 3].getD t 0 := by
    intro t ht
    have known : t = 0 ∨ t = 1 := by
      have small : t < 2 := ht
      omega
    cases known with
    | inl first => exact ⟨1, by simp [first]⟩
    | inr second => exact ⟨2, by simp [second]⟩
  have has : ridgeSample.Has fun t => [(1 : ℚ), 2, 3].getD t 0 := by
    refine ⟨_, rfl, ?_⟩
    norm_num [Frame.Has, Frame.rows, Interval.Has]
  obtain ⟨copies, folds⟩ := copies_and_folds_keep_points { precision := .binary64 }
    ridgeSample_wellFormed admits has
  refine ⟨ridgeSample_wellFormed, admits, has, ?_, ?_⟩
  · apply copies 0 (by decide) 2 (by decide)
    intro i hi
    have known : i = 0 ∨ i = 1 := by omega
    cases known with
    | inl first =>
      refine ⟨fun _ => ⟨0, by simp [first]⟩, _, rfl, ?_⟩
      norm_num [first, Frame.Has, Frame.rows, Interval.Has]
    | inr second =>
      refine ⟨fun _ => ⟨3, by simp [second]⟩, _, rfl, ?_⟩
      norm_num [second, Frame.Has, Frame.rows, Interval.Has]
  · obtain ⟨b, report, run, -, -, has⟩ := folds 1 [0] (by decide) (by decide) (.inl (by decide))
    exact ⟨b, report, run, has⟩

end Parallelotope

end SkewBox
