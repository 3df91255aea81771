import SkewBox.Proofs.ExactForget
import SkewBox.Proofs.Reshape

/-!
# Changes of dimensions that lose nothing

Moving rows with their dimensions loses nothing, and neither does dropping rows that read the
dimensions which go, or copying a row that alone mentions a dimension.

* `Parallelotope.ExtendsOnly`, `RestrictsOnly`: values with dimensions added and removed.
* `Parallelotope.addDimensions_lossless`, `removeDimensions_lossless`, `permute_lossless`,
  `expand_lossless`: the operations.
-/

namespace SkewBox

open Parallelotope (oldPlaces freshPlaces insertInto without removeRows copyRow)

variable {K : Type*} [Field K] [LinearOrder K] [IsStrictOrderedRing K]

/-! ## Insertion -/

theorem Space.integral_eq_false {s : Space} {row : Vec} {j : ℕ} (real : s.ints ≤ j)
    (nonzero : row.getD j 0 ≠ 0) : s.integral row = false := by
  have hj : j < row.length := by
    by_contra beyond
    exact nonzero (List.getD_eq_default _ _ (not_lt.mp beyond))
  rw [Bool.eq_false_iff]
  intro all
  have entry := List.all_eq_true.mp all (row[j], j)
    (List.mem_zipIdx_iff_getElem?.mpr (List.getElem?_eq_getElem hj))
  rw [List.getD_eq_getElem _ _ hj] at nonzero
  simp only [nonzero, isInt, decide_false, Bool.false_or, Bool.and_eq_true, decide_eq_true_eq] at entry
  omega

namespace Frame

variable {f g : Frame} {s : Space} {n : ℕ} {old fresh : List ℕ} {I : Interval}

theorem Regular.exists_coeff_ne_zero (regular : f.Regular n) {i : ℕ} (hi : i < n) :
    ∃ j < n, f.axes.entry i j ≠ 0 := by
  by_contra none
  push Not at none
  obtain ⟨x, image⟩ := regular.exists_image fun _ => (1 : ℚ)
  have zero : f.axes.image x i = 0 := by
    rw [regular.axes.shape.image_eq_sum hi]
    exact Finset.sum_eq_zero fun j hj => by rw [none j (Finset.mem_range.mp hj)]; simp
  exact one_ne_zero ((image i hi).symm.trans zero)

theorem Spread.entry_old {m : ℕ} (spread : f.Spread m old fresh I g) (regular : f.Regular n)
    (length : old.length = n) {i j : ℕ} (hi : i < n) (hj : j < n) :
    g.axes.entry (old.getD i 0) (old.getD j 0) = f.axes.entry i j := by
  have distinct : old.Nodup :=
    (spread.places.nodup_iff.mpr List.nodup_range).sublist (List.sublist_append_left ..)
  rw [Mat.entry, (spread.moved i (length.symm ▸ hi)).1]
  refine getD_place distinct (fun t ht => spread.lt_of_mem (List.mem_append_left _ ht))
    (length.symm ▸ hj) ?_ 0
  rw [regular.axes.shape.getD_length hi]
  exact hj

theorem tighten_of_fixed {cfg : Settings} (fixed : I.tighten = I) (row : Vec) :
    tighten cfg s row I = I := by
  unfold tighten
  split
  · exact fixed
  · rfl

theorem Spread.tighten_eq (cfg : Settings) (spread : f.Spread s.size old fresh I g) (regular : f.Regular n)
    (length : old.length = n) (reals : ∀ t ∈ old, s.ints ≤ t) (hI : I.tighten = I) :
    ∀ d ∈ g.rows, tighten cfg s d.1 d.2 = d.2 := by
  intro d hd
  obtain ⟨t, ht, rfl⟩ := List.mem_iff_getElem.mp hd
  have haxes : t < g.axes.length := by simp [rows] at ht; exact ht.1
  have hranges : t < g.ranges.length := by simp [rows] at ht; exact ht.2
  simp only [rows, List.getElem_zip, ← List.getD_eq_getElem _ [] haxes,
    ← List.getD_eq_getElem _ .top hranges]
  cases spread.cases (spread.axes ▸ haxes) with
  | inl moved =>
    obtain ⟨i, hi, rfl⟩ := moved
    obtain ⟨j, hj, nonzero⟩ := regular.exists_coeff_ne_zero (length ▸ hi)
    have entry := spread.entry_old regular length (length ▸ hi) hj
    have hj' : j < old.length := length.symm ▸ hj
    have notIntegral := s.integral_eq_false (reals _ (getD_mem hj')) (entry.trans_ne nonzero)
    simp only [tighten, notIntegral, Bool.and_false, Bool.false_eq_true, if_false]
  | inr unit =>
    rw [(spread.unit t unit).2, tighten_of_fixed hI]

end Frame

namespace Parallelotope

variable {cfg : Settings}

omit [IsStrictOrderedRing K] in
theorem freshRange_has_iff {project : Bool} {v : K} : (freshRange project).Has v ↔ (project → v = 0) := by
  refine ⟨fun has h => ?_, freshRange_has⟩
  subst h
  exact has.eq_zero rfl

theorem freshRange_tighten (project : Bool) : (freshRange project).tighten = freshRange project := by
  cases project <;> decide

theorem freshRange_filled (project : Bool) : (freshRange project).Filled := by
  cases project <;> decide

theorem oldPlaces_integer {s : Space} {c : Change}
    (checked : ∀ entry ∈ c.positions.zipIdx, checkInsertion s c entry.2 entry.1 = .ok ()) {j : ℕ}
    (hj : j < s.size) :
    (oldPlaces s.size (c.positions.map Int.toNat)).getD j 0 < s.ints + c.ints ↔ j < s.ints := by
  have place : (oldPlaces s.size (c.positions.map Int.toNat)).getD j 0 =
      j + (c.positions.map Int.toNat).countP (· ≤ j) := by simp [oldPlaces, hj]
  have sides : ∀ i (hi : i < c.positions.length),
      if i < c.ints then c.positions[i] ≤ s.ints else s.ints ≤ c.positions[i] := fun i hi =>
    (checkInsertion_eq_ok_iff.mp (checked (c.positions[i], i)
      (List.mem_zipIdx_iff_getElem?.mpr (List.getElem?_eq_getElem hi)))).2.2
  have count := c.count
  rw [place]
  by_cases integer : j < s.ints
  · -- The positions of real dimensions lie behind `j`.
    have few : (c.positions.map Int.toNat).countP (· ≤ j) ≤ c.ints := by
      by_cases some : c.ints < c.positions.length
      · have side := sides c.ints some
        rw [if_neg (lt_irrefl _)] at side
        exact countP_le_of_lt c.ascending_toNat (by simpa using some) (by rw [List.getElem_map]; omega)
      · exact List.countP_le_length.trans (by simpa using some)
    omega
  · -- The positions of integer dimensions all count.
    have many : c.ints ≤ (c.positions.map Int.toNat).countP (· ≤ j) := by
      by_cases none : c.ints = 0
      · omega
      · have last : c.ints - 1 < c.positions.length := by omega
        have side := sides (c.ints - 1) last
        rw [if_pos (by omega)] at side
        have early := lt_countP_of_le c.ascending_toNat (i := c.ints - 1) (j := j) (by simpa using last)
          (by rw [List.getElem_map]; omega)
        omega
    omega

theorem ints_le_of_mem_oldPlaces {s : Space} (real : s.ints = 0) {c : Change}
    (checked : ∀ entry ∈ c.positions.zipIdx, checkInsertion s c entry.2 entry.1 = .ok ()) {t : ℕ}
    (ht : t ∈ oldPlaces s.size (c.positions.map Int.toNat)) : c.ints ≤ t := by
  obtain ⟨j, hj, rfl⟩ := List.mem_iff_getElem.mp ht
  have integer := oldPlaces_integer checked (j := j) (by simpa using hj)
  rw [List.getD_eq_getElem _ _ hj] at integer
  omega

/-- The value `b` has exactly the points that read those of `a` at the old places, with anything at
the new ones, or with zeros there when projecting. -/
structure ExtendsOnly (a : Parallelotope) (c : Change) (project : Bool) (K : Type*) [Field K]
    [LinearOrder K] (b : Parallelotope) : Prop where
  space : b.space = ⟨a.space.ints + c.ints, a.space.reals + c.reals⟩
  solid : c.ints = 0 → b.Solid
  has : ∀ y : ℕ → K, b.Has y ↔
    (a.Has fun j => y ((oldPlaces a.space.size (c.positions.map Int.toNat)).getD j 0)) ∧
      (project → ∀ t ∈ freshPlaces (c.positions.map Int.toNat), y t = 0)
  frame : 0 < c.size → ∀ g, b.frame? = some g → ∃ f, a.frame? = some f ∧
    f.Spread b.space.size (oldPlaces a.space.size (c.positions.map Int.toNat))
      (freshPlaces (c.positions.map Int.toNat)) (freshRange project) g

theorem places_of_checked {s : Space} {c : Change}
    (checked : ∀ entry ∈ c.positions.zipIdx, checkInsertion s c entry.2 entry.1 = .ok ()) :
    (oldPlaces s.size (c.positions.map Int.toNat) ++ freshPlaces (c.positions.map Int.toNat)).Perm
      (List.range (Space.size ⟨s.ints + c.ints, s.reals + c.reals⟩)) := by
  rw [Space.size_add]
  refine places_perm fun pos hpos => ?_
  obtain ⟨i, hi, rfl⟩ := List.mem_iff_getElem.mp hpos
  exact checkInsertion_eq_ok (checked (c.positions[i], i)
    (List.mem_zipIdx_iff_getElem?.mpr (List.getElem?_eq_getElem hi)))

theorem extendsOnly_of_spread (cfg : Settings) {a : Parallelotope} {c : Change} {project : Bool}
    {f g : Frame} (hf : a.frame? = some f) (solid : f.Solid a.space)
    (checked : ∀ entry ∈ c.positions.zipIdx, checkInsertion a.space c entry.2 entry.1 = .ok ())
    (spread : f.Spread (Space.size ⟨a.space.ints + c.ints, a.space.reals + c.reals⟩)
      (oldPlaces a.space.size (c.positions.map Int.toNat))
      (freshPlaces (c.positions.map Int.toNat)) (freshRange project) g) :
    a.ExtendsOnly c project K
      ((g.normalize cfg ⟨a.space.ints + c.ints, a.space.reals + c.reals⟩).toParallelotope
        ⟨a.space.ints + c.ints, a.space.reals + c.reals⟩) := by
  obtain ⟨real, regular, filled⟩ := solid
  have length : (oldPlaces a.space.size (c.positions.map Int.toNat)).length = a.space.size :=
    length_oldPlaces ..
  -- The old rows stay over real dimensions, so nothing is rounded although integer ones may be added.
  have reals : ∀ t ∈ oldPlaces a.space.size (c.positions.map Int.toNat), a.space.ints + c.ints ≤ t := by
    intro t ht
    rw [real, zero_add]
    exact ints_le_of_mem_oldPlaces real checked ht
  have fixed := spread.tighten_eq cfg regular length reals (freshRange_tighten project)
  refine ⟨rfl, fun none => ?_, fun y => ?_, fun _ h hh => ⟨f, hf, ?_⟩⟩
  · have filled' := spread.forall_ranges regular length filled (freshRange_filled project)
    have real' : a.space.ints + c.ints = 0 := by omega
    exact (Frame.normalize_denotes (K := ℚ) cfg real' (spread.regular regular length)
      (fun I hI => (filled' I hI).proper) fun x => Iff.rfl).toParallelotope.solid
  · rw [Cut.toParallelotope_has, Frame.normalize_has_iff fixed, spread.has_iff regular length,
      has_iff_of_frame hf]
    simp only [freshRange_has_iff]
    exact and_congr_right fun _ => ⟨fun zero h t ht => zero t ht h, fun zero t ht h => zero h t ht⟩
  · obtain ⟨-, rfl⟩ := Cut.eq_of_toParallelotope hh
    rwa [Frame.normalize_frame fixed]

theorem addDimensions_lossless (cfg : Settings) (a : Parallelotope) (c : Change) (project : Bool) :
    Op.Lossless (a.addDimensions cfg c project) fun b => a.Solid → a.ExtendsOnly c project K b := by
  unfold addDimensions
  refine (Op.lossless_forM (R := fun entry => checkInsertion a.space c entry.2 entry.1 = .ok ()) _
    ?_).bind fun _ => ?_
  · intro entry
    exact Op.lossless_lift _
  cases hf : a.frame? with
  | none =>
    refine Op.move_lossless fun _ _ => ⟨rfl, fun _ => solid_of_none rfl, fun y => ?_, by simp⟩
    exact ⟨fun has => absurd has (not_has_of_none rfl y),
      fun both => absurd both.1 (not_has_of_none hf _)⟩
  | some f =>
    by_cases unchanged : c.size = 0
    · -- No dimension is added, and the value is returned as it is.
      simp only [if_pos unchanged]
      obtain ⟨none, space⟩ := Change.unchanged unchanged a.space
      refine Op.lossless_pure fun _ solid => ⟨space, fun _ => solid, fun y => ?_,
        fun pos => absurd unchanged pos.ne'⟩
      have regular := (solid f hf).regular
      have same : ∀ j < a.space.size, y j = y ((oldPlaces a.space.size []).getD j 0) := fun j hj => by
        simp [oldPlaces, hj]
      rw [none, List.map_nil, has_iff_of_frame hf, has_iff_of_frame hf]
      rw [regular.has_congr_iff same]
      simp [freshPlaces]
    · simp only [if_neg unchanged]
      refine (Op.lossless_lift _).bind fun g => Op.move_bind_lossless ?_
      refine Op.put_lossless fun inserted checked solid => ?_
      obtain ⟨g', inserted', spread⟩ :=
        exists_insertInto (solid f hf).regular project (places_of_checked checked)
      obtain rfl := Except.ok.inj (inserted.symm.trans inserted')
      exact extendsOnly_of_spread cfg hf (solid f hf) checked spread

end Parallelotope

/-! ## Removal -/

/-- A point of the frame without some dimensions is a point of the frame without those: the rows that
are gone read the dimensions that are gone, and have a range with a member. -/
theorem Frame.exists_of_removeRows_has {f : Frame} {n : ℕ} {ds ps : List ℕ}
    (reads : List.Forall₂ (fun d p => f.Reads n d p) ds ps) (distinct : ds.Nodup)
    (inside : ∀ d ∈ ds, d < n) (regular : f.Regular n) (filled : f.Filled) {y : ℕ → K}
    (has : (removeRows ds ps f).Has y) :
    ∃ x, f.Has x ∧ ∀ i < (kept n ds).length, y i = x ((kept n ds).getD i 0) := by
  -- The dimensions that are gone get a member of the range of the row that reads them.
  have members : ∀ p, ∃ v : K, (f.ranges.getD p .top).Has v := fun p =>
    (Interval.filled_getD filled p).exists_has
  choose v hv using members
  have rows : ∀ d, ∃ p, d ∈ ds → f.Reads n d p := by
    intro d
    by_cases hd : d ∈ ds
    · obtain ⟨p, -, read⟩ := exists_of_mem_right reads.flip hd
      exact ⟨p, fun _ => read⟩
    · exact ⟨0, fun h => absurd h hd⟩
  choose q hq using rows
  have agrees : ∀ i < (kept n ds).length,
      y i = restored n ds y (fun t => v (q t)) ((kept n ds).getD i 0) :=
    fun i hi => restored_kept y _ hi
  refine ⟨_, regular.has_iff_lt.mpr fun t ht => ?_, agrees⟩
  by_cases gone : t ∈ ps
  · obtain ⟨d, hd, read⟩ := exists_of_mem_right reads gone
    rw [Mat.image, read.row, Vec.eval_unit (inside d hd), restored, if_pos hd,
      read.unique (hq d hd) (inside d hd)]
    exact hv t
  · obtain ⟨i, hi, rfl⟩ := List.mem_iff_getElem.mp (mem_kept.mpr ⟨ht, gone⟩)
    have small : i < (kept n ds).length := length_kept_rows reads distinct inside ▸ hi
    rw [← List.getD_eq_getElem _ 0 hi, ← image_removeRows reads regular agrees hi,
      ← range_removeRows regular hi]
    exact (regular_removeRows reads distinct inside regular).has_iff_lt.mp has i small

omit [IsStrictOrderedRing K] in
/-- What is left when forgotten dimensions are dropped with the rows that read them. -/
theorem Frame.ForgetsOnly.removeRows_solid {f g : Frame} {s s' : Space} {ds ps : List ℕ}
    (forgotten : f.ForgetsOnly s false K ds ps g) (distinct : ds.Nodup) (inside : ∀ d ∈ ds, d < s.size)
    (real : s'.ints = 0) (size : s'.size = (kept s.size ds).length) : (removeRows ds ps g).Solid s' := by
  have forgets := forgotten.forgets
  have regular := Frame.regular_removeRows forgets.reads distinct inside forgets.regular
  refine ⟨real, size.symm ▸ regular, fun I hI => ?_⟩
  obtain ⟨entry, hentry, rfl⟩ := List.mem_map.mp hI
  have mem := (List.mem_zipIdx' (List.mem_of_mem_filter hentry)).2 ▸ List.getElem_mem _
  exact forgotten.solid.filled _ mem

theorem Frame.ForgetsOnly.removeRows_has_iff {f g : Frame} {s : Space} {ds ps : List ℕ}
    (forgotten : f.ForgetsOnly s false K ds ps g) (distinct : ds.Nodup) (inside : ∀ d ∈ ds, d < s.size)
    {y : ℕ → K} : (removeRows ds ps g).Has y ↔
      ∃ x, f.Has x ∧ ∀ i < (kept s.size ds).length, y i = x ((kept s.size ds).getD i 0) := by
  obtain ⟨forgets, solid, only⟩ := forgotten
  constructor
  · intro has
    -- The point with the dimensions back comes from a point that had them.
    obtain ⟨z, hz, agrees⟩ := Frame.exists_of_removeRows_has forgets.reads distinct inside
      forgets.regular solid.filled has
    obtain ⟨-, x, hx, same⟩ := only z hz
    refine ⟨x, hx, fun i hi => ?_⟩
    rw [agrees i hi, same _ (mem_kept.mp (getD_mem hi)).2]
  · rintro ⟨x, hx, agrees⟩
    apply Frame.removeRows_has forgets.reads distinct inside forgets.regular _ agrees
    exact forgets.has x x hx (fun _ _ => rfl) (by simp)

namespace Parallelotope

variable {cfg : Settings}

/-- The value `b` has exactly the points of `a` without the dimensions of the change. -/
structure RestrictsOnly (a : Parallelotope) (c : Change) (K : Type*) [Field K] [LinearOrder K]
    (ds : List ℕ) (b : Parallelotope) : Prop where
  checked : a.space.checkDistinct (c.positions.map Datum.int) = .ok ds
  size : b.space.size = (kept a.space.size ds).length
  solid : b.Solid
  has : ∀ y : ℕ → K, b.Has y ↔
    ∃ x, a.Has x ∧ ∀ i < (kept a.space.size ds).length, y i = x ((kept a.space.size ds).getD i 0)

omit [IsStrictOrderedRing K] in
theorem Solid.has_iff_exists_kept {a : Parallelotope} (solid : a.Solid) {y : ℕ → K} :
    a.Has y ↔ ∃ x, a.Has x ∧ ∀ i < (kept a.space.size []).length,
      y i = x ((kept a.space.size []).getD i 0) := by
  refine ⟨fun has => ⟨y, has, fun i hi => ?_⟩, ?_⟩
  · rw [List.getD_eq_getElem _ _ hi]
    simp [kept]
  · rintro ⟨x, has, agrees⟩
    refine solid.has_congr (fun j hj => ?_) has
    simpa [kept, hj] using (agrees j (by simpa [kept] using hj)).symm

theorem removeDimensions_lossless (exact : cfg.precision = .exact) (a : Parallelotope) (c : Change) :
    Op.Lossless (a.removeDimensions cfg c) fun b => a.Solid → ∃ ds, a.RestrictsOnly c K ds b := by
  unfold removeDimensions
  refine (Op.lossless_lift _).bind fun ds => (Op.lossless_lift _).bind fun s => ?_
  by_cases none : ds.isEmpty
  · simp only [if_pos none]
    obtain rfl := List.isEmpty_iff.mp none
    exact Op.lossless_pure fun after checked solid => ⟨[], checked, by simp [kept], solid, fun y =>
      solid.has_iff_exists_kept⟩
  simp only [if_neg none]
  cases hf : a.frame? with
  | none =>
    refine Op.move_lossless fun after checked _ => ⟨ds, checked, size_of_spaceAfter checked after,
      solid_of_none rfl, fun y => ⟨fun has => absurd has (not_has_of_none rfl y), ?_⟩⟩
    rintro ⟨x, has, -⟩
    exact absurd has (not_has_of_none hf x)
  | some f =>
    refine (Frame.forgetAll_lossless (K := K) exact a.space false ds f).bind fun r => ?_
    refine Op.move_bind_lossless (Op.put_lossless fun forgets after checked ha => ?_)
    obtain ⟨-, distinct, inside⟩ := Space.checkDistinct_eq_ok.mp checked
    have size := size_of_spaceAfter checked after
    have real : s.ints = 0 := by
      have ints := (spaceAfter_eq_ok after).2.1
      have none := (ha f hf).real
      omega
    have forgotten := forgets (ha f hf) distinct inside
    have solid := forgotten.removeRows_solid distinct inside real size
    have denotes := (Frame.normalize_denotes (K := K) cfg real solid.regular
      (fun I hI => (solid.filled I hI).proper) fun y => Iff.rfl).toParallelotope
    refine ⟨ds, checked, size, denotes.solid, fun y => (denotes.has y).trans ?_⟩
    simp only [forgotten.removeRows_has_iff distinct inside, has_iff_of_frame hf]

/-! ## Permutation -/

theorem moved_has_iff {f g : Frame} {s : Space} {targets : List ℕ} (solid : f.Solid s)
    (perm : targets.Perm (List.range s.size)) (moved : f.moveChecked s.size targets = .ok g) :
    g.Solid s ∧ ∀ y : ℕ → K, g.Has y ↔ f.Has fun j => y (targets.getD j 0) := by
  obtain ⟨real, regular, filled⟩ := solid
  have length : targets.length = s.size := by simpa using perm.length_eq
  obtain rfl := Except.ok.inj (moved.symm.trans (regular.moveChecked_eq length))
  have spread : f.Spread s.size targets [] .top (f.move s.size targets) :=
    regular.spread_permuted perm
  refine ⟨⟨real, spread.regular regular length, ?_⟩, fun y => ?_⟩
  · exact spread.forall_ranges regular length filled ⟨0, Interval.top_has⟩
  · simp [spread.has_iff regular length]

theorem moveRows_lossless (f : Frame) (s : Space) (targets : List ℕ) :
    Op.Lossless (do Op.move ⟨s, some (← f.moveChecked s.size targets)⟩) fun b => f.Solid s →
      targets.Perm (List.range s.size) →
        b.Denotes s fun y : ℕ → K => f.Has fun j => y (targets.getD j 0) := by
  refine (Op.lossless_lift _).bind fun g => Op.move_lossless fun moved solid perm => ?_
  obtain ⟨solid', has⟩ := moved_has_iff (K := K) solid perm moved
  exact denotes_mk solid' has

theorem permute_lossless (a : Parallelotope) (p : Perm) :
    Op.Lossless (a.permute p) fun b => a.Solid →
      b.Denotes a.space fun y : ℕ → K => a.Has fun j => y (p.images.getD j 0) := by
  unfold permute
  by_cases size : p.size = a.space.size
  · simp only [ne_eq, size, not_true_eq_false, if_false]
    cases hf : a.frame? with
    | none => exact Op.lossless_pure fun _ => denotes_none rfl hf fun y => not_has_of_none hf _
    | some f =>
      refine (moveRows_lossless (K := K) f a.space p.images).imp fun b denotes solid => ?_
      refine (denotes (solid f hf) (size ▸ p.perm)).congr fun y => ?_
      rw [has_iff_of_frame hf]
  · simp only [ne_eq, size, not_false_eq_true, if_true]
    exact Op.lossless_throw_bind _

end Parallelotope

/-! ## Expansion -/

omit [LinearOrder K] [IsStrictOrderedRing K] in
theorem Vec.eval_copyRow [CharZero K] {row : Vec} {d t : ℕ} (hd : d < row.length) (ht : t < row.length)
    (other : d ≠ t) (absent : row.getD t 0 = 0) (y : ℕ → K) :
    Vec.eval (copyRow d t row) y = row.eval y + ((row.getD d 0 : ℚ) : K) * (y t - y d) := by
  rw [copyRow, Vec.eval_set (by simpa using hd), Vec.eval_set ht, getD_set ht, if_neg other, absent]
  push_cast
  ring

namespace Frame

section Copies

variable {f g h : Frame} {m n : ℕ} {old fresh : List ℕ} {I : Interval} {d q : ℕ}

omit [LinearOrder K] [IsStrictOrderedRing K] in
theorem Spread.set_old [CharZero K] (spread : f.Spread m old fresh I g) (regular : f.Regular n)
    (length : old.length = n) {r : ℕ → Vec} {J : Interval} (set : g.SetRows fresh r J h) {i : ℕ}
    (hi : i < n) (y : ℕ → K) :
    h.ranges.getD (old.getD i 0) .top = f.ranges.getD i .top ∧
      h.axes.image y (old.getD i 0) = f.axes.image (fun j => y (old.getD j 0)) i := by
  have place : old.getD i 0 ∈ old := getD_mem (length.symm ▸ hi)
  obtain ⟨row, range⟩ := set.same (old.getD i 0) fun mem => spread.disjoint place mem rfl
  rw [range, (spread.moved i (length.symm ▸ hi)).2, Mat.image, row]
  exact ⟨rfl, spread.image_old regular length hi y⟩

omit [LinearOrder K] [IsStrictOrderedRing K] in
theorem Spread.copied_fresh [CharZero K] (spread : f.Spread m old fresh I g) (regular : f.Regular n)
    (length : old.length = n) (hd : d < n) (hq : q < n)
    (copies : g.SetRows fresh (fun t => copyRow (old.getD d 0) t (g.axes.getD (old.getD q 0) []))
      (g.ranges.getD (old.getD q 0) .top) h) {t : ℕ} (ht : t ∈ fresh) (y : ℕ → K) :
    h.ranges.getD t .top = f.ranges.getD q .top ∧
      h.axes.image y t = f.axes.image (Function.update (fun j => y (old.getD j 0)) d (y t)) q := by
  have place : old.getD d 0 ∈ old := getD_mem (length.symm ▸ hd)
  have small : t < m := spread.lt_of_mem (List.mem_append_right _ ht)
  obtain ⟨row, range⟩ := copies.row t ht (spread.axes.symm ▸ small) (spread.ranges.symm ▸ small)
  refine ⟨range.trans (spread.moved q (length.symm ▸ hq)).2, ?_⟩
  have width : (g.axes.getD (old.getD q 0) []).length = m :=
    spread.shape.getD_length (spread.lt_of_mem (List.mem_append_left _ (getD_mem (length.symm ▸ hq))))
  have value := spread.image_old regular length hq y
  have coeff := spread.entry_old regular length hq hd
  have absent := spread.entry_fresh regular length hq ht
  rw [Mat.image] at value
  rw [Mat.entry] at coeff absent
  rw [regular.image_update hd hq, Mat.image, row,
    Vec.eval_copyRow (width.symm ▸ spread.lt_of_mem (List.mem_append_left _ place))
      (width.symm ▸ small) (spread.disjoint place ht) absent, value, coeff]

/-- Copies of the only row that mentions a dimension ask of each new dimension what the row asks of
the old one. -/
theorem Spread.copied_has_iff (spread : f.Spread m old fresh I g) (regular : f.Regular n)
    (length : old.length = n) (hd : d < n) (hq : q < n)
    (single : ∀ i < n, i ≠ q → f.axes.entry i d = 0)
    (copies : g.SetRows fresh (fun t => copyRow (old.getD d 0) t (g.axes.getD (old.getD q 0) []))
      (g.ranges.getD (old.getD q 0) .top) h) (regular' : h.Regular m) {y : ℕ → K} :
    h.Has y ↔ (f.Has fun j => y (old.getD j 0)) ∧
      ∀ t ∈ fresh, f.Has (Function.update (fun j => y (old.getD j 0)) d (y t)) := by
  -- Only row `q` sees the dimension change.
  have still : ∀ {i v}, i < n → i ≠ q →
      f.axes.image (Function.update (fun j => y (old.getD j 0)) d v) i =
        f.axes.image (fun j => y (old.getD j 0)) i := by
    intro i v hi other
    rw [regular.image_update hd hi, single i hi other, Rat.cast_zero, zero_mul, add_zero]
  rw [regular'.has_iff_lt]
  simp only [regular.has_iff_lt]
  constructor
  · intro has
    have first : ∀ i < n, (f.ranges.getD i .top).Has (f.axes.image (fun j => y (old.getD j 0)) i) := by
      intro i hi
      obtain ⟨range, image⟩ := spread.set_old regular length copies hi y
      rw [← range, ← image]
      exact has _ (spread.lt_of_mem (List.mem_append_left _ (getD_mem (length.symm ▸ hi))))
    refine ⟨first, fun t ht i hi => ?_⟩
    by_cases same : i = q
    · obtain ⟨range, image⟩ := spread.copied_fresh regular length hd hq copies ht y
      rw [same, ← range, ← image]
      exact has t (spread.lt_of_mem (List.mem_append_right _ ht))
    · rw [still hi same]
      exact first i hi
  · rintro ⟨first, each⟩ t ht
    cases spread.cases ht with
    | inl place =>
      obtain ⟨i, hi, rfl⟩ := place
      obtain ⟨range, image⟩ := spread.set_old regular length copies (length ▸ hi) y
      rw [range, image]
      exact first i (length ▸ hi)
    | inr fresh =>
      obtain ⟨range, image⟩ := spread.copied_fresh regular length hd hq copies fresh y
      rw [range, image]
      exact each t fresh q hq

end Copies

/-- The frame `h` is `f` with `k` dimensions after its `n`, each of which has a copy of row `q` in which it
takes the place of dimension `d`. -/
def Repeats (f : Frame) (n d q k : ℕ) (h : Frame) : Prop :=
  ∃ g, f.Spread (n + k) (List.range n) (List.range' n k) .top g ∧
    g.SetRows (List.range' n k) (fun t => copyRow d t (g.axes.getD q [])) (g.ranges.getD q .top) h

theorem Repeats.ranges {f h : Frame} {n d q k : ℕ} (repeats : f.Repeats n d q k h) :
    h.ranges.length = n + k := by
  obtain ⟨g, spread, copies⟩ := repeats
  exact copies.ranges.trans spread.ranges

theorem Repeats.has_iff {f h : Frame} {n d q k : ℕ} (repeats : f.Repeats n d q k h) (regular : f.Regular n)
    (hd : d < n) (hq : q < n) (single : ∀ i < n, i ≠ q → f.axes.entry i d = 0)
    (regular' : h.Regular (n + k)) {y : ℕ → K} :
    h.Has y ↔ f.Has y ∧ ∀ i < k, f.Has (Function.update y d (y (n + i))) := by
  obtain ⟨g, spread, copies⟩ := repeats
  have same : ∀ j < n, (List.range n).getD j 0 = j := fun j hj => by simp [hj]
  have each : ∀ t, f.Has (Function.update (fun j => y ((List.range n).getD j 0)) d (y t)) ↔
      f.Has (Function.update y d (y t)) := by
    intro t
    refine regular.has_congr_iff fun j hj => ?_
    by_cases here : j = d
    · rw [here, Function.update_self, Function.update_self]
    · rw [Function.update_of_ne here, Function.update_of_ne here, same j hj]
  rw [spread.copied_has_iff regular List.length_range hd hq single
    (by rw [same d hd, same q hq]; exact copies) regular',
    regular.has_congr_iff fun j hj => congrArg y (same j hj)]
  simp only [each, List.mem_range'_1]
  refine and_congr_right fun _ => ⟨fun all i hi => all _ ⟨by omega, by omega⟩, fun all t bounds => ?_⟩
  have copy := all (t - n) (by omega)
  rwa [Nat.add_sub_cancel' bounds.1] at copy

theorem Regular.entry_eq_zero {f : Frame} {n d q : ℕ} (regular : f.Regular n) (hd : d < n)
    (few : ∀ rows, f.mentioning d = .ok rows → rows.length ≤ 1) (hq : q < n)
    (mentions : f.axes.entry q d ≠ 0) : ∀ i < n, i ≠ q → f.axes.entry i d = 0 := by
  intro i hi other
  by_contra nonzero
  obtain ⟨rows, run, listed⟩ := regular.exists_mentioning hd
  have first : q ∈ rows := (listed q).mpr ⟨hq, mentions⟩
  have second : i ∈ rows := (listed i).mpr ⟨hi, nonzero⟩
  have short := few rows run
  cases rows with
  | nil => simp at first
  | cons r rest =>
    obtain rfl : rest = [] := by simpa using short
    simp only [List.mem_singleton] at first second
    exact other (second.trans first.symm)

end Frame

namespace Parallelotope

variable {cfg : Settings}

/-- The value `c` is `b` with copies of the pivot row of dimension `d` for `k` dimensions from `pos`
on. -/
def Copied (cfg : Settings) (b : Parallelotope) (d pos k : ℕ) (c : Parallelotope) : Prop :=
  ∃ g rows p, b.frame? = some g ∧ g.mentioning d = .ok rows ∧ g.pivotFor? d rows = some p ∧
    c = (Frame.normalize cfg b.space ((List.range' pos k).foldl (fun f t => f.setRow t
      (copyRow d t (g.axes.getD p [])) (g.ranges.getD p .top)) g)).toParallelotope b.space

theorem copyDimension_lossless (cfg : Settings) (b : Parallelotope) (d pos k : ℕ) :
    Op.Lossless (b.copyDimension cfg d pos k) (Copied cfg b d pos k) := by
  unfold copyDimension
  cases hg : b.frame? with
  | none => exact Op.lossless_throw _
  | some g =>
    refine (Op.lossless_lift _).bind fun rows => ?_
    cases found : g.pivotFor? d rows with
    | none => exact Op.lossless_throw _
    | some p => exact Op.put_lossless fun mentioned => ⟨g, rows, p, hg, mentioned, found, rfl⟩

theorem copies_lossless (cfg : Settings) (a : Parallelotope) (d pos k : ℕ) (integer : Bool) :
    Op.Lossless (do
      (← a.addDimensions cfg (.repeated pos k integer) false).copyDimension cfg d pos k) fun c =>
        ∃ b, (a.Solid → a.ExtendsOnly (.repeated pos k integer) false K b) ∧ Copied cfg b d pos k c :=
  (addDimensions_lossless (K := K) cfg a _ false).bind fun b =>
    (copyDimension_lossless cfg b d pos k).imp fun _ copied extended => ⟨b, extended, copied⟩

theorem oldPlaces_repeated (n k : ℕ) (integer : Bool) :
    oldPlaces n ((Change.repeated n k integer).positions.map Int.toNat) = List.range n := by
  obtain ⟨-, same⟩ := places_repeated n n k integer
  apply eq_of_getD (length_oldPlaces ..) List.length_range
  intro i hi
  rw [same i hi hi]
  simp [hi]

omit [IsStrictOrderedRing K] in
theorem Copied.repeats {a b c : Parallelotope} {f : Frame} {d k : ℕ} (hf : a.frame? = some f)
    (solid : f.Solid a.space) (hd : d < a.space.size) (many : 0 < k)
    (extended : a.ExtendsOnly (.repeated a.space.size k false) false K b)
    (copied : Copied cfg b d a.space.size k c) :
    ∃ q h, q < a.space.size ∧ f.axes.entry q d ≠ 0 ∧ f.Repeats a.space.size d q k h ∧
      h.Regular b.space.size ∧ c = (h.normalize cfg b.space).toParallelotope b.space := by
  obtain ⟨g, rows, p, hg, mentioned, found, rfl⟩ := copied
  obtain ⟨f', hf', spread⟩ := extended.frame (by simpa) g hg
  obtain rfl : f = f' := Option.some.inj (hf.symm.trans hf')
  have solid' := extended.solid rfl g hg
  obtain ⟨fresh, -⟩ := places_repeated a.space.size a.space.size k false
  have length : (List.range a.space.size).length = a.space.size := List.length_range
  -- The copies stand behind all dimensions, so every row keeps its place.
  rw [fresh, oldPlaces_repeated] at spread
  have mem_d : d ∈ List.range a.space.size := List.mem_range.mpr hd
  obtain ⟨rows', mentioned', mem⟩ :=
    solid'.regular.exists_mentioning (spread.lt_of_mem (List.mem_append_left _ mem_d))
  obtain rfl := Except.ok.inj (mentioned.symm.trans mentioned')
  -- The pivot mentions the dimension, so it is one of the old rows.
  obtain ⟨hp, pivot⟩ := (mem p).mp (Frame.pivotFor?_mem found)
  obtain ⟨q, hq, rfl⟩ := spread.exists_old mem_d hp pivot
  rw [length] at hq
  have copies := g.setRows_foldl (List.range' a.space.size k)
    (fun t => copyRow d t (g.axes.getD ((List.range a.space.size).getD q 0) []))
    (g.ranges.getD ((List.range a.space.size).getD q 0) .top)
  have regular' := spread.copied_regular solid.regular length mem_d hp pivot rfl solid'.regular.ranges
    (by simpa using many.ne') copies
  have coeff := spread.entry_old solid.regular length hq hd
  have at_d : (List.range a.space.size).getD d 0 = d := by simp [hd]
  have at_q : (List.range a.space.size).getD q 0 = q := by simp [hq]
  have size : b.space.size = a.space.size + k := by
    simp only [extended.space, Space.size, Change.repeated, Bool.false_eq_true, if_false]
    omega
  rw [at_q] at copies regular' pivot ⊢
  rw [at_d, at_q] at coeff
  exact ⟨q, _, hq, coeff ▸ pivot, ⟨g, size ▸ spread, copies⟩, regular', rfl⟩

theorem Copied.has {a b c : Parallelotope} {f : Frame} {d k : ℕ} (hf : a.frame? = some f)
    (solid : f.Solid a.space) (hd : d < a.space.size) (many : 0 < k)
    (few : ∀ rows, f.mentioning d = .ok rows → rows.length ≤ 1)
    (extended : a.ExtendsOnly (.repeated a.space.size k false) false K b)
    (copied : Copied cfg b d a.space.size k c) (y : ℕ → K) :
    c.Has y ↔ a.Has y ∧ ∀ i < k, a.Has (Function.update y d (y (a.space.size + i))) := by
  obtain ⟨q, h, hq, mentions, repeats, regular, rfl⟩ := copied.repeats hf solid hd many extended
  have real : b.space.ints = 0 := by rw [extended.space]; exact solid.real
  have fixed : ∀ e ∈ h.rows, Frame.tighten cfg b.space e.1 e.2 = e.2 := fun e _ => by
    simp [Frame.tighten, real]
  have size := regular.ranges.symm.trans repeats.ranges
  rw [Cut.toParallelotope_has, Frame.normalize_has_iff fixed, repeats.has_iff solid.regular hd hq
    (solid.regular.entry_eq_zero hd few hq mentions) (size ▸ regular)]
  simp only [has_iff_of_frame hf]

theorem expand_lossless (cfg : Settings) (a : Parallelotope) (datum : Datum) (count : ℤ) :
    Op.Lossless (a.expand cfg datum count) fun b => a.Solid → ∃ d : ℕ, datum = .int d ∧
      ∀ y : ℕ → K, b.Has y ↔ a.Has y ∧
        ∀ i < count.toNat, a.Has (Function.update y d (y (a.space.size + i))) := by
  unfold expand
  refine (Op.lossless_lift _).bind fun d => ?_
  by_cases negative : count < 0
  · simp only [if_pos negative]
    exact Op.lossless_throw_bind _
  simp only [if_neg negative]
  by_cases zero : count.toNat = 0
  · simp only [if_pos zero]
    refine Op.lossless_pure fun checked _ => ⟨d, (Space.check_eq_ok.mp checked).1, fun y => ?_⟩
    simp [zero]
  simp only [if_neg zero]
  cases hf : a.frame? with
  | none =>
    refine (addDimensions_lossless (K := K) cfg a _ false).imp fun b extended checked solid => ?_
    refine ⟨d, (Space.check_eq_ok.mp checked).1, fun y => ?_⟩
    rw [(extended solid).has]
    exact ⟨fun both => absurd both.1 (not_has_of_none hf _),
      fun both => absurd both.1 (not_has_of_none hf y)⟩
  | some f =>
    refine (Op.lossless_lift _).bind fun rows => ?_
    generalize hpos : (if a.space.isInt d = true then a.space.ints else a.space.size) = pos
    generalize hkind : a.space.isInt d = integer at hpos
    have grow := copies_lossless (K := K) cfg a d pos count.toNat integer
    by_cases many : 1 < rows.length
    · simp only [if_pos many]
      exact Op.inexact_lossless.bind fun _ => grow.imp fun _ _ => False.elim
    simp only [if_neg many]
    refine grow.imp fun c copies mentioned checked solid => ?_
    obtain ⟨b, extended, copied⟩ := copies
    obtain ⟨rfl, hd⟩ := Space.check_eq_ok.mp checked
    -- There are no integer dimensions, so the copies come last.
    obtain rfl : integer = false := by simp [← hkind, Space.isInt, (solid f hf).real]
    obtain rfl : a.space.size = pos := by simpa using hpos
    refine ⟨d, rfl, copied.has hf (solid f hf) hd (Nat.pos_of_ne_zero zero) ?_ (extended solid)⟩
    intro rows' mentioned'
    obtain rfl := Except.ok.inj (mentioned.symm.trans mentioned')
    omega

end Parallelotope

end SkewBox
