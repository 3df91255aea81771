import SkewBox.Proofs.Forget
import SkewBox.Proofs.Meet
import SkewBox.Proofs.Places

/-!
# Points after changing dimensions

A frame whose rows move with their dimensions to new places, with unit rows at the places left,
stays regular and has the points that read the old ones at their new places.  Removing
dimensions drops the rows that read them alone.

* `Frame.SetRows`: several rows replaced in turn.
* `Frame.Spread`: rows moved, with unit rows at the places left.
* `Parallelotope.addDimensions_keeps`, `removeDimensions_keeps`, `permute_keeps`: the operations.
-/

namespace SkewBox

open Parallelotope (oldPlaces freshPlaces insertInto without removeRows copyRow)

namespace Frame

variable {f g h : Frame} {m n : ℕ}

/-! ## Replacing rows -/

/-- The rows `r t` with range `I` at the places `ts`, and those of `f` elsewhere. -/
structure SetRows (f : Frame) (ts : List ℕ) (r : ℕ → Vec) (I : Interval) (g : Frame) : Prop where
  axes : g.axes.length = f.axes.length
  ranges : g.ranges.length = f.ranges.length
  inverse : ts ≠ [] → g.inverse? = none
  same : ∀ t, t ∉ ts → g.axes.getD t [] = f.axes.getD t [] ∧
    g.ranges.getD t .top = f.ranges.getD t .top
  row : ∀ t ∈ ts, t < f.axes.length → t < f.ranges.length →
    g.axes.getD t [] = r t ∧ g.ranges.getD t .top = I

theorem setRows_foldl (f : Frame) (ts : List ℕ) (r : ℕ → Vec) (I : Interval) :
    f.SetRows ts r I (ts.foldl (fun f t => f.setRow t (r t) I) f) := by
  induction ts generalizing f with
  | nil => exact ⟨rfl, rfl, fun h => absurd rfl h, fun _ _ => ⟨rfl, rfl⟩, by simp⟩
  | cons t ts ih =>
    have rest := ih (f.setRow t (r t) I)
    have axes : (f.setRow t (r t) I).axes.length = f.axes.length := List.length_set ..
    have ranges : (f.setRow t (r t) I).ranges.length = f.ranges.length := List.length_set ..
    refine ⟨rest.axes.trans axes, rest.ranges.trans ranges, fun _ => ?_, fun u hu => ?_, ?_⟩
    · by_cases last : ts = []
      · subst last
        rfl
      · exact rest.inverse last
    · have other : t ≠ u := fun same => hu (same ▸ List.mem_cons_self ..)
      obtain ⟨hrow, hrange⟩ := rest.same u fun mem => hu (List.mem_cons_of_mem _ mem)
      rw [List.foldl_cons, hrow, hrange]
      simp [setRow, other]
    · intro u hu haxes hranges
      -- The last row that is put at a place counts.
      by_cases later : u ∈ ts
      · exact rest.row u later (axes ▸ haxes) (ranges ▸ hranges)
      · obtain rfl : u = t := (List.mem_cons.mp hu).resolve_right later
        obtain ⟨hrow, hrange⟩ := rest.same u later
        rw [List.foldl_cons, hrow, hrange]
        simp [setRow, haxes, hranges]

/-! ## Moving rows -/

/-- The rows of `f` stand at the places `old`, to which its dimensions are moved as well, and unit
rows with range `I` at the places `fresh`. -/
structure Spread (f : Frame) (m : ℕ) (old fresh : List ℕ) (I : Interval) (g : Frame) : Prop where
  places : (old ++ fresh).Perm (List.range m)
  axes : g.axes.length = m
  ranges : g.ranges.length = m
  inverse : g.inverse? = none
  moved : ∀ i < old.length, g.axes.getD (old.getD i 0) [] = place m 0 old (f.axes.getD i []) ∧
    g.ranges.getD (old.getD i 0) .top = f.ranges.getD i .top
  unit : ∀ t ∈ fresh, g.axes.getD t [] = Vec.unit m t ∧ g.ranges.getD t .top = I

variable {old fresh : List ℕ} {I : Interval}

theorem Regular.spread_move (regular : f.Regular n) (length : old.length = n)
    (places : (old ++ fresh).Perm (List.range m)) :
    f.Spread m old fresh I
      (fresh.foldl (fun f t => f.setRow t (Vec.unit m t) I) (f.move m old)) := by
  have distinct : (old ++ fresh).Nodup := places.nodup_iff.mpr List.nodup_range
  have inside : ∀ t ∈ old ++ fresh, t < m := fun t ht => List.mem_range.mp (places.mem_iff.mp ht)
  obtain ⟨hold, -, disjoint⟩ := List.nodup_append.mp distinct
  have inside_old : ∀ t ∈ old, t < m := fun t ht => inside t (List.mem_append_left _ ht)
  have axes : (f.move m old).axes.length = m := length_place
  have ranges : (f.move m old).ranges.length = m := length_place
  have rows := (f.move m old).setRows_foldl fresh (Vec.unit m) I
  refine ⟨places, rows.axes.trans axes, rows.ranges.trans ranges, ?_, fun i hi => ?_, fun t ht => ?_⟩
  · by_cases none : fresh = []
    · subst none
      rfl
    · exact rows.inverse none
  · -- The unit rows go to other places, so a row that was moved is still there.
    obtain ⟨hrow, hrange⟩ := rows.same _ fun mem => disjoint _ (getD_mem hi) _ mem rfl
    have haxes : i < f.axes.length := regular.axes.shape.length ▸ length ▸ hi
    have hranges : i < f.ranges.length := regular.ranges ▸ length ▸ hi
    rw [hrow, hrange, Frame.move, getD_place hold inside_old hi (by simpa using haxes),
      getD_place hold inside_old hi hranges]
    simp [haxes]
  · have small := inside t (List.mem_append_right _ ht)
    exact rows.row t ht (axes.symm ▸ small) (ranges.symm ▸ small)

namespace Spread

theorem cases (spread : f.Spread m old fresh I g) {t : ℕ} (ht : t < m) :
    (∃ i < old.length, old.getD i 0 = t) ∨ t ∈ fresh := by
  have mem : t ∈ old ++ fresh := spread.places.mem_iff.mpr (List.mem_range.mpr ht)
  refine (List.mem_append.mp mem).imp_left fun hold => ?_
  obtain ⟨i, hi, rfl⟩ := List.mem_iff_getElem.mp hold
  exact ⟨i, hi, List.getD_eq_getElem _ _ hi⟩

theorem lt_of_mem (spread : f.Spread m old fresh I g) {t : ℕ} (ht : t ∈ old ++ fresh) : t < m :=
  List.mem_range.mp (spread.places.mem_iff.mp ht)

theorem disjoint (spread : f.Spread m old fresh I g) {t u : ℕ} (ht : t ∈ old) (hu : u ∈ fresh) :
    t ≠ u :=
  (List.nodup_append.mp (spread.places.nodup_iff.mpr List.nodup_range)).2.2 t ht u hu

theorem shape (spread : f.Spread m old fresh I g) : g.axes.HasShape m m := by
  refine ⟨spread.axes, fun row hrow => ?_⟩
  obtain ⟨t, ht, rfl⟩ := List.mem_iff_getElem.mp hrow
  rw [← List.getD_eq_getElem _ [] ht]
  rcases spread.cases (spread.axes ▸ ht) with ⟨i, hi, rfl⟩ | hfresh
  · rw [(spread.moved i hi).1]
    exact length_place
  · rw [(spread.unit t hfresh).1]
    exact Vec.length_unit ..

section Points

variable {K : Type*} [Field K] [CharZero K]

theorem image_old (spread : f.Spread m old fresh I g) (regular : f.Regular n)
    (length : old.length = n) {i : ℕ} (hi : i < n) (y : ℕ → K) :
    g.axes.image y (old.getD i 0) = f.axes.image (fun j => y (old.getD j 0)) i := by
  have distinct : old.Nodup :=
    (spread.places.nodup_iff.mpr List.nodup_range).sublist (List.sublist_append_left ..)
  rw [Mat.image, Mat.image, (spread.moved i (length ▸ hi)).1]
  refine Vec.eval_place distinct (fun t ht => spread.lt_of_mem (List.mem_append_left _ ht)) ?_ y
  rw [regular.axes.shape.getD_length hi, length]

theorem image_fresh (spread : f.Spread m old fresh I g) {t : ℕ} (ht : t ∈ fresh) (y : ℕ → K) :
    g.axes.image y t = y t := by
  rw [Mat.image, (spread.unit t ht).1]
  exact Vec.eval_unit (spread.lt_of_mem (List.mem_append_right _ ht)) y

end Points

theorem old_eq_zero (spread : f.Spread m old fresh I g) (regular : f.Regular n)
    (length : old.length = n) {x : ℕ → ℚ} (zero : ∀ t ∈ old, g.axes.image x t = 0) {j : ℕ}
    (hj : j < n) : x (old.getD j 0) = 0 := by
  refine regular.axes.kernel (x := fun j => x (old.getD j 0)) (fun i hi => ?_) hj
  rw [← spread.image_old regular length hi]
  exact zero _ (getD_mem (length.symm ▸ hi))

theorem regular (spread : f.Spread m old fresh I g) (regular : f.Regular n)
    (length : old.length = n) : g.Regular m := by
  refine ⟨.of_kernel spread.shape fun x zero t ht => ?_, spread.ranges, by simp [spread.inverse]⟩
  rcases spread.cases ht with ⟨i, hi, rfl⟩ | hfresh
  · refine spread.old_eq_zero regular length (fun t ht => ?_) (length ▸ hi)
    exact zero t (spread.lt_of_mem (List.mem_append_left _ ht))
  · rw [← spread.image_fresh hfresh x]
    exact zero t ht

theorem forall_ranges {P : Interval → Prop} (spread : f.Spread m old fresh I g)
    (regular : f.Regular n) (length : old.length = n) (hf : ∀ J ∈ f.ranges, P J) (hI : P I) :
    ∀ J ∈ g.ranges, P J := by
  intro J hJ
  obtain ⟨t, ht, rfl⟩ := List.mem_iff_getElem.mp hJ
  rw [← List.getD_eq_getElem _ .top ht]
  rcases spread.cases (spread.ranges ▸ ht) with ⟨i, hi, rfl⟩ | hfresh
  · have inside : i < f.ranges.length := regular.ranges ▸ length ▸ hi
    rw [(spread.moved i hi).2, List.getD_eq_getElem _ _ inside]
    exact hf _ (List.getElem_mem inside)
  · rw [(spread.unit t hfresh).2]
    exact hI

theorem ordered (spread : f.Spread m old fresh I g) (regular : f.Regular n)
    (length : old.length = n) (hf : f.Ordered) (hI : I.lo ≤ I.hi) : g.Ordered :=
  spread.forall_ranges regular length hf hI

theorem has {K : Type*} [Field K] [LinearOrder K] [IsStrictOrderedRing K]
    (spread : f.Spread m old fresh I g) (regular : f.Regular n) (length : old.length = n)
    {y : ℕ → K} (has : f.Has fun j => y (old.getD j 0)) (hfresh : ∀ t ∈ fresh, I.Has (y t)) :
    g.Has y := by
  rw [has_iff regular.same] at has
  rw [has_iff (spread.ranges.trans spread.axes.symm)]
  intro t
  by_cases ht : t < m
  · rcases spread.cases ht with ⟨i, hi, rfl⟩ | mem
    · rw [(spread.moved i hi).2, spread.image_old regular length (length ▸ hi)]
      exact has i
    · rw [(spread.unit t mem).2, spread.image_fresh mem]
      exact hfresh t mem
  · rw [List.getD_eq_default _ _ (by rw [spread.ranges]; omega)]
    exact Interval.top_has

theorem has_iff {K : Type*} [Field K] [LinearOrder K] [IsStrictOrderedRing K]
    (spread : f.Spread m old fresh I g) (regular : f.Regular n) (length : old.length = n)
    {y : ℕ → K} : g.Has y ↔ (f.Has fun j => y (old.getD j 0)) ∧ ∀ t ∈ fresh, I.Has (y t) := by
  refine ⟨fun has => ?_, fun both => spread.has regular length both.1 both.2⟩
  rw [(spread.regular regular length).has_iff_lt] at has
  rw [regular.has_iff_lt]
  constructor
  · intro i hi
    have hi' : i < old.length := length.symm ▸ hi
    rw [← spread.image_old regular length hi, ← (spread.moved i hi').2]
    exact has _ (spread.lt_of_mem (List.mem_append_left _ (getD_mem hi')))
  · intro t ht
    rw [← spread.image_fresh ht y, ← (spread.unit t ht).2]
    exact has t (spread.lt_of_mem (List.mem_append_right _ ht))

end Spread

theorem Spread.entry_fresh (spread : f.Spread m old fresh I g) (regular : f.Regular n)
    (length : old.length = n) {i t : ℕ} (hi : i < n) (ht : t ∈ fresh) :
    g.axes.entry (old.getD i 0) t = 0 := by
  have row : old.getD i 0 < m :=
    spread.lt_of_mem (List.mem_append_left _ (getD_mem (length.symm ▸ hi)))
  rw [spread.shape.entry_eq_image row (spread.lt_of_mem (List.mem_append_right _ ht)),
    spread.image_old regular length hi]
  have zero : f.axes.image (fun j => if old.getD j 0 = t then (1 : ℚ) else 0) i =
      f.axes.image (fun _ => 0) i := by
    refine Mat.image_congr regular.axes.shape (fun j hj => if_neg ?_) i
    exact spread.disjoint (getD_mem (length.symm ▸ hj)) ht
  rw [zero, Mat.image, Vec.eval_zero]

theorem Spread.exists_old (spread : f.Spread m old fresh I g) {d p : ℕ} (hd : d ∈ old) (hp : p < m)
    (pivot : g.axes.entry p d ≠ 0) : ∃ i < old.length, old.getD i 0 = p := by
  refine (spread.cases hp).resolve_right fun hfresh => pivot ?_
  have hd' : d < m := spread.lt_of_mem (List.mem_append_left _ hd)
  have other : p ≠ d := (spread.disjoint hd hfresh).symm
  rw [Mat.entry, (spread.unit p hfresh).1, Vec.getD_unit hd', if_neg other]

theorem Spread.copied_regular (spread : f.Spread m old fresh I g) (regular : f.Regular n)
    (length : old.length = n) {d p : ℕ} (hd : d ∈ old) (hp : p < m) (pivot : g.axes.entry p d ≠ 0)
    {k : Frame} (axes : k.axes = g.axes) (ranges : k.ranges.length = m)
    {J : Interval} (nonempty : fresh ≠ [])
    (copies : k.SetRows fresh (fun t => copyRow d t (k.axes.getD p [])) J h) : h.Regular m := by
  rw [axes] at copies
  have haxes : k.axes.length = m := by rw [axes, spread.axes]
  have width : (g.axes.getD p []).length = m := spread.shape.getD_length hp
  have hd' : d < m := spread.lt_of_mem (List.mem_append_left _ hd)
  have row : ∀ t ∈ fresh, h.axes.getD t [] = copyRow d t (g.axes.getD p []) := fun t ht =>
    have small := spread.lt_of_mem (List.mem_append_right _ ht)
    (copies.row t ht (haxes.symm ▸ small) (ranges.symm ▸ small)).1
  have same : ∀ t, t ∉ fresh → h.axes.getD t [] = g.axes.getD t [] := fun t ht =>
    axes ▸ (copies.same t ht).1
  obtain ⟨q, hq, rfl⟩ := spread.exists_old hd hp pivot
  have shape : h.axes.HasShape m m := by
    refine ⟨copies.axes.trans haxes, fun v hv => ?_⟩
    obtain ⟨t, ht, rfl⟩ := List.mem_iff_getElem.mp hv
    rw [← List.getD_eq_getElem _ [] ht]
    by_cases mem : t ∈ fresh
    · rw [row t mem, copyRow, List.length_set, List.length_set, width]
    · rw [same t mem]
      exact spread.shape.getD_length (by rwa [copies.axes, haxes] at ht)
  refine ⟨.of_kernel shape fun x zero t ht => ?_, copies.ranges.trans ranges,
    by simp [copies.inverse nonempty]⟩
  have old_zero : ∀ j < n, x (old.getD j 0) = 0 := by
    refine fun j => spread.old_eq_zero regular length fun t ht => ?_
    rw [Mat.image, ← same t fun hfresh => spread.disjoint ht hfresh rfl]
    exact zero t (spread.lt_of_mem (List.mem_append_left _ ht))
  rcases spread.cases ht with ⟨j, hj, rfl⟩ | hfresh
  · exact old_zero j (length ▸ hj)
  · have dimension : x d = 0 := by
      obtain ⟨j, hj, rfl⟩ := List.mem_iff_getElem.mp hd
      rw [← List.getD_eq_getElem _ 0 hj]
      exact old_zero j (length ▸ hj)
    -- The copy reads `t` where the old row reads `d`; all else that it reads is zero.
    have copied := zero t ht
    rw [Mat.image, row t hfresh, copyRow, Vec.eval_set (by rwa [List.length_set, width]),
      Vec.eval_set (by rwa [width]), dimension, mul_zero, add_zero] at copied
    have vanish : Vec.eval (g.axes.getD (old.getD q 0) []) x = 0 := by
      have value := spread.image_old regular length (length ▸ hq) x
      rw [Mat.image] at value
      rw [value, Mat.image_congr regular.axes.shape (y := fun _ => 0) fun j hj => old_zero j hj,
        Mat.image, Vec.eval_zero]
    have absent := spread.entry_fresh regular length (length ▸ hq) hfresh
    rw [Mat.entry] at absent pivot
    rw [vanish, absent, sub_zero, zero_add, Rat.cast_id] at copied
    exact (mul_eq_zero.mp copied).resolve_left pivot

theorem Regular.moveChecked_eq (regular : f.Regular n) {targets : List ℕ}
    (length : targets.length = n) : f.moveChecked m targets = .ok (f.move m targets) := by
  have fits : f.fits targets = true :=
    List.all_eq_true.mpr fun row hrow => by simp [regular.axes.shape.width row hrow, length]
  rw [moveChecked, if_pos fits]

theorem Regular.spread_permuted (regular : f.Regular n) {targets : List ℕ}
    (perm : targets.Perm (List.range n)) : f.Spread n targets [] I (f.move n targets) :=
  regular.spread_move (by simpa using perm.length_eq) (by simpa using perm)

/-! ## Dropping rows and dimensions -/

/-- The point with `z` at the dimensions `ds` of `n`, and with `y` at those that are left. -/
def restored {K : Type*} (n : ℕ) (ds : List ℕ) (y z : ℕ → K) : ℕ → K := fun t =>
  if t ∈ ds then z t else y ((kept n ds).idxOf t)

theorem restored_kept {K : Type*} {ds : List ℕ} (y z : ℕ → K) {i : ℕ} (hi : i < (kept n ds).length) :
    y i = restored n ds y z ((kept n ds).getD i 0) := by
  have nodup : (kept n ds).Nodup := List.nodup_range.filter _
  rw [List.getD_eq_getElem _ _ hi]
  have left : (kept n ds)[i] ∉ ds := (mem_kept.mp (List.getElem_mem hi)).2
  simp only [restored, if_neg left, nodup.idxOf_getElem i hi]

theorem row_removeRows {ds ps : List ℕ} (regular : f.Regular n) {i : ℕ}
    (hi : i < (kept n ps).length) :
    (removeRows ds ps f).axes.getD i [] = without ds (f.axes.getD ((kept n ps).getD i 0) []) := by
  rw [removeRows, without_eq ps f.axes [], regular.axes.shape.length]
  simp [hi]

theorem entry_removeRows {ds ps : List ℕ} (regular : f.Regular n) {i j : ℕ}
    (hi : i < (kept n ps).length) (hj : j < (kept n ds).length) :
    (removeRows ds ps f).axes.entry i j =
      f.axes.entry ((kept n ps).getD i 0) ((kept n ds).getD j 0) := by
  have small := (mem_kept.mp (getD_mem hi)).1
  rw [Mat.entry, row_removeRows regular hi, without_eq ds _ 0, regular.axes.shape.getD_length small]
  simp [Mat.entry, hj]

theorem range_removeRows {ds ps : List ℕ} (regular : f.Regular n) {i : ℕ}
    (hi : i < (kept n ps).length) :
    (removeRows ds ps f).ranges.getD i .top = f.ranges.getD ((kept n ps).getD i 0) .top := by
  rw [removeRows, without_eq ps f.ranges .top, regular.ranges]
  simp [hi]

theorem Reads.unique {d p q : ℕ} (first : f.Reads n d p) (second : f.Reads n d q) (hd : d < n) :
    q = p := by
  by_contra other
  have entry := second.entry d hd
  rw [first.others q second.inside other, if_pos rfl] at entry
  exact zero_ne_one entry

section Removal

variable {ds ps : List ℕ} (reads : List.Forall₂ (fun d p => f.Reads n d p) ds ps)

include reads

theorem nodup_rows (distinct : ds.Nodup) (inside : ∀ d ∈ ds, d < n) : ps.Nodup := by
  induction reads with
  | nil => exact List.nodup_nil
  | @cons d p ds ps first rest ih =>
    obtain ⟨fresh, distinct⟩ := List.nodup_cons.mp distinct
    obtain ⟨hd, inside⟩ := List.forall_mem_cons.mp inside
    refine List.nodup_cons.mpr ⟨fun hp => ?_, ih distinct inside⟩
    obtain ⟨e, he, read⟩ := exists_of_mem_right rest hp
    have entry := (first.entry e (inside e he)).symm.trans (read.entry e (inside e he))
    simp only [if_true, ite_eq_left_iff, zero_ne_one, imp_false, not_not] at entry
    exact fresh (entry ▸ he)

theorem image_removeRows (regular : f.Regular n) {K : Type*} [Field K] {x y : ℕ → K}
    (agrees : ∀ i < (kept n ds).length, y i = x ((kept n ds).getD i 0)) {i : ℕ}
    (hi : i < (kept n ps).length) :
    (removeRows ds ps f).axes.image y i = f.axes.image x ((kept n ps).getD i 0) := by
  obtain ⟨small, notRead⟩ := mem_kept.mp (getD_mem hi)
  have width := regular.axes.shape.getD_length small
  rw [Mat.image, row_removeRows regular hi]
  refine Vec.eval_without (fun d hd => ?_) (by rwa [width])
  obtain ⟨p, hp, read⟩ := exists_of_mem_right reads.flip hd
  exact read.others _ small fun same => notRead (same ▸ hp)

variable (distinct : ds.Nodup) (inside : ∀ d ∈ ds, d < n)

include distinct inside

theorem length_kept_rows : (kept n ps).length = (kept n ds).length := by
  have rows := length_kept (nodup_rows reads distinct inside) (n := n) fun p hp => by
    obtain ⟨d, -, read⟩ := exists_of_mem_right reads hp
    exact read.inside
  have dims := length_kept distinct inside
  have same := reads.length_eq
  omega

variable (regular : f.Regular n)

include regular

/-- Only zero makes the remaining rows zero: with zeros at the dimensions that are gone it makes
all rows zero. -/
theorem regular_removeRows : (removeRows ds ps f).Regular (kept n ds).length := by
  have rows : (kept n ps).length = (kept n ds).length := length_kept_rows reads distinct inside
  have length : (removeRows ds ps f).axes.length = (kept n ds).length := by
    simp [removeRows, without_eq ps f.axes [], regular.axes.shape.length, rows]
  have ranges : (removeRows ds ps f).ranges.length = (kept n ds).length := by
    simp [removeRows, without_eq ps f.ranges .top, regular.ranges, rows]
  have shape : (removeRows ds ps f).axes.HasShape (kept n ds).length (kept n ds).length := by
    refine ⟨length, fun row hrow => ?_⟩
    obtain ⟨v, hv, rfl⟩ := List.mem_map.mp hrow
    have mem : v ∈ f.axes := by
      obtain ⟨entry, hentry, rfl⟩ := List.mem_map.mp hv
      exact (List.mem_zipIdx' (List.mem_of_mem_filter hentry)).2 ▸ List.getElem_mem _
    rw [without_eq ds v 0, List.length_map, regular.axes.shape.width v mem]
  refine ⟨.of_kernel shape fun y zero j hj => ?_, ranges, nofun⟩
  have agrees : ∀ i < (kept n ds).length, y i = restored n ds y 0 ((kept n ds).getD i 0) :=
    fun i hi => restored_kept y 0 hi
  have vanish : ∀ t < n, f.axes.image (restored n ds y 0) t = 0 := by
    intro t ht
    -- A row that is gone reads one of the dimensions that are gone; any other row is still there.
    by_cases read : t ∈ ps
    · obtain ⟨d, hd, read⟩ := exists_of_mem_right reads read
      rw [Mat.image, read.row, Vec.eval_unit (inside d hd)]
      exact if_pos hd
    · obtain ⟨i, hi, rfl⟩ := List.mem_iff_getElem.mp (mem_kept.mpr ⟨ht, read⟩)
      have row := image_removeRows reads regular agrees hi
      rw [List.getD_eq_getElem _ _ hi, zero i (rows ▸ hi)] at row
      exact row.symm
  rw [agrees j hj]
  exact regular.axes.kernel vanish (mem_kept.mp (getD_mem hj)).1

theorem removeRows_has {K : Type*} [Field K] [LinearOrder K] {x y : ℕ → K} (has : f.Has x)
    (agrees : ∀ i < (kept n ds).length, y i = x ((kept n ds).getD i 0)) :
    (removeRows ds ps f).Has y := by
  have rows : (kept n ps).length = (kept n ds).length := length_kept_rows reads distinct inside
  have regular' := regular_removeRows reads distinct inside regular
  rw [has_iff regular.same] at has
  rw [has_iff regular'.same]
  intro i
  by_cases hi : i < (kept n ps).length
  · rw [range_removeRows regular hi, image_removeRows reads regular agrees hi]
    exact has _
  · rw [List.getD_eq_default _ _ (by rw [regular'.ranges]; omega)]
    exact Interval.top_has

end Removal

theorem removeRows_ordered {ds ps : List ℕ} (hf : f.Ordered) : (removeRows ds ps f).Ordered := by
  intro I hI
  obtain ⟨entry, hentry, rfl⟩ := List.mem_map.mp hI
  exact hf _ ((List.mem_zipIdx' (List.mem_of_mem_filter hentry)).2 ▸ List.getElem_mem _)

end Frame

namespace Parallelotope

variable {K : Type*} [Field K] [LinearOrder K] [IsStrictOrderedRing K] {a : Parallelotope}
  {cfg : Settings} {ordered : Prop}

/-! ## Insertion -/

/-- The range of a new dimension. -/
def freshRange (project : Bool) : Interval := if project then .zero else .top

theorem freshRange_ordered (project : Bool) : (freshRange project).lo ≤ (freshRange project).hi := by
  cases project with
  | false => exact Bound.negInf_le _
  | true => exact le_rfl

omit [IsStrictOrderedRing K] in
theorem freshRange_has {project : Bool} {v : K} (zero : project → v = 0) :
    (freshRange project).Has v := by
  cases project with
  | false => exact Interval.top_has
  | true =>
    rw [zero rfl]
    exact Interval.zero_has

/-- The value `b` has the points that read those of `a` at the old places, with anything at the
new ones, or with zeros there when projecting. -/
structure Extends (a : Parallelotope) (ordered : Prop) (c : Change) (project : Bool) (K : Type*)
    [Field K] [LinearOrder K] (b : Parallelotope) : Prop where
  space : b.space = ⟨a.space.ints + c.ints, a.space.reals + c.reals⟩
  shaped : b.Shaped ordered
  axes : 0 < c.size → ∀ g, b.frame? = some g → ∃ f h, a.frame? = some f ∧ h.axes = g.axes ∧
    f.Spread b.space.size (oldPlaces a.space.size (c.positions.map Int.toNat))
      (freshPlaces (c.positions.map Int.toNat)) (freshRange project) h
  has : ∀ y : ℕ → K, b.space.Admits y →
    (a.Has fun j => y ((oldPlaces a.space.size (c.positions.map Int.toNat)).getD j 0)) →
    (project → ∀ t ∈ freshPlaces (c.positions.map Int.toNat), y t = 0) → b.Has y

theorem checkInsertion_eq_ok_iff {s : Space} {c : Change} {i : ℕ} {pos : ℤ} :
    checkInsertion s c i pos = .ok () ↔
      0 ≤ pos ∧ pos ≤ s.size ∧ if i < c.ints then pos ≤ s.ints else s.ints ≤ pos := by
  unfold checkInsertion
  by_cases outside : pos < 0 ∨ (s.size : ℤ) < pos
  · simp only [if_pos outside, reduceCtorEq, false_iff]
    omega
  · by_cases integer : i < c.ints
    · simp only [if_neg outside, integer, decide_true, true_and, not_true_eq_false, false_and, or_false,
        if_true, ite_eq_right_iff, reduceCtorEq, imp_false]
      omega
    · simp only [if_neg outside, integer, decide_false, Bool.false_eq_true, false_and, not_false_eq_true,
        true_and, false_or, if_false, ite_eq_right_iff, reduceCtorEq, imp_false]
      omega

theorem checkInsertion_eq_ok {s : Space} {c : Change} {i : ℕ} {pos : ℤ} {u : Unit}
    (h : checkInsertion s c i pos = .ok u) : pos ≤ s.size := (checkInsertion_eq_ok_iff.mp h).2.1

theorem checkInsertion_repeated {s : Space} {pos : ℕ} (k : ℕ) {integer : Bool} (inside : pos ≤ s.size)
    (side : if integer then pos ≤ s.ints else s.ints ≤ pos) :
    ∀ entry ∈ (Change.repeated pos k integer).positions.zipIdx,
      checkInsertion s (.repeated pos k integer) entry.2 entry.1 = .ok () := by
  rintro ⟨p, i⟩ mem
  have found : (Change.repeated pos k integer).positions[i]? = some p :=
    List.mem_zipIdx_iff_getElem?.mp mem
  obtain ⟨hi, rfl⟩ := List.getElem?_eq_some_iff.mp found
  have small : i < k := by simpa [Change.repeated] using hi
  rw [checkInsertion_eq_ok_iff]
  cases integer with
  | true => simpa [Change.repeated, small] using ⟨inside, side⟩
  | false => simpa [Change.repeated] using ⟨inside, side⟩

theorem checkInsertion_end (s : Space) (k : ℕ) :
    ∀ entry ∈ (Change.repeated s.size k false).positions.zipIdx,
      checkInsertion s (.repeated s.size k false) entry.2 entry.1 = .ok () :=
  checkInsertion_repeated k le_rfl (Nat.le_add_right ..)

theorem places_perm {c : Change} {n : ℕ} (inside : ∀ pos ∈ c.positions, pos ≤ (n : ℤ)) :
    (oldPlaces n (c.positions.map Int.toNat) ++ freshPlaces (c.positions.map Int.toNat)).Perm
      (List.range (n + (c.ints + c.reals))) := by
  have inside' : ∀ pos ∈ c.positions.map Int.toNat, pos ≤ n := by
    intro pos hpos
    obtain ⟨p, hp, rfl⟩ := List.mem_map.mp hpos
    have bound := inside p hp
    omega
  have perm := oldPlaces_append_freshPlaces_perm c.ascending_toNat inside'
  rwa [List.length_map, c.count] at perm

theorem exists_insertInto {f : Frame} {m n : ℕ} {positions : List ℕ}
    (regular : f.Regular n) (project : Bool)
    (places : (oldPlaces n positions ++ freshPlaces positions).Perm (List.range m)) :
    ∃ g, insertInto n m positions project f = .ok g ∧
      f.Spread m (oldPlaces n positions) (freshPlaces positions) (freshRange project) g := by
  have length : (oldPlaces n positions).length = n := length_oldPlaces ..
  refine ⟨_, ?_, regular.spread_move length places⟩
  rw [insertInto, regular.moveChecked_eq length]
  rfl

theorem addDimensions_meets {mayFail : Prop} (ha : a.Shaped ordered) (c : Change) (project : Bool)
    (fails : ∀ entry ∈ c.positions.zipIdx, ∀ e,
      checkInsertion a.space c entry.2 entry.1 = .error e → mayFail) :
    Op.Keeps ordered mayFail (a.addDimensions cfg c project) (a.Extends ordered c project K) := by
  unfold addDimensions
  refine (Op.meets_forM (R := fun entry => entry.1 ≤ (a.space.size : ℤ)) ?_).bind ?_
  · rintro ⟨pos, i⟩ mem
    exact Op.meets_lift (fun _ ok => checkInsertion_eq_ok ok) (fails _ mem)
  intro _ checked
  have inside : ∀ pos ∈ c.positions, pos ≤ (a.space.size : ℤ) := by
    intro pos hpos
    obtain ⟨i, hi, rfl⟩ := List.mem_iff_getElem.mp hpos
    exact checked (c.positions[i], i) (List.mem_zipIdx_iff_getElem?.mpr (List.getElem?_eq_getElem hi))
  have places := places_perm inside
  rw [← Space.size_add] at places
  cases hf : a.frame? with
  | none =>
    refine Op.move_meets (shaped_bottom _) ⟨rfl, shaped_bottom _, fun _ g hg => ?_, fun y _ has => ?_⟩
    · simp at hg
    · exact absurd has (not_has_of_none hf _)
  | some f =>
    obtain ⟨regular, hordered⟩ := ha f hf
    by_cases unchanged : c.size = 0
    · -- No dimension is added, and the value is returned as it is.
      simp only [if_pos unchanged]
      obtain ⟨none, space⟩ := Change.unchanged unchanged a.space
      refine Op.meets_pure ⟨space, ha, fun pos => absurd unchanged pos.ne', ?_⟩
      rintro y - ⟨f', hf', has⟩ -
      obtain rfl : f = f' := Option.some.inj (hf.symm.trans hf')
      refine ⟨f, hf, regular.has_congr (fun j hj => ?_) has⟩
      simp [none, oldPlaces, hj]
    · simp only [if_neg unchanged]
      obtain ⟨g, inserted, spread⟩ := exists_insertInto regular project places
      have length : (oldPlaces a.space.size (c.positions.map Int.toNat)).length = a.space.size :=
        length_oldPlaces ..
      have moved : Shaped ordered ⟨⟨a.space.ints + c.ints, a.space.reals + c.reals⟩, some g⟩ := by
        refine shaped_mk (spread.regular regular length) fun h => ?_
        exact spread.ordered regular length (hordered h) (freshRange_ordered project)
      refine (Op.meets_lift_ok inserted rfl).bind ?_
      rintro _ rfl
      refine (Op.move_meets moved rfl).bind ?_
      rintro _ rfl
      refine (tidy_keeps (K := K) moved.weaken).imp ?_
      rintro b ⟨tidied, axes⟩
      refine ⟨tidied.space, tidied.shaped.of_true, fun _ g' hg' => ?_, fun y admits has zero => ?_⟩
      · obtain ⟨h, hh, same⟩ := axes g' hg'
        obtain rfl : g = h := Option.some.inj hh
        exact ⟨f, g, hf, same.symm, by rwa [tidied.space]⟩
      · rw [tidied.space] at admits
        refine tidied.keeps y admits (has_mk.mpr ?_) trivial
        refine spread.has regular length ((has_iff_of_frame hf).mp has) fun t ht => ?_
        exact freshRange_has fun h => zero h t ht

theorem addDimensions_keeps (ha : a.Shaped ordered) (c : Change) (project : Bool) :
    Op.Keeps ordered True (a.addDimensions cfg c project) (a.Extends ordered c project K) :=
  addDimensions_meets ha c project fun _ _ _ _ => trivial

/-! ## Removal -/

theorem spaceAfter_eq_ok {s s' : Space} {c : Change} {ds : List ℕ}
    (h : spaceAfter s c ds = .ok s') :
    ds.countP (s.isInt ·) = c.ints ∧ s'.ints + c.ints = s.ints ∧ s'.reals + c.reals = s.reals := by
  unfold spaceAfter at h
  by_cases announced : ds.countP (s.isInt ·) = c.ints
  · simp only [announced, ne_eq, not_true_eq_false, if_false, Space.ofCounts] at h
    split at h
    · contradiction
    · obtain rfl := Except.ok.inj h
      simp only
      omega
  · simp only [announced, ne_eq, not_false_eq_true, if_true] at h
    cases h

theorem positions_of_checked {s : Space} {c : Change} {ds : List ℕ}
    (checked : s.checkDistinct (c.positions.map Datum.int) = .ok ds) :
    c.positions = List.map (fun d : ℕ => (d : ℤ)) ds := by
  have injective : Function.Injective Datum.int := fun _ _ => Datum.int.inj
  refine injective.list_map ((Space.checkDistinct_eq_ok.mp checked).1.trans ?_)
  rw [List.map_map]
  rfl

theorem listed_of_checked {s s' : Space} {dims ds : List ℕ}
    (checked : s.checkDistinct ((Change.listing s' dims).positions.map Datum.int) = .ok ds) :
    ds = dims.mergeSort :=
  (Nat.cast_injective (R := ℤ)).list_map (positions_of_checked checked).symm

theorem size_of_spaceAfter {s s' : Space} {c : Change} {ds : List ℕ}
    (checked : s.checkDistinct (c.positions.map Datum.int) = .ok ds) (h : spaceAfter s c ds = .ok s') :
    s'.size = (kept s.size ds).length := by
  obtain ⟨-, distinct, inside⟩ := Space.checkDistinct_eq_ok.mp checked
  obtain ⟨-, ints, reals⟩ := spaceAfter_eq_ok h
  have left := length_kept distinct inside
  have count := c.count
  rw [positions_of_checked checked, List.length_map] at count
  simp only [Space.size] at left ⊢
  omega

/-- The value `b` has the points of `a` without the dimensions of the change. -/
structure Restricts (a : Parallelotope) (ordered : Prop) (c : Change) (K : Type*) [Field K]
    [LinearOrder K] (ds : List ℕ) (b : Parallelotope) : Prop where
  dims : c.positions = List.map (fun d : ℕ => (d : ℤ)) ds
  distinct : ds.Nodup
  inside : ∀ d ∈ ds, d < a.space.size
  ints : b.space.ints + ds.countP (a.space.isInt ·) = a.space.ints
  size : b.space.size = (kept a.space.size ds).length
  shaped : b.Shaped ordered
  has : ∀ x y : ℕ → K, a.space.Admits x → a.Has x →
    (∀ i < (kept a.space.size ds).length, y i = x ((kept a.space.size ds).getD i 0)) → b.Has y

omit [LinearOrder K] [IsStrictOrderedRing K] in
theorem admits_kept {s s' : Space} {ds : List ℕ} (distinct : ds.Nodup)
    (ints : s'.ints + ds.countP (s.isInt ·) = s.ints) (size : s'.size = (kept s.size ds).length)
    {x y : ℕ → K} (admits : s.Admits x)
    (agrees : ∀ i < (kept s.size ds).length, y i = x ((kept s.size ds).getD i 0)) :
    s'.Admits y := by
  intro i hi
  have small : i < s'.size := by
    rw [Space.size]
    omega
  -- As many integer dimensions go as the space loses, so the first ones left were integer before.
  have first : (kept s.size ds).getD i 0 < s.ints := by
    refine kept_getD_lt (by rw [Space.size]; omega) distinct ?_
    simp only [Space.isInt] at ints
    omega
  rw [agrees i (size ▸ small)]
  exact admits _ first

/-- Dimensions are removed unless the change does not list dimensions of the space, or announces
other counts of them. -/
theorem removeDimensions_meets {mayFail : Prop} (ha : a.Shaped ordered) (c : Change)
    (unlisted : ∀ e, a.space.checkDistinct (c.positions.map Datum.int) = .error e → mayFail)
    (miscounted : ∀ ds, a.space.checkDistinct (c.positions.map Datum.int) = .ok ds →
      ∀ e, spaceAfter a.space c ds = .error e → mayFail) :
    Op.Keeps ordered mayFail (a.removeDimensions cfg c) fun b =>
      ∃ ds, a.Restricts ordered c K ds b := by
  unfold removeDimensions
  refine (Op.meets_lift (fun _ => id) unlisted).bind ?_
  intro ds checked
  obtain ⟨-, distinct, inside⟩ := Space.checkDistinct_eq_ok.mp checked
  refine (Op.meets_lift (fun _ => id) (miscounted ds checked)).bind ?_
  intro s after
  obtain ⟨listed, ints, reals⟩ := spaceAfter_eq_ok after
  have dims := positions_of_checked checked
  have size := size_of_spaceAfter checked after
  have counted : s.ints + ds.countP (a.space.isInt ·) = a.space.ints := by rw [listed, ints]
  by_cases none : ds.isEmpty
  · simp only [if_pos none]
    obtain rfl := List.isEmpty_iff.mp none
    refine Op.meets_pure ⟨[], dims, distinct, inside, by simp, by simp [kept], ha, ?_⟩
    rintro x y - ⟨f, hf, has⟩ agrees
    refine ⟨f, hf, (ha f hf).1.has_congr (fun j hj => ?_) has⟩
    simpa [kept, hj] using (agrees j (by simpa [kept] using hj)).symm
  · simp only [if_neg none]
    cases hf : a.frame? with
    | none =>
      refine Op.move_meets (shaped_bottom _)
        ⟨ds, dims, distinct, inside, counted, size, shaped_bottom _, fun x y _ has => ?_⟩
      exact absurd has (not_has_of_none hf x)
    | some f =>
      obtain ⟨regular, hordered⟩ := ha f hf
      refine (regular.forgetAll_keeps (K := K) hordered distinct inside).bind ?_
      rintro ⟨g, ps⟩ forgets
      have removed : Shaped ordered ⟨s, some (removeRows ds ps g)⟩ := by
        refine shaped_mk ?_ fun h => Frame.removeRows_ordered (forgets.ordered h)
        rw [size]
        exact Frame.regular_removeRows forgets.reads distinct inside forgets.regular
      refine (Op.move_meets removed rfl).bind ?_
      rintro _ rfl
      refine (tidy_keeps (K := K) removed.weaken).imp ?_
      rintro b ⟨tidied, -⟩
      refine ⟨ds, dims, distinct, inside, ?_, ?_, tidied.shaped.of_true, ?_⟩
      · rw [tidied.space, counted]
      · rw [tidied.space, size]
      · intro x y admits has agrees
        refine tidied.keeps y (admits_kept distinct counted size admits agrees) (has_mk.mpr ?_) trivial
        refine Frame.removeRows_has forgets.reads distinct inside forgets.regular ?_ agrees
        -- Forgetting keeps the point itself; then its dimensions are dropped with their rows.
        exact forgets.has x x ((has_iff_of_frame hf).mp has) (fun _ _ => rfl) (by simp)

theorem removeDimensions_keeps (ha : a.Shaped ordered) (c : Change) :
    Op.Keeps ordered True (a.removeDimensions cfg c) fun b => ∃ ds, a.Restricts ordered c K ds b :=
  removeDimensions_meets ha c (fun _ _ => trivial) fun _ _ _ _ => trivial

theorem exists_spaceAfter {s : Space} {c : Change} {ds : List ℕ} (distinct : ds.Nodup)
    (inside : ∀ d ∈ ds, d < s.size) (length : ds.length = c.ints + c.reals)
    (announced : ds.countP (s.isInt ·) = c.ints) : ∃ s', spaceAfter s c ds = .ok s' := by
  -- The dimensions are distinct, so no more of a kind can be removed than there are.
  have integers : (ds.filter (s.isInt ·)).length ≤ s.ints := by
    have sub : ds.filter (s.isInt ·) ⊆ List.range s.ints := fun d hd => by
      simpa [Space.isInt] using (List.mem_filter.mp hd).2
    simpa using ((distinct.filter _).subperm sub).length_le
  have reals : (ds.filter (!s.isInt ·)).length ≤ s.reals := by
    have sub : ds.filter (!s.isInt ·) ⊆ (List.range s.reals).map (s.ints + ·) := fun d hd => by
      obtain ⟨mem, real⟩ := List.mem_filter.mp hd
      have small := inside d mem
      simp only [Space.isInt, Bool.not_eq_true', decide_eq_false_iff_not, not_lt] at real
      rw [Space.size] at small
      exact List.mem_map.mpr ⟨d - s.ints, List.mem_range.mpr (by omega), by omega⟩
    simpa using ((distinct.filter _).subperm sub).length_le
  have split := List.length_eq_countP_add_countP (s.isInt ·) (l := ds)
  rw [List.countP_eq_length_filter] at announced
  rw [List.countP_eq_length_filter, List.countP_eq_length_filter] at split
  have others : (ds.filter fun d => decide ¬ s.isInt d = true) = ds.filter (!s.isInt ·) :=
    List.filter_congr fun d _ => by simp
  rw [others] at split
  unfold spaceAfter
  simp only [List.countP_eq_length_filter, announced, ne_eq, not_true_eq_false, if_false, Space.ofCounts]
  rw [if_neg (by omega)]
  exact ⟨_, rfl⟩

theorem removeDimensions_total {mayFail : Prop} {c : Change} {ds : List ℕ} (ha : a.Shaped ordered)
    (checked : a.space.checkDistinct (c.positions.map Datum.int) = .ok ds)
    (announced : ds.countP (a.space.isInt ·) = c.ints) :
    Op.Keeps ordered mayFail (a.removeDimensions cfg c) fun b => ∃ ds, a.Restricts ordered c K ds b := by
  obtain ⟨-, distinct, inside⟩ := Space.checkDistinct_eq_ok.mp checked
  have length : ds.length = c.ints + c.reals := by
    have count := c.count
    rwa [positions_of_checked checked, List.length_map] at count
  obtain ⟨s, after⟩ := exists_spaceAfter distinct inside length announced
  refine removeDimensions_meets ha c (fun e refused => ?_) fun ds' checked' e refused => ?_
  · rw [checked] at refused
    cases refused
  · obtain rfl := Except.ok.inj (checked.symm.trans checked')
    rw [after] at refused
    cases refused

/-- A change that lists dimensions lists them in any space that has them, with the same integer ones. -/
theorem checked_listing {s s' : Space} {dims : List ℕ} (distinct : dims.Nodup)
    (inside : ∀ d ∈ dims, d < s'.size) (ints : s'.ints = s.ints) :
    s'.checkDistinct ((Change.listing s dims).positions.map Datum.int) = .ok dims.mergeSort ∧
      dims.mergeSort.countP (s'.isInt ·) = (Change.listing s dims).ints := by
  have perm := List.mergeSort_perm dims (fun a b => decide (a ≤ b))
  constructor
  · rw [Space.checkDistinct_eq_ok, Change.listing, List.map_map]
    exact ⟨rfl, perm.nodup_iff.mpr distinct, fun d hd => inside d (perm.mem_iff.mp hd)⟩
  · rw [perm.countP_eq]
    simp only [Change.listing, Space.isInt, ints]

/-! ## Permutation -/

theorem Shaped.permuted {f : Frame} {s : Space} {targets : List ℕ} (regular : f.Regular s.size)
    (hf : ordered → f.Ordered) (perm : targets.Perm (List.range s.size)) :
    Shaped ordered ⟨s, some (f.move s.size targets)⟩ := by
  have spread : f.Spread s.size targets [] .top (f.move s.size targets) :=
    regular.spread_permuted perm
  have length : targets.length = s.size := by simpa using perm.length_eq
  refine shaped_mk (spread.regular regular length) fun h => ?_
  exact spread.ordered regular length (hf h) (Bound.negInf_le _)

theorem moveRows_keeps {f : Frame} {s : Space} {targets : List ℕ} {mayFail : Prop}
    (regular : f.Regular s.size) (hf : ordered → f.Ordered) (perm : targets.Perm (List.range s.size)) :
    Op.Keeps ordered mayFail (do Op.move ⟨s, some (← f.moveChecked s.size targets)⟩) fun b =>
      b.space = s ∧ b.Shaped ordered ∧ ∀ y : ℕ → K, (f.Has fun j => y (targets.getD j 0)) → b.Has y := by
  have length : targets.length = s.size := by simpa using perm.length_eq
  have shaped := Shaped.permuted regular hf perm
  refine (Op.meets_lift_ok (regular.moveChecked_eq length) rfl).bind ?_
  rintro _ rfl
  refine Op.move_meets shaped ⟨rfl, shaped, fun y has => has_mk.mpr ?_⟩
  have spread : f.Spread s.size targets [] .top (f.move s.size targets) :=
    regular.spread_permuted perm
  exact spread.has regular length has (by simp)

theorem permute_meets {mayFail : Prop} (ha : a.Shaped ordered) (p : Perm)
    (fails : p.size ≠ a.space.size → mayFail) :
    Op.Keeps ordered mayFail (a.permute p) fun b => b.space = a.space ∧ b.Shaped ordered ∧
      ∀ y : ℕ → K, (a.Has fun j => y (p.images.getD j 0)) → b.Has y := by
  unfold permute
  by_cases size : p.size = a.space.size
  · simp only [ne_eq, size, not_true_eq_false, if_false]
    cases hf : a.frame? with
    | none =>
      exact Op.meets_pure ⟨rfl, ha, fun y has => absurd has (not_has_of_none hf _)⟩
    | some f =>
      obtain ⟨regular, hordered⟩ := ha f hf
      refine (moveRows_keeps (K := K) regular hordered (size ▸ p.perm)).imp ?_
      rintro b ⟨space, shaped, points⟩
      exact ⟨space, shaped, fun y has => points y ((has_iff_of_frame hf).mp has)⟩
  · simp only [ne_eq, size, not_false_eq_true, if_true]
    exact Op.meets_throw_bind _ (fails size)

theorem permute_keeps (ha : a.Shaped ordered) (p : Perm) :
    Op.Keeps ordered True (a.permute p) fun b => b.space = a.space ∧ b.Shaped ordered ∧
      ∀ y : ℕ → K, (a.Has fun j => y (p.images.getD j 0)) → b.Has y :=
  permute_meets ha p fun _ => trivial

/-! ## Expansion -/

@[simp] theorem size_repeated (pos k : ℕ) (integer : Bool) : (Change.repeated pos k integer).size = k := by
  simp [Change.size, Change.repeated]

theorem places_repeated (n pos k : ℕ) (integer : Bool) :
    freshPlaces ((Change.repeated pos k integer).positions.map Int.toNat) = List.range' pos k ∧
      ∀ d < n, d < pos →
        (oldPlaces n ((Change.repeated pos k integer).positions.map Int.toNat)).getD d 0 = d := by
  constructor
  · apply List.ext_getElem (by simp [freshPlaces, Change.repeated])
    intro i _ _
    simp [freshPlaces, Change.repeated]
  · intro d hd before
    simp [oldPlaces, Change.repeated, hd, before]

omit [IsStrictOrderedRing K] in
theorem copyDimension_meets {mayFail : Prop} {b : Parallelotope} {pos k d : ℕ} {integer : Bool}
    (ha : a.Shaped ordered)
    (extended : a.Extends ordered (.repeated pos k integer) false K b) (inside : d < a.space.size)
    (before : d < pos) (many : 0 < k) (fails : b.frame? = none → mayFail) :
    Op.Keeps ordered mayFail (b.copyDimension cfg d pos k) (·.Shaped ordered) := by
  unfold copyDimension
  cases hg : b.frame? with
  | none => exact Op.meets_throw _ (fails hg)
  | some g =>
    have regular_g := (extended.shaped g hg).1
    obtain ⟨f, h, hf, axes, spread⟩ := extended.axes (by simpa) g hg
    have regular := (ha f hf).1
    obtain ⟨fresh, old⟩ := places_repeated a.space.size pos k integer
    have length : (oldPlaces a.space.size
        ((Change.repeated pos k integer).positions.map Int.toNat)).length = a.space.size :=
      length_oldPlaces ..
    have hd : d ∈ oldPlaces a.space.size
        ((Change.repeated pos k integer).positions.map Int.toNat) :=
      old d inside before ▸ getD_mem (length.symm ▸ inside)
    have small : d < b.space.size := spread.lt_of_mem (List.mem_append_left _ hd)
    obtain ⟨rows, mentioned, mem⟩ := regular_g.exists_mentioning small
    obtain ⟨p, found, hp, pivot⟩ := regular_g.exists_pivotFor? small mem
    refine (Op.meets_lift_ok mentioned rfl).bind ?_
    rintro _ rfl
    simp only [found]
    have copies := g.setRows_foldl (List.range' pos k) (fun t => copyRow d t (g.axes.getD p []))
      (g.ranges.getD p .top)
    -- The copies go to the places of the new dimensions, which held unit rows.
    rw [fresh] at spread
    have copied := spread.copied_regular regular length hd hp (axes ▸ pivot) axes.symm regular_g.ranges
      (by simpa using many.ne') copies
    exact Op.put_meets (copied.normalize ordered).toParallelotope
      (copied.normalize ordered).toParallelotope

theorem expand_keeps (ha : a.Shaped ordered) (datum : Datum) (count : ℤ) :
    Op.Keeps ordered True (a.expand cfg datum count) (·.Shaped ordered) := by
  unfold expand
  refine (Op.meets_lift (fun _ ok => Space.check_eq_ok.mp ok) fun _ _ => trivial).bind ?_
  rintro d ⟨-, inside⟩
  by_cases negative : count < 0
  · simp only [if_pos negative]
    exact Op.meets_throw_bind _ trivial
  simp only [if_neg negative]
  by_cases zero : count.toNat = 0
  · simp only [if_pos zero]
    exact Op.meets_pure ha
  simp only [if_neg zero]
  generalize hpos : (if a.space.isInt d = true then a.space.ints else a.space.size) = pos
  have before : d < pos := by
    rw [← hpos]
    split
    · rename_i integer
      exact of_decide_eq_true integer
    · exact inside
  -- Room for the copies is made first, whether the value has rows or not.
  have grow : Op.Keeps ordered True (a.addDimensions cfg _ false) (a.Extends ordered _ false ℚ) :=
    addDimensions_keeps ha (.repeated pos count.toNat (a.space.isInt d)) false
  cases hf : a.frame? with
  | none => exact grow.imp fun b extended => extended.shaped
  | some f =>
    have copy : ∀ b, a.Extends ordered (.repeated pos count.toNat (a.space.isInt d)) false ℚ b →
        Op.Keeps ordered True (b.copyDimension cfg d pos count.toNat) (·.Shaped ordered) :=
      fun b extended => copyDimension_meets ha extended inside before (Nat.pos_of_ne_zero zero)
        fun _ => trivial
    obtain ⟨rows, mentioned, -⟩ := (ha f hf).1.exists_mentioning inside
    refine (Op.meets_lift_ok mentioned rfl).bind ?_
    rintro _ rfl
    -- Several rows that mention the dimension clear the mark, and the copies are made alike.
    split
    · exact Op.inexact_meets.bind fun _ _ => grow.bind copy
    · exact grow.bind copy

end Parallelotope

end SkewBox
