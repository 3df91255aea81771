import Mathlib.Tactic
import SkewBox.Reshape
import SkewBox.Proofs.Linear

/-!
# Places of dimensions

New dimensions take places between the old ones, some places are left out, and two may be
exchanged.  In each case the places that are used are those of a permutation.

* `kept`, `without_eq`, `Vec.eval_without`: places that are not left out.
* `kept_eq_of_perm`: places in order that are all but those left out.
-/

namespace SkewBox

open Parallelotope (oldPlaces freshPlaces exchange without)

theorem perm_range {l : List ℕ} {n : ℕ} (distinct : l.Nodup) (inside : ∀ i ∈ l, i < n)
    (length : l.length = n) : l.Perm (List.range n) := by
  refine (List.subperm_of_subset distinct fun i hi => ?_).perm_of_length_le ?_
  · exact List.mem_range.mpr (inside i hi)
  · rw [List.length_range, length]

theorem getD_mem {l : List ℕ} {i : ℕ} (hi : i < l.length) : l.getD i 0 ∈ l := by
  rw [List.getD_eq_getElem _ _ hi]
  exact List.getElem_mem hi

theorem eq_of_getD {α : Type} {xs ys : List α} {n : ℕ} {d : α} (hx : xs.length = n)
    (hy : ys.length = n) (same : ∀ i < n, xs.getD i d = ys.getD i d) : xs = ys := by
  apply List.ext_getElem (hx.trans hy.symm)
  intro i hi hi'
  have entries := same i (hx ▸ hi)
  rwa [List.getD_eq_getElem _ _ hi, List.getD_eq_getElem _ _ hi'] at entries

theorem exists_of_mem_right {α β : Type} {R : α → β → Prop} {as : List α} {bs : List β}
    (related : List.Forall₂ R as bs) {b : β} (hb : b ∈ bs) : ∃ a ∈ as, R a b := by
  induction related with
  | nil => exact absurd hb List.not_mem_nil
  | cons first _ ih =>
    rcases List.mem_cons.mp hb with rfl | later
    · exact ⟨_, List.mem_cons_self .., first⟩
    · obtain ⟨a, ha, rel⟩ := ih later
      exact ⟨a, List.mem_cons_of_mem _ ha, rel⟩

theorem forall_mem_iff_of_forall₂ {α β : Type} {R : α → β → Prop} {l : List α} {l' : List β}
    (related : List.Forall₂ R l l') {P : β → Prop} {Q : α → Prop}
    (same : ∀ a ∈ l, ∀ b, R a b → (P b ↔ Q a)) : (∀ b ∈ l', P b) ↔ ∀ a ∈ l, Q a := by
  induction related with
  | nil => simp
  | @cons a b l l' first _ ih =>
    obtain ⟨here, later⟩ := List.forall_mem_cons.mp same
    rw [List.forall_mem_cons, List.forall_mem_cons, here b first, ih later]

theorem exists_mem_iff_of_forall₂ {α β : Type} {R : α → β → Prop} {l : List α} {l' : List β}
    (related : List.Forall₂ R l l') {P : β → Prop} {Q : α → Prop}
    (same : ∀ a ∈ l, ∀ b, R a b → (P b ↔ Q a)) : (∃ b ∈ l', P b) ↔ ∃ a ∈ l, Q a := by
  induction related with
  | nil => simp
  | @cons a b l l' first _ ih =>
    obtain ⟨here, later⟩ := List.forall_mem_cons.mp same
    rw [List.exists_mem_cons_iff, List.exists_mem_cons_iff, here b first, ih later]

/-! ## Entries at given places -/

section Place

variable {α : Type} {n : ℕ} {fill : α} {targets : List ℕ} {xs : List α}

theorem length_place : (place n fill targets xs).length = n := by
  suffices general : ∀ (pairs : List (ℕ × α)) (acc : List α),
      (pairs.foldl (fun acc pair => acc.set pair.1 pair.2) acc).length = acc.length from
    (general (targets.zip xs) (List.replicate n fill)).trans (List.length_replicate ..)
  intro pairs
  induction pairs with
  | nil => exact fun _ => rfl
  | cons pair pairs ih => exact fun acc => (ih _).trans (List.length_set ..)

theorem getElem?_foldl_set {pairs : List (ℕ × α)} {acc : List α} {t : ℕ}
    (other : ∀ pair ∈ pairs, pair.1 ≠ t) :
    (pairs.foldl (fun acc (t, x) => acc.set t x) acc)[t]? = acc[t]? := by
  induction pairs generalizing acc with
  | nil => rfl
  | cons pair pairs ih =>
    obtain ⟨first, rest⟩ := List.forall_mem_cons.mp other
    rw [List.foldl_cons, ih rest]
    exact List.getElem?_set_ne first

theorem getElem?_place_of_mem (distinct : targets.Nodup) (inside : ∀ t ∈ targets, t < n) {t : ℕ}
    {x : α} (mem : (t, x) ∈ targets.zip xs) : (place n fill targets xs)[t]? = some x := by
  -- The entries are written in turn; one that is written stays, since no later one goes there.
  suffices general : ∀ (targets : List ℕ) (xs acc : List α), targets.Nodup →
      (∀ t ∈ targets, t < acc.length) → (t, x) ∈ targets.zip xs →
      ((targets.zip xs).foldl (fun acc (t, x) => acc.set t x) acc)[t]? = some x from
    general targets xs (List.replicate n fill) distinct (by simpa using inside) mem
  clear distinct inside mem
  intro targets
  induction targets with
  | nil => simp
  | cons first rest ih =>
    intro xs acc distinct inside mem
    cases xs with
    | nil => simp at mem
    | cons y ys =>
      obtain ⟨fresh, distinct⟩ := List.nodup_cons.mp distinct
      obtain ⟨hfirst, hrest⟩ := List.forall_mem_cons.mp inside
      rw [List.zip_cons_cons, List.foldl_cons]
      rcases List.mem_cons.mp mem with same | later
      · obtain ⟨rfl, rfl⟩ := Prod.ext_iff.mp same
        rw [getElem?_foldl_set fun pair hpair => ?_]
        · exact List.getElem?_set_self hfirst
        · rintro rfl
          exact fresh (List.of_mem_zip hpair).1
      · exact ih ys (acc.set first y) distinct (by simpa using hrest) later

theorem getD_place (distinct : targets.Nodup) (inside : ∀ t ∈ targets, t < n) {i : ℕ}
    (hi : i < targets.length) (hx : i < xs.length) (d : α) :
    (place n fill targets xs).getD (targets.getD i 0) d = xs.getD i d := by
  have mem : (targets.getD i 0, xs.getD i d) ∈ targets.zip xs := by
    rw [List.mem_iff_getElem]
    exact ⟨i, by simp [hi, hx], by simp [hi, hx]⟩
  rw [List.getD_eq_getElem?_getD, getElem?_place_of_mem distinct inside mem, Option.getD_some]

end Place

variable {K : Type*} [Field K]

theorem Vec.eval_place [CharZero K] {n : ℕ} {targets : List ℕ} (distinct : targets.Nodup)
    (inside : ∀ t ∈ targets, t < n) {row : Vec} (fits : row.length ≤ targets.length) (y : ℕ → K) :
    Vec.eval (place n 0 targets row) y = row.eval fun i => y (targets.getD i 0) := by
  -- The accumulator is still zero at the places that are written later.
  suffices general : ∀ (targets : List ℕ) (row acc : Vec), targets.Nodup →
      (∀ t ∈ targets, t < acc.length ∧ acc.getD t 0 = 0) → row.length ≤ targets.length →
      Vec.eval ((targets.zip row).foldl (fun acc (t, x) => acc.set t x) acc) y =
        acc.eval y + row.eval fun i => y (targets.getD i 0) by
    have zeros : ∀ t ∈ targets, t < (Vec.zeros n).length ∧ (Vec.zeros n).getD t 0 = 0 := by
      intro t ht
      have small := inside t ht
      simp [Vec.zeros, small]
    have value := general targets row (Vec.zeros n) distinct zeros fits
    rwa [Vec.eval_zeros, zero_add] at value
  clear distinct inside fits
  intro targets
  induction targets with
  | nil =>
    intro row acc _ _ fits
    obtain rfl := List.length_eq_zero_iff.mp (Nat.le_zero.mp fits)
    simp
  | cons first rest ih =>
    intro row acc distinct free fits
    cases row with
    | nil => simp
    | cons c row =>
      obtain ⟨fresh, distinct⟩ := List.nodup_cons.mp distinct
      obtain ⟨⟨hfirst, zero⟩, hrest⟩ := List.forall_mem_cons.mp free
      have free' : ∀ t ∈ rest, t < (acc.set first c).length ∧ (acc.set first c).getD t 0 = 0 := by
        intro t ht
        have other : first ≠ t := fun same => fresh (same ▸ ht)
        refine ⟨by simpa using (hrest t ht).1, ?_⟩
        rw [List.getD_eq_getElem?_getD, List.getElem?_set_ne other, ← List.getD_eq_getElem?_getD]
        exact (hrest t ht).2
      rw [List.zip_cons_cons, List.foldl_cons,
        ih row (acc.set first c) distinct free' (by simpa using fits), Vec.eval_set hfirst, zero,
        Vec.eval_cons]
      simp
      ring

/-! ## Places of new dimensions -/

theorem Space.size_add (s : Space) (i r : ℕ) : Space.size ⟨s.ints + i, s.reals + r⟩ = s.size + (i + r) := by
  simp only [Space.size]
  omega

theorem Space.size_addReals (s : Space) (k : ℕ) : Space.size ⟨s.ints, s.reals + k⟩ = s.size + k :=
  (Nat.add_assoc ..).symm

theorem Change.unchanged {c : Change} (none : c.size = 0) (s : Space) :
    c.positions = [] ∧ s = ⟨s.ints + c.ints, s.reals + c.reals⟩ := by
  have positions : c.positions = [] := List.length_eq_zero_iff.mp none
  have counts := c.count
  rw [positions, List.length_nil] at counts
  refine ⟨positions, ?_⟩
  rw [show c.ints = 0 by omega, show c.reals = 0 by omega]
  rfl

theorem Change.ascending_toNat (c : Change) : (c.positions.map Int.toNat).Pairwise (· ≤ ·) :=
  List.pairwise_map.mpr (c.ascending.imp fun le => Int.toNat_le_toNat le)

@[simp] theorem length_oldPlaces (n : ℕ) (positions : List ℕ) : (oldPlaces n positions).length = n := by
  simp [oldPlaces]

theorem oldPlaces_ascending (n : ℕ) (positions : List ℕ) : (oldPlaces n positions).Pairwise (· < ·) := by
  refine List.pairwise_map.mpr (List.pairwise_lt_range.imp fun {j j'} lt => ?_)
  have more := List.countP_mono_left (l := positions) (p := (· ≤ j)) (q := (· ≤ j'))
    fun pos _ => by simp only [decide_eq_true_eq]; omega
  omega

section Insertion

variable {n : ℕ} {positions : List ℕ} (ascending : positions.Pairwise (· ≤ ·))

include ascending

theorem lt_countP_of_le {i j : ℕ} (hi : i < positions.length) (le : positions[i] ≤ j) :
    i < positions.countP (· ≤ j) := by
  have early : (positions.take (i + 1)).countP (· ≤ j) = (positions.take (i + 1)).length := by
    refine List.countP_eq_length.mpr fun pos hpos => ?_
    obtain ⟨k, hk, rfl⟩ := List.mem_iff_getElem.mp hpos
    rw [List.getElem_take, decide_eq_true_eq]
    rw [List.length_take] at hk
    rcases (by omega : k < i ∨ k = i) with before | rfl
    · exact (List.pairwise_iff_getElem.mp ascending k i _ hi before).trans le
    · exact le
  have total : positions.countP (· ≤ j) =
      (positions.take (i + 1)).countP (· ≤ j) + (positions.drop (i + 1)).countP (· ≤ j) := by
    rw [← List.countP_append, List.take_append_drop]
  rw [early, List.length_take] at total
  omega

theorem countP_le_of_lt {i j : ℕ} (hi : i < positions.length) (lt : j < positions[i]) :
    positions.countP (· ≤ j) ≤ i := by
  have late : (positions.drop i).countP (· ≤ j) = 0 := by
    refine List.countP_eq_zero.mpr fun pos hpos => ?_
    obtain ⟨k, hk, rfl⟩ := List.mem_iff_getElem.mp hpos
    rw [List.getElem_drop, decide_eq_true_eq, not_le]
    rw [List.length_drop] at hk
    rcases (by omega : k = 0 ∨ i < i + k) with rfl | after
    · simpa using lt
    · exact lt.trans_le (List.pairwise_iff_getElem.mp ascending i (i + k) hi (by omega) after)
  have total : positions.countP (· ≤ j) =
      (positions.take i).countP (· ≤ j) + (positions.drop i).countP (· ≤ j) := by
    rw [← List.countP_append, List.take_append_drop]
  have bound := List.countP_le_length (p := (· ≤ j)) (l := positions.take i)
  rw [late] at total
  rw [List.length_take] at bound
  omega

theorem freshPlaces_ascending : (freshPlaces positions).Pairwise (· < ·) := by
  refine List.pairwise_iff_getElem.mpr fun i j hi hj lt => ?_
  simp only [freshPlaces, List.getElem_mapIdx, List.length_mapIdx] at hi hj ⊢
  have le := List.pairwise_iff_getElem.mp ascending i j hi hj lt
  omega

theorem oldPlaces_append_freshPlaces_perm (inside : ∀ pos ∈ positions, pos ≤ n) :
    (oldPlaces n positions ++ freshPlaces positions).Perm
      (List.range (n + positions.length)) := by
  refine perm_range (List.nodup_append.mpr ⟨?_, ?_, ?_⟩) ?_ ?_
  · exact (oldPlaces_ascending n positions).imp fun lt => lt.ne
  · exact (freshPlaces_ascending ascending).imp fun lt => lt.ne
  · rintro _ hold _ hfresh rfl
    obtain ⟨j, hj, same⟩ := List.mem_map.mp hold
    obtain ⟨i, hi, rfl⟩ := List.mem_mapIdx.mp hfresh
    -- A new place lies before the old ones that its position counts for, and behind the others.
    rcases le_or_gt positions[i] j with le | gt
    · have count := lt_countP_of_le ascending hi le
      omega
    · have count := countP_le_of_lt ascending hi gt
      omega
  · intro t ht
    rcases List.mem_append.mp ht with hold | hfresh
    · obtain ⟨j, hj, rfl⟩ := List.mem_map.mp hold
      have bound := List.countP_le_length (p := (· ≤ j)) (l := positions)
      have small := List.mem_range.mp hj
      omega
    · obtain ⟨i, hi, rfl⟩ := List.mem_mapIdx.mp hfresh
      have small := inside _ (List.getElem_mem hi)
      omega
  · simp [oldPlaces, freshPlaces]

end Insertion

/-! ## Exchanged places -/

theorem exchange_perm {n i j : ℕ} (hi : i < n) (hj : j < n) :
    (exchange n i j).Perm (List.range n) := by
  -- As a function of the place this is a transposition.
  have swapped : exchange n i j = (List.range n).map (Equiv.swap i j) := by
    apply List.ext_getElem (by simp [exchange])
    intro k hk _
    simp only [exchange, List.getElem_set, List.getElem_range, List.getElem_map,
      Equiv.swap_apply_def]
    grind
  rw [swapped]
  refine perm_range (List.nodup_range.map (Equiv.swap i j).injective) (fun t ht => ?_) (by simp)
  obtain ⟨k, hk, rfl⟩ := List.mem_map.mp ht
  have small := List.mem_range.mp hk
  rw [Equiv.swap_apply_def]
  split_ifs <;> omega

/-! ## Places that are kept -/

/-- The places below `n` that are not left out. -/
def kept (n : ℕ) (drop : List ℕ) : List ℕ := (List.range n).filter fun i => !drop.contains i

theorem mem_kept {n i : ℕ} {drop : List ℕ} : i ∈ kept n drop ↔ i < n ∧ i ∉ drop := by
  simp [kept]

theorem kept_append_perm {n : ℕ} {drop : List ℕ} (distinct : drop.Nodup)
    (inside : ∀ d ∈ drop, d < n) : (kept n drop ++ drop).Perm (List.range n) := by
  have dropped : drop.Perm ((List.range n).filter fun i => drop.contains i) := by
    refine (List.perm_ext_iff_of_nodup distinct (List.nodup_range.filter _)).mpr fun d => ?_
    simp only [List.mem_filter, List.mem_range, List.contains_iff_mem]
    exact ⟨fun hd => ⟨inside d hd, hd⟩, fun hd => hd.2⟩
  refine (List.Perm.append_left _ dropped).trans ?_
  refine List.perm_append_comm.trans ?_
  exact List.filter_append_perm (fun i => drop.contains i) (List.range n)

theorem length_kept {n : ℕ} {drop : List ℕ} (distinct : drop.Nodup)
    (inside : ∀ d ∈ drop, d < n) : (kept n drop).length + drop.length = n := by
  simpa using (kept_append_perm distinct inside).length_eq

theorem kept_congr {n : ℕ} {drop drop' : List ℕ} (same : ∀ d, d ∈ drop ↔ d ∈ drop') :
    kept n drop = kept n drop' :=
  List.filter_congr fun i _ => by simp [same i]

theorem kept_eq_of_perm {m : ℕ} {old fresh : List ℕ} (places : (old ++ fresh).Perm (List.range m))
    (ascending : old.Pairwise (· < ·)) : kept m fresh = old := by
  have inside : ∀ t ∈ fresh, t < m := fun t ht =>
    List.mem_range.mp (places.mem_iff.mp (List.mem_append_right _ ht))
  have distinct : fresh.Nodup :=
    (List.nodup_append.mp (places.nodup_iff.mpr List.nodup_range)).2.1
  have perm : (kept m fresh).Perm old :=
    (List.perm_append_right_iff fresh).mp ((kept_append_perm distinct inside).trans places.symm)
  exact perm.eq_of_pairwise (fun _ _ _ _ lt gt => absurd lt gt.not_gt)
    (List.pairwise_lt_range.filter _) ascending

theorem range_add (n k : ℕ) : List.range (n + k) = List.range n ++ List.range' n k := by
  have parts : List.range' 0 n ++ List.range' (0 + n) k = List.range' 0 (n + k) :=
    List.range'_append_1
  rw [List.range_eq_range', List.range_eq_range', ← parts, zero_add]

theorem kept_add {n : ℕ} (k : ℕ) {drop : List ℕ} (inside : ∀ d ∈ drop, d < n) :
    kept (n + k) drop = kept n drop ++ List.range' n k := by
  have all : (List.range' n k).filter (fun i => !drop.contains i) = List.range' n k := by
    refine List.filter_eq_self.mpr fun i hi => ?_
    have large := (List.mem_range'_1.mp hi).1
    have out : i ∉ drop := fun mem => absurd (inside i mem) (by omega)
    simpa using out
  rw [kept, range_add, List.filter_append, all]
  rfl

/-- The first places that are kept lie below `m` if enough places below `m` are. -/
theorem kept_getD_lt {m n i : ℕ} {drop : List ℕ} (le : m ≤ n) (distinct : drop.Nodup)
    (few : i + drop.countP (· < m) < m) : (kept n drop).getD i 0 < m := by
  have split : kept n drop =
      kept m drop ++ (List.range' m (n - m)).filter fun i => !drop.contains i := by
    rw [kept, kept, ← List.filter_append, ← range_add, Nat.add_sub_cancel' le]
  -- Below `m` only what is left out below `m` matters.
  have below : kept m drop = kept m (drop.filter (· < m)) := by
    refine List.filter_congr fun i hi => ?_
    have small := List.mem_range.mp hi
    simp [small]
  have length := length_kept (distinct.filter (· < m)) (n := m) (by simp)
  rw [← List.countP_eq_length_filter, ← below] at length
  have first : i < (kept m drop).length := by omega
  rw [split, List.getD_append _ _ _ _ first]
  exact (mem_kept.mp (getD_mem first)).1

theorem without_eq {α : Type} (drop : List ℕ) (xs : List α) (fill : α) :
    without drop xs = (kept xs.length drop).map (xs.getD · fill) := by
  have pairs : xs.zipIdx = (List.range xs.length).map fun i => (xs.getD i fill, i) := by
    apply List.ext_getElem (by simp)
    intro i hi _
    rw [List.length_zipIdx] at hi
    simp [hi]
  rw [without, pairs, List.filter_map, List.map_map]
  rfl

theorem Vec.eval_without {drop : List ℕ} {row : Vec} (zero : ∀ d ∈ drop, row.getD d 0 = 0)
    {x y : ℕ → K} (agrees : ∀ i < (kept row.length drop).length,
      y i = x ((kept row.length drop).getD i 0)) :
    Vec.eval (without drop row) y = row.eval x := by
  -- Going through the row, the dimensions from `k` on are left.
  suffices general : ∀ (row : Vec) (k : ℕ) (y : ℕ → K),
      (∀ i, k + i ∈ drop → row.getD i 0 = 0) →
      (let left := (List.range' k row.length).filter fun i => !drop.contains i
        ∀ i < left.length, y i = x (left.getD i 0)) →
      Vec.eval (((row.zipIdx k).filter fun entry => !drop.contains entry.2).map (·.1)) y =
        row.eval fun i => x (k + i) by
    have value := general row 0 y (fun i hi => zero i (by simpa using hi))
      (by rwa [← List.range_eq_range'])
    simp only [zero_add] at value
    exact value
  clear zero agrees
  intro row
  induction row with
  | nil => simp
  | cons c row ih =>
    intro k y zero agrees
    have zero' : ∀ i, k + 1 + i ∈ drop → row.getD i 0 = 0 := fun i hi => by
      simpa using zero (i + 1) (by rwa [add_assoc, add_comm 1] at hi)
    have shift : (fun i => x (k + (i + 1))) = fun i => x (k + 1 + i) := by
      funext i
      rw [add_assoc, add_comm 1]
    simp only [List.length_cons, List.range'_succ, List.filter_cons] at agrees
    rw [List.zipIdx_cons, List.filter_cons, Vec.eval_cons, shift]
    split at agrees
    · rename_i left
      rw [if_pos left, List.map_cons, Vec.eval_cons]
      have first := agrees 0 (by simp)
      rw [ih (k + 1) (fun i => y (i + 1)) zero' fun i hi => ?_, first]
      · simp
      · simpa using agrees (i + 1) (by simpa using hi)
    · -- The dimension is left out, and its entry is zero.
      rename_i out
      have absent : c = 0 := by simpa using zero 0 (by simpa using out)
      rw [if_neg out, ih (k + 1) y zero' agrees, absent]
      simp

end SkewBox
