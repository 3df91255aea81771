import SkewBox.Proofs.Copies
import SkewBox.Proofs.ExactResults
import SkewBox.Proofs.Insertion

/-!
# Folding copies back

A dimension that a single row mentions is forgotten without any change to the other rows.  Its copies are
such dimensions again, each with a row of its own.  What is left without them is the value from before, and
so is what is left with one of them in the place of the dimension, as far as points go.  A union with values
that lie inside changes nothing, so folding the copies gives the value back.

* `Frame.Sole`, `Frame.Clears`: dimensions that one row mentions, and what forgetting them does.
* `Parallelotope.copies_folded_back`: what folding makes of copies.
-/

namespace SkewBox

open Parallelotope (removeRows copyRow freshRange)

variable {K : Type*} [Field K] [LinearOrder K] [IsStrictOrderedRing K]

namespace Frame

variable {f g h : Frame} {m n d e p q k : ℕ} {s : Space} {cfg : Settings} {ds ps : List ℕ}

/-! ## Dimensions that one row mentions -/

/-- Row `p` is the only one that mentions dimension `d`. -/
structure Sole (f : Frame) (n d p : ℕ) : Prop where
  inside : p < n
  mentions : f.axes.entry p d ≠ 0
  others : ∀ i < n, i ≠ p → f.axes.entry i d = 0

theorem Sole.eq_of_mentions (sole : f.Sole n d p) (hq : q < n) (mentions : f.axes.entry q d ≠ 0) :
    q = p := by
  by_contra other
  exact mentions (sole.others q hq other)

theorem Reads.sole (reads : f.Reads n d p) (hd : d < n) : f.Sole n d p := by
  refine ⟨reads.inside, ?_, reads.others⟩
  rw [reads.entry d hd, if_pos rfl]
  exact one_ne_zero

/-- Two dimensions do not have the same only row: a step along one would make up for a step along the
other. -/
theorem Sole.row_ne (first : f.Sole n d p) (second : f.Sole n e q) (regular : f.Regular n) (hd : d < n)
    (he : e < n) (other : d ≠ e) : p ≠ q := by
  rintro rfl
  have zero : ∀ i, f.axes.image (fun _ => (0 : ℚ)) i = 0 := fun i => Vec.eval_zero _
  have step : ∀ i < n, f.axes.image (Function.update (Function.update (fun _ => (0 : ℚ)) d
      (f.axes.entry p e)) e (-f.axes.entry p d)) i = 0 := by
    intro i hi
    rw [regular.image_update he hi, regular.image_update hd hi, zero, Function.update_of_ne other.symm]
    by_cases here : i = p
    · subst here
      simp only [Rat.cast_id]
      ring
    · simp [first.others i hi here, second.others i hi here]
  have kernel := regular.axes.kernel step he
  rw [Function.update_self] at kernel
  exact first.mentions (neg_eq_zero.mp kernel)

theorem Sole.spread {old fresh : List ℕ} {I : Interval} (sole : f.Sole n d p)
    (spread : f.Spread m old fresh I g) (regular : f.Regular n) (length : old.length = n) (hd : d < n) :
    g.Sole m (old.getD d 0) (old.getD p 0) := by
  have mem : old.getD d 0 ∈ old := getD_mem (length.symm ▸ hd)
  refine ⟨spread.lt_of_mem (List.mem_append_left _ (getD_mem (length.symm ▸ sole.inside))), ?_, ?_⟩
  · rw [spread.entry_old regular length sole.inside hd]
    exact sole.mentions
  · intro i hi other
    by_contra mentions
    obtain ⟨j, hj, rfl⟩ := spread.exists_old mem hi mentions
    rw [spread.entry_old regular length (length ▸ hj) hd] at mentions
    exact other (congrArg (old.getD · 0) (sole.eq_of_mentions (length ▸ hj) mentions))

/-! ## Forgetting them -/

/-- The frame `g` is `f` in which the rows `ps`, each the only one that mentions its dimension of `ds`, read
these dimensions now and nothing else, without a bound. -/
structure Clears (f : Frame) (s : Space) (K : Type*) [Field K] [LinearOrder K] (ds ps : List ℕ)
    (g : Frame) : Prop extends ForgetsOnly f s false K ds ps g where
  rows : List.Forall₂ (f.Sole s.size) ds ps
  free : ∀ p ∈ ps, g.ranges.getD p .top = .top
  same : ∀ i < s.size, i ∉ ps →
    g.axes.getD i [] = f.axes.getD i [] ∧ g.ranges.getD i .top = f.ranges.getD i .top

omit [IsStrictOrderedRing K] in
theorem Clears.sole (clears : f.Clears s K ds ps g) (regular : f.Regular s.size)
    (inside : ∀ d ∈ ds, d < s.size) (he : e < s.size) (out : e ∉ ds) (sole : f.Sole s.size e q) :
    g.Sole s.size e q := by
  have left : q ∉ ps := by
    intro mem
    obtain ⟨d, hd, row⟩ := exists_of_mem_right clears.rows mem
    exact row.row_ne sole regular (inside d hd) he (fun same => out (same ▸ hd)) rfl
  refine ⟨sole.inside, ?_, fun i hi other => ?_⟩
  · rw [Mat.entry, (clears.same q sole.inside left).1]
    exact sole.mentions
  · by_cases gone : i ∈ ps
    · obtain ⟨d, hd, reads⟩ := exists_of_mem_right clears.forgets.reads gone
      have other : d ≠ e := fun same => out (same ▸ hd)
      rw [reads.entry e he, if_neg other]
    · rw [Mat.entry, (clears.same i hi gone).1]
      exact sole.others i hi other

theorem Sole.eliminateAll_clears (sole : f.Sole s.size d p) (solid : f.Solid s)
    (exact : cfg.precision = .exact) (hd : d < s.size) :
    f.Clears s K [d] [p] (f.eliminateAll cfg s d p false) where
  toForgetsOnly := solid.eliminateAll_forgetsOnly exact hd sole.inside sole.mentions (k := p)
    fun i hi other mentions => absurd (sole.others i hi other) mentions
  rows := .cons sole .nil
  free i hi := by
    rw [List.mem_singleton.mp hi, solid.regular.range_eliminateAll exact sole.inside, if_pos rfl]
    rfl
  same i hi out := by
    have other : i ≠ p := by simpa using out
    exact solid.regular.row_eliminateAll_of_zero cfg false hi other (sole.others i hi other)

omit [IsStrictOrderedRing K] in
theorem Clears.trans (first : f.Clears s K [d] [p] g) (rest : g.Clears s K ds ps h) (hd : d < s.size)
    (fresh : d ∉ ds) (both : ∀ e ∈ ds, ∃ q, f.Sole s.size e q ∧ g.Sole s.size e q) :
    f.Clears s K (d :: ds) (p :: ps) h where
  toForgetsOnly := first.toForgetsOnly.trans hd fresh rest.toForgetsOnly
  rows := by
    obtain _ | ⟨sole, -⟩ := first.rows
    -- What is known of `g` is known of `f`, where the dimensions have the same only rows.
    refine .cons sole (((List.forall₂_and_left ds ps).mpr ⟨both, rest.rows⟩).imp ?_)
    rintro e q ⟨⟨q', before, after⟩, row⟩
    rwa [after.eq_of_mentions row.inside row.mentions]
  free i hi := by
    by_cases later : i ∈ ps
    · exact rest.free i later
    · -- The row that was cleared first is not touched again.
      obtain rfl : i = p := (List.mem_cons.mp hi).resolve_right later
      obtain _ | ⟨sole, -⟩ := first.rows
      rw [(rest.same i sole.inside later).2]
      exact first.free i (List.mem_singleton.mpr rfl)
  same i hi out := by
    obtain ⟨other, later⟩ := not_or.mp fun mem => out (List.mem_cons.mpr mem)
    obtain ⟨row, range⟩ := rest.same i hi later
    rw [row, range]
    exact first.same i hi (by simpa using other)

theorem Solid.forgetAll_clears {mayFail : Prop} (solid : f.Solid s) (exact : cfg.precision = .exact)
    (distinct : ds.Nodup) (inside : ∀ d ∈ ds, d < s.size) (sole : ∀ d ∈ ds, ∃ p, f.Sole s.size d p) :
    Op.Meets (fun _ => True) (fun _ => True) mayFail (f.forgetAll cfg s false ds) fun r =>
      f.Clears s K ds r.2 r.1 := by
  induction ds generalizing f with
  | nil => exact Op.meets_pure ⟨solid.forgetsOnly_nil, .nil, by simp, fun _ _ _ => ⟨rfl, rfl⟩⟩
  | cons d ds ih =>
    obtain ⟨fresh, distinct⟩ := List.nodup_cons.mp distinct
    obtain ⟨hd, inside⟩ := List.forall_mem_cons.mp inside
    obtain ⟨⟨p, here⟩, sole⟩ := List.forall_mem_cons.mp sole
    unfold forgetAll
    apply (solid.regular.forgetOne_eq hd).bind
    rintro _ ⟨p', hp, pivot, rfl⟩
    -- The pivot can only be the row that mentions the dimension, so all other rows stay as they are.
    obtain rfl := here.eq_of_mentions hp pivot
    apply (Op.write_meets trivial).bind
    intro _ _
    have first : f.Clears s K [d] [p'] (f.eliminateAll cfg s d p' false) :=
      here.eliminateAll_clears solid exact hd
    have both : ∀ e ∈ ds, ∃ q, f.Sole s.size e q ∧ (f.eliminateAll cfg s d p' false).Sole s.size e q := by
      intro e he
      obtain ⟨q, row⟩ := sole e he
      have other : e ∉ [d] := by
        rw [List.mem_singleton]
        rintro rfl
        exact fresh he
      exact ⟨q, row, first.sole solid.regular (by simpa using hd) (inside e he) other row⟩
    have later : ∀ e ∈ ds, ∃ q, (f.eliminateAll cfg s d p' false).Sole s.size e q := fun e he =>
      (both e he).imp fun _ => And.right
    apply (ih first.solid distinct inside later).bind
    rintro ⟨h, ps⟩ rest
    exact Op.meets_pure (first.trans rest hd fresh both)

/-! ## Repeated rows -/

theorem getD_copyRow {row : Vec} {t : ℕ} (hd : d < row.length) (ht : t < row.length) (j : ℕ) :
    (copyRow d t row).getD j 0 = if j = d then 0 else if j = t then row.getD d 0 else row.getD j 0 := by
  rw [copyRow, getD_set (by simpa using hd), getD_set ht]

theorem Repeats.sole (repeats : f.Repeats n d q k h) (regular : f.Regular n) (hd : d < n)
    (sole : f.Sole n d q) :
    h.Sole (n + k) d q ∧ ∀ t ∈ List.range' n k, h.Sole (n + k) t t := by
  obtain ⟨g, spread, copies⟩ := repeats
  have place : ∀ j < n, (List.range n).getD j 0 = j := fun j hj => by simp [hj]
  have hq := sole.inside
  have moved := sole.spread spread regular List.length_range hd
  rw [place d hd, place q hq] at moved
  have width : (g.axes.getD q []).length = n + k := spread.shape.getD_length moved.inside
  have new : ∀ {t}, t ∈ List.range' n k → n ≤ t ∧ t < n + k := List.mem_range'_1.mp
  -- Three facts about entries: old rows stay, copies exchange two columns, old rows do not see new columns.
  have old : ∀ i, i ∉ List.range' n k → ∀ j, h.axes.entry i j = g.axes.entry i j := by
    intro i hi j
    rw [Mat.entry, (copies.same i hi).1, Mat.entry]
  have copy : ∀ t ∈ List.range' n k, ∀ j, h.axes.entry t j =
      if j = d then 0 else if j = t then g.axes.entry q d else g.axes.entry q j := by
    intro t ht j
    have small := (new ht).2
    rw [Mat.entry, (copies.row t ht (spread.axes.symm ▸ small) (spread.ranges.symm ▸ small)).1,
      getD_copyRow (by omega) (by omega)]
    rfl
  have absent : ∀ t ∈ List.range' n k, ∀ i < n, g.axes.entry i t = 0 := by
    intro t ht i hi
    have entry := spread.entry_fresh regular List.length_range hi ht
    rwa [place i hi] at entry
  constructor
  · refine ⟨moved.inside, ?_, fun i hi other => ?_⟩
    · rw [old q fun mem => by have := (new mem).1; omega]
      exact moved.mentions
    · -- A copy does not mention `d`, and the other old rows did not before.
      by_cases mem : i ∈ List.range' n k
      · rw [copy i mem, if_pos rfl]
      · rw [old i mem]
        exact moved.others i hi other
  · intro t ht
    obtain ⟨low, high⟩ := new ht
    have apart : t ≠ d := by omega
    refine ⟨high, ?_, fun i hi other => ?_⟩
    · rw [copy t ht, if_neg apart, if_pos rfl]
      exact moved.mentions
    · by_cases mem : i ∈ List.range' n k
      · rw [copy i mem, if_neg apart, if_neg other.symm, absent t ht q hq]
      · have small : i < n := by
          rw [List.mem_range'_1] at mem
          omega
        rw [old i mem, absent t ht i small]

theorem Repeats.filled (repeats : f.Repeats n d q k h) (regular : f.Regular n) (filled : f.Filled) :
    h.Filled := by
  obtain ⟨g, spread, copies⟩ := repeats
  have before := spread.forall_ranges regular List.length_range filled ⟨0, Interval.top_has⟩
  intro I hI
  obtain ⟨t, ht, rfl⟩ := List.mem_iff_getElem.mp hI
  have small : t < n + k := by rwa [copies.ranges, spread.ranges] at ht
  rw [← List.getD_eq_getElem _ .top ht]
  by_cases mem : t ∈ List.range' n k
  · rw [(copies.row t mem (spread.axes.symm ▸ small) (spread.ranges.symm ▸ small)).2]
    exact Interval.filled_getD before q
  · rw [(copies.same t mem).2]
    exact Interval.filled_getD before t

omit [IsStrictOrderedRing K] in
theorem Repeats.removeRows_eq (repeats : f.Repeats n d q k h) (regular : f.Regular n) (hd : d < n)
    (sole : f.Sole n d q) (size : s.size = n + k) (clears : h.Clears s K (List.range' n k) ps g) :
    removeRows (List.range' n k) ps g = ⟨f.axes, f.ranges, none⟩ := by
  have copies_sole := (repeats.sole regular hd sole).2
  rw [← size] at copies_sole
  obtain rfl : List.range' n k = ps := by
    rw [← List.forall₂_eq_eq_eq]
    refine ((List.forall₂_and_left _ _).mpr ⟨copies_sole, clears.rows⟩).imp ?_
    rintro t p ⟨own, row⟩
    exact (own.eq_of_mentions row.inside row.mentions).symm
  obtain ⟨g', spread, copies⟩ := repeats
  have shape := clears.solid.regular
  rw [size] at shape
  -- Cleared rows are those that came with the new dimensions, before they were replaced by copies.
  have again : f.Spread (n + k) (List.range n) (List.range' n k) (freshRange false)
      ⟨g.axes, g.ranges, none⟩ := by
    refine ⟨spread.places, shape.axes.shape.length, shape.ranges, rfl, fun i hi => ?_, fun t ht => ?_⟩
    · have mem : (List.range n).getD i 0 ∈ List.range n := getD_mem hi
      have out : (List.range n).getD i 0 ∉ List.range' n k := fun new => spread.disjoint mem new rfl
      have small := spread.lt_of_mem (List.mem_append_left _ mem)
      obtain ⟨row, range⟩ := clears.same _ (size.symm ▸ small) out
      obtain ⟨row', range'⟩ := copies.same _ out
      rw [row, range, row', range']
      exact spread.moved i hi
    · have reads := List.forall₂_same.mp clears.forgets.reads t ht
      rw [size] at reads
      exact ⟨reads.row, clears.free t ht⟩
  exact again.removeRows_eq regular List.length_range List.pairwise_lt_range

theorem Solid.normalize_eq (solid : f.Solid s) : f.normalize cfg s = ⟨f, false⟩ :=
  solid.regular.normalize_of_real (fun I hI => (solid.filled I hI).ordered) solid.real

end Frame

namespace Parallelotope

variable {a b c : Parallelotope} {f : Frame} {cfg : Settings} {d e k q : ℕ} {mayFail : Prop}

/-! ## Removing and exchanging dimensions that one row mentions -/

theorem forget_clears (exact : cfg.precision = .exact) (hf : a.frame? = some f) (solid : f.Solid a.space)
    (hd : d < a.space.size) (sole : f.Sole a.space.size d q) :
    Op.Meets (fun _ => True) (fun _ => True) mayFail (a.forget cfg [.int d] false) fun v =>
      ∃ ps g, f.Clears a.space K [d] ps g ∧ v = ⟨a.space, some g⟩ := by
  have inside : ∀ e ∈ [d], e < a.space.size := by simpa using hd
  unfold forget
  apply (Op.meets_lift_ok (Space.checkDistinct_single hd) rfl).bind
  rintro _ rfl
  simp only [hf]
  apply (solid.forgetAll_clears (K := K) exact (List.nodup_singleton d) inside
    (by simpa using ⟨q, sole⟩)).bind
  rintro ⟨g, ps⟩ clears
  refine Op.put_meets trivial ⟨ps, g, clears, ?_⟩
  rw [clears.solid.normalize_eq]
  rfl

theorem removeDimensions_clears {s : Space} {change : Change} {ds : List ℕ}
    (exact : cfg.precision = .exact) (hf : a.frame? = some f) (solid : f.Solid a.space)
    (checked : a.space.checkDistinct (change.positions.map Datum.int) = .ok ds)
    (after : spaceAfter a.space change ds = .ok s) (listed : ds ≠ [])
    (sole : ∀ d ∈ ds, ∃ p, f.Sole a.space.size d p) :
    Op.Meets (fun _ => True) (fun _ => True) mayFail (a.removeDimensions cfg change) fun b =>
      ∃ ps g, f.Clears a.space K ds ps g ∧ (removeRows ds ps g).Solid s ∧
        b = ⟨s, some (removeRows ds ps g)⟩ := by
  obtain ⟨-, distinct, inside⟩ := Space.checkDistinct_eq_ok.mp checked
  have nonempty : ds.isEmpty = false := by simpa using listed
  -- There are no integer dimensions to begin with, so none is left and nothing is rounded.
  have real : s.ints = 0 := by
    have ints := (spaceAfter_eq_ok after).2.1
    have none := solid.real
    omega
  unfold removeDimensions
  apply (Op.meets_lift_ok checked rfl).bind
  rintro _ rfl
  apply (Op.meets_lift_ok after rfl).bind
  rintro _ rfl
  simp only [nonempty, Bool.false_eq_true, if_false, hf]
  apply (solid.forgetAll_clears (K := K) exact distinct inside sole).bind
  rintro ⟨g, ps⟩ clears
  have left := clears.removeRows_solid distinct inside real (size_of_spaceAfter checked after)
  apply (Op.move_meets trivial rfl).bind
  rintro _ rfl
  refine (tidy_eq (fun none => by cases none) trivial).imp ?_
  rintro _ rfl
  refine ⟨ps, g, clears, left, ?_⟩
  simp only [normalize, left.normalize_eq]
  rfl

/-- The value with dimension `e` in the place of the target, each of them mentioned by one row, has no
points but those. -/
theorem foldPart_clears {s : Space} {change : Change} {rest : List ℕ} (exact : cfg.precision = .exact)
    (hf : a.frame? = some f) (solid : f.Solid a.space)
    (checked : a.space.checkDistinct (change.positions.map Datum.int) = .ok rest)
    (after : spaceAfter a.space change rest = .ok s) (hd : d < a.space.size) (out : d ∉ rest)
    (mem : e ∈ rest) (sole : ∀ t ∈ d :: rest, ∃ p, f.Sole a.space.size t p) :
    Op.Meets (fun _ => True) (fun _ => True) mayFail (a.foldPart cfg change d e) fun b =>
      b.Solid ∧ b.space = s ∧ ∀ y : ℕ → K, b.Has y → a.Folds d rest e y := by
  obtain ⟨-, distinct, inside⟩ := Space.checkDistinct_eq_ok.mp checked
  obtain ⟨⟨q, here⟩, sole⟩ := List.forall_mem_cons.mp sole
  have he := inside e mem
  have perm := exchange_perm hd he
  have length : (exchange a.space.size d e).length = a.space.size := by simp [perm.length_eq]
  unfold foldPart
  apply (forget_clears (K := K) exact hf solid hd here).bind
  rintro _ ⟨ps, g, clears, rfl⟩
  have regular := clears.solid.regular
  have moved := regular.moveChecked_eq (m := a.space.size) length
  have spread : g.Spread a.space.size (exchange a.space.size d e) [] .top _ := regular.spread_permuted perm
  obtain ⟨solid', exchanged⟩ := moved_has_iff (K := K) clears.solid perm moved
  have sole' : ∀ t ∈ d :: rest, ∃ p, g.Sole a.space.size t p := by
    refine List.forall_mem_cons.mpr ⟨?_, fun t ht => ?_⟩
    · obtain ⟨p, -, reads⟩ := exists_of_mem_right clears.forgets.reads.flip (List.mem_singleton.mpr rfl)
      exact ⟨p, reads.sole hd⟩
    · obtain ⟨p, row⟩ := sole t ht
      have other : t ∉ [d] := by
        rw [List.mem_singleton]
        rintro rfl
        exact out ht
      exact ⟨p, clears.sole solid.regular (by simpa using hd) (inside t ht) other row⟩
  -- Rows move with their dimensions, so each dimension that goes is mentioned by one row still.
  have removed : ∀ t ∈ rest, ∃ p, (g.move a.space.size (exchange a.space.size d e)).Sole a.space.size t p := by
    intro t ht
    have small := swap_lt hd he (inside t ht)
    obtain ⟨p, row⟩ : ∃ p, g.Sole a.space.size (Equiv.swap d e t) p := by
      apply sole'
      rw [Equiv.swap_apply_def]
      split_ifs
      · exact List.mem_cons_of_mem _ mem
      · exact List.mem_cons_self
      · exact List.mem_cons_of_mem _ ht
    have row' := row.spread spread regular length small
    rw [getD_exchange hd he small, Equiv.swap_apply_self] at row'
    exact ⟨_, row'⟩
  apply (Op.meets_lift_ok moved rfl).bind
  rintro _ rfl
  apply (removeDimensions_clears (K := K) (a := ⟨a.space, some _⟩) exact rfl solid' checked after
    (List.ne_nil_of_mem mem) removed).imp
  rintro _ ⟨ps', g', clears', left, rfl⟩
  refine ⟨solid_mk left, rfl, fun y has => ?_⟩
  have ha : a.Solid := by
    intro f' hf'
    obtain rfl := Option.some.inj (hf.symm.trans hf')
    exact solid
  rw [← ha.exists_exchanged_iff hd he mem]
  obtain ⟨z, hz, agrees⟩ := (clears'.removeRows_has_iff distinct inside).mp (has_mk.mp has)
  obtain ⟨-, x, hx, same⟩ := clears.has_iff.mp ((exchanged z).mp hz)
  exact ⟨z, ⟨x, (has_iff_of_frame hf).mpr hx, same⟩, agrees⟩

/-! ## Unions with what lies inside -/

theorem joinAt_absorbs (exact : cfg.precision = .exact) (ha : a.Solid) (hb : b.Solid)
    (space : b.space = a.space) (inside : ∀ x : ℕ → ℚ, b.Has x → a.Has x) (k : ℕ) :
    Op.Meets (fun _ => True) (fun _ => True) mayFail (joinAt cfg k a b) (· = a) := by
  have same : a.checkSpace b = .ok () := if_pos space.symm
  unfold joinAt
  apply (Op.meets_lift_ok same rfl).bind
  intro _ _
  cases hg : b.frame? with
  | none => exact Op.meets_pure rfl
  | some g =>
    have hg' : g.Solid a.space := space ▸ hb g hg
    cases hf : a.frame? with
    | none =>
      -- A frame whose ranges hold a rational has a point, and an empty value has none.
      obtain ⟨x, hx⟩ := hg'.regular.exists_has (K := ℚ) hg'.filled
      exact absurd (inside x ((has_iff_of_frame hg).mpr hx)) (not_has_of_none hf x)
    | some f =>
      have hf' := ha f hf
      have within : ∀ x : ℕ → ℚ, g.Has x → f.Has x := by
        intro x hx
        exact (has_iff_of_frame hf).mp (inside x ((has_iff_of_frame hg).mpr hx))
      apply (Op.about_meets (leq_total (K := ℚ) hb.wellFormed.weaken ha.wellFormed.weaken space)).bind
      intro _ _
      apply Op.inexact_if_meets
      apply (Op.about_meets (rangesOver_eq hf'.regular.axes.shape hg'.regular)).bind
      intro Is ranges
      refine Op.refit_meets trivial ?_
      rw [ranges.join_eq exact hf' hg' within, ← hf]

theorem joinFrom_absorbs (exact : cfg.precision = .exact) (ha : a.Solid) {rest : List Parallelotope}
    (within : ∀ b ∈ rest, b.Solid ∧ b.space = a.space ∧ ∀ x : ℕ → ℚ, b.Has x → a.Has x) (k : ℕ) :
    Op.Meets (fun _ => True) (fun _ => True) mayFail (joinFrom cfg k a rest) (· = a) := by
  induction rest generalizing k with
  | nil => exact Op.meets_pure rfl
  | cons b rest ih =>
    obtain ⟨⟨hb, space, inside⟩, within⟩ := List.forall_mem_cons.mp within
    apply (joinAt_absorbs exact ha hb space inside k).bind
    rintro _ rfl
    exact ih within (k + 1)

/-! ## Copies of a real dimension -/

theorem copiesAt_real {s : Space} (real : s.ints = 0) (d : ℕ) :
    copiesAt s d = s.size ∧ s.isInt d = false := by
  simp [copiesAt, Space.isInt, real]

theorem removable_copies (s : Space) (k : ℕ) :
    Space.checkDistinct ⟨s.ints, s.reals + k⟩ ((Change.listing ⟨s.ints, s.reals + k⟩
      (List.range' s.size k)).positions.map Datum.int) = .ok (List.range' s.size k) ∧
    spaceAfter ⟨s.ints, s.reals + k⟩ (.listing ⟨s.ints, s.reals + k⟩ (List.range' s.size k))
      (List.range' s.size k) = .ok s := by
  have accepted := checkInsertion_end s k
  have listed := checkDistinct_freshPlaces accepted
  have remaining := spaceAfter_freshPlaces accepted
  rw [(places_repeated s.size s.size k false).1] at listed remaining
  exact ⟨listed, remaining⟩

theorem foldable_copies {s : Space} (real : s.ints = 0) (hd : d < s.size) (k : ℕ) :
    (d :: List.range' s.size k).Nodup ∧
    (∀ e ∈ d :: List.range' s.size k, e < Space.size ⟨s.ints, s.reals + k⟩) ∧
    ∀ e ∈ d :: List.range' s.size k, s.ints ≤ e := by
  refine ⟨List.nodup_cons.mpr ⟨fun mem => ?_, List.nodup_range'⟩, ?_, fun e _ => by omega⟩
  · have low := (List.mem_range'_1.mp mem).1
    omega
  · rw [Space.size_addReals]
    exact List.forall_mem_cons.mpr ⟨by omega, fun e he => (List.mem_range'_1.mp he).2⟩

theorem kept_copies (n k : ℕ) : kept (n + k) (List.range' n k) = List.range n :=
  kept_eq_of_perm (.of_eq (range_add n k).symm) List.pairwise_lt_range

theorem expand_repeats (ha : a.Solid) (hf : a.frame? = some f) (hd : d < a.space.size) (many : 0 < k)
    (sole : f.Sole a.space.size d q) :
    Op.Meets (fun _ => True) (fun _ => True) True (a.expand cfg (.int d) k) fun c => ∃ h,
      f.Repeats a.space.size d q k h ∧ h.Solid ⟨a.space.ints, a.space.reals + k⟩ ∧
        c = ⟨⟨a.space.ints, a.space.reals + k⟩, some h⟩ := by
  have solid := ha f hf
  have rows : a.isBottom = false := by simp [isBottom, hf]
  obtain ⟨last, kind⟩ := copiesAt_real solid.real d
  have accepted := checkInsertion_end a.space k
  have more : 0 < (Change.repeated a.space.size k false).size := by simpa using many
  have room : Op.Meets (fun _ => True) (fun _ => True) True
      (a.addDimensions cfg (.repeated (copiesAt a.space d) k (a.space.isInt d)) false)
      (a.ExtendsOnly (.repeated a.space.size k false) false ℚ) := by
    rw [last, kind]
    apply ((addDimensions_spread hf solid.regular more accepted cfg false).imp _).of_total
    rintro _ ⟨g, spread, rfl⟩
    exact extendsOnly_of_spread cfg hf solid accepted spread
  apply expand_meets ha.wellFormed rows hd many room
  rw [last]
  intro b extended
  apply (copyDimension_eq cfg b d _ k).imp
  intro c copied
  obtain ⟨q', h, hq, mentions, repeats, regular, rfl⟩ := copied.repeats hf solid hd many extended
  -- Only one row mentions the dimension, so the pivot is that row.
  obtain rfl := sole.eq_of_mentions hq mentions
  have space : b.space = ⟨a.space.ints, a.space.reals + k⟩ := extended.space
  rw [space] at regular ⊢
  have solid' : h.Solid ⟨a.space.ints, a.space.reals + k⟩ :=
    ⟨solid.real, regular, repeats.filled solid.regular solid.filled⟩
  refine ⟨h, repeats, solid', ?_⟩
  rw [solid'.normalize_eq]
  rfl

/-- With a copy in the place of the dimension the value has no points but those it had before. -/
theorem Folds.has {h : Frame} (ha : a.Solid) (hf : a.frame? = some f) (hd : d < a.space.size)
    (sole : f.Sole a.space.size d q) (repeats : f.Repeats a.space.size d q k h)
    (solid : h.Solid ⟨a.space.ints, a.space.reals + k⟩) (he : e ∈ List.range' a.space.size k) {y : ℕ → K}
    (folds : Folds ⟨⟨a.space.ints, a.space.reals + k⟩, some h⟩ d (List.range' a.space.size k) e y) :
    f.Has y := by
  have size := a.space.size_addReals k
  have regular := (ha f hf).regular
  have regular' := solid.regular
  rw [size] at regular'
  obtain ⟨x, hx, agrees⟩ := folds
  simp only [size, kept_copies, List.length_range] at agrees
  have each := ((repeats.has_iff regular hd sole.inside sole.others regular').mp (has_mk.mp hx)).2
  obtain ⟨low, high⟩ := List.mem_range'_1.mp he
  -- The copy of the row for `e` reads the coordinate that folding puts in the place of `d`.
  have copy := each (e - a.space.size) (by omega)
  rw [Nat.add_sub_cancel' low] at copy
  apply regular.has_congr _ copy
  intro j hj
  have old : j ∉ List.range' a.space.size k := by
    rw [List.mem_range'_1]
    omega
  rw [agrees j hj, List.getD_eq_getElem _ _ (by simpa using hj), List.getElem_range,
    swap_eq_update (List.mem_cons_of_mem _ he) old x]

theorem fold_repeats {h : Frame} (exact : cfg.precision = .exact) (ha : a.Solid) (hf : a.frame? = some f)
    (hd : d < a.space.size) (many : 0 < k) (sole : f.Sole a.space.size d q)
    (repeats : f.Repeats a.space.size d q k h) (solid : h.Solid ⟨a.space.ints, a.space.reals + k⟩) :
    Op.Meets (fun _ => True) (fun _ => True) mayFail
      (fold cfg ⟨⟨a.space.ints, a.space.reals + k⟩, some h⟩
        ((d :: List.range' a.space.size k).map fun e : ℕ => .int e))
      (· = ⟨a.space, some ⟨f.axes, f.ranges, none⟩⟩) := by
  obtain ⟨real, regular, filled⟩ := ha f hf
  have size := a.space.size_addReals k
  have nonempty : List.range' a.space.size k ≠ [] := by simpa using many.ne'
  obtain ⟨checked, after⟩ := removable_copies a.space k
  obtain ⟨distinct, inside, kind⟩ := foldable_copies real hd k
  obtain ⟨here, copies⟩ := repeats.sole regular hd sole
  rw [← size] at here copies
  have soles : ∀ t ∈ d :: List.range' a.space.size k,
      ∃ p, h.Sole (Space.size ⟨a.space.ints, a.space.reals + k⟩) t p :=
    List.forall_mem_cons.mpr ⟨⟨q, here⟩, fun t ht => ⟨t, copies t ht⟩⟩
  have first : Op.Meets (fun _ => True) (fun _ => True) mayFail
      (removeDimensions cfg ⟨⟨a.space.ints, a.space.reals + k⟩, some h⟩
        (.listing ⟨a.space.ints, a.space.reals + k⟩ (List.range' a.space.size k)))
      (· = ⟨a.space, some ⟨f.axes, f.ranges, none⟩⟩) := by
    apply (removeDimensions_clears (K := ℚ) (a := ⟨_, some h⟩) exact rfl solid checked after nonempty
      fun t ht => ⟨t, copies t ht⟩).imp
    rintro _ ⟨ps, g, clears, -, rfl⟩
    rw [repeats.removeRows_eq regular hd sole size clears]
  refine fold_meets nonempty distinct inside (.inr kind) rfl first (fun e he => foldPart_clears (K := ℚ)
    exact rfl solid checked after (inside d List.mem_cons_self) (List.nodup_cons.mp distinct).1 he soles)
    ?_ fun _ _ => trivial
  -- What is left without the copies is the value itself, and the other parts lie inside it.
  rintro _ others rfl each
  have whole : Solid ⟨a.space, some ⟨f.axes, f.ranges, none⟩⟩ :=
    solid_mk ⟨real, ⟨regular.axes, regular.ranges, by simp⟩, filled⟩
  apply joinFrom_absorbs exact whole
  intro b hb
  obtain ⟨e, he, solid', space, folds⟩ := exists_of_mem_right each hb
  exact ⟨solid', space, fun x has => has_mk.mpr ((folds x has).has ha hf hd sole repeats solid he)⟩

/-! ## Copies that are folded back -/

theorem refold_bottom (cfg : Settings) (real : a.space.ints = 0) (hf : a.frame? = none)
    (hd : d < a.space.size) (many : 0 < k) :
    (a.expand cfg (.int d) k).Yields fun c =>
      (c.fold cfg ((d :: List.range' a.space.size k).map fun e : ℕ => .int e)).Yields fun r =>
        r.space = a.space ∧ r.content = a.content := by
  have ha : a.WellFormed := shaped_of_none hf
  have fresh := (places_repeated a.space.size a.space.size k false).1
  have normal : a.normalize cfg = a := by simp [normalize, hf]
  have checked : a.space.check (.int d) = .ok d := Space.check_eq_ok.mpr ⟨rfl, hd⟩
  have more : 0 < (Change.repeated a.space.size k false).size := by simpa using many
  have accepted := checkInsertion_end a.space k
  have expanded : Op.Meets (fun _ => True) (fun _ => True) False (a.expand cfg (.int d) k)
      (a.Inserts cfg (.repeated a.space.size k false) false) := by
    unfold expand
    apply (Op.meets_lift_ok checked rfl).bind
    rintro _ rfl
    simp only [Int.toNat_natCast, Int.not_ofNat_neg, many.ne', if_false, hf, (copiesAt_real real d).2,
      Bool.false_eq_true]
    exact addDimensions_inserts ha more accepted cfg false
  obtain ⟨c, report, run, inserts⟩ := expanded.yields
  have removed := inserts.removeDimensions ha more accepted
  rw [fresh, normal] at removed
  -- An empty value has no rows after the insertion either.
  have bottom : c.isBottom = true := by
    cases inserts.cases ha with
    | inl empty => simp [isBottom, empty.2]
    | inr rows =>
      obtain ⟨f, -, some, -⟩ := rows
      rw [normal, hf] at some
      cases some
  obtain ⟨distinct, inside, kind⟩ := foldable_copies real hd k
  have space : c.space = ⟨a.space.ints, a.space.reals + k⟩ := inserts.space
  rw [← space] at inside
  have kind' : ∀ e ∈ d :: List.range' a.space.size k, c.space.ints ≤ e := by rwa [space]
  have folded : Op.Meets (fun _ => True) (fun _ => True) False
      (c.fold cfg ((d :: List.range' a.space.size k).map fun e : ℕ => .int e)) fun r =>
        r.space = a.space ∧ r.content = a.content := by
    rw [fold_several cfg (by simpa using many.ne') distinct inside (.inr kind'), bottom]
    exact removed
  exact ⟨c, report, run, folded.yields⟩

/-- No point is lost, however many rows mention the dimension. -/
theorem refold_keeps_points (cfg : Settings) (ha : a.Solid) (hf : a.frame? = some f) (hd : d < a.space.size)
    (many : 0 < k) :
    (a.expand cfg (.int d) k).Yields fun c =>
      (c.fold cfg ((d :: List.range' a.space.size k).map fun e : ℕ => .int e)).Yields fun r =>
        r.space = a.space ∧ ∀ x : ℕ → K, a.Has x → r.Has x := by
  have solid := ha f hf
  obtain ⟨last, kind⟩ := copiesAt_real solid.real d
  obtain ⟨distinct, inside, reals⟩ := foldable_copies solid.real hd k
  have size := a.space.size_addReals k
  obtain ⟨x₀, hx₀⟩ := solid.regular.exists_has (K := K) solid.filled
  replace hx₀ := (has_iff_of_frame hf).mpr hx₀
  have admits : ∀ x : ℕ → K, a.space.Admits x := Space.admits_of_real solid.real
  obtain ⟨c, report, run, hc, space, points⟩ :=
    expand_keeps_points cfg ha.wellFormed (admits x₀) hx₀ hd many
  rw [last, kind] at space
  rw [last] at points
  replace space : c.space = ⟨a.space.ints, a.space.reals + k⟩ := space
  have admits' : ∀ x : ℕ → K, c.space.Admits x := Space.admits_of_real (by rw [space, solid.real])
  -- All copies may have what the dimension has.
  have copied : ∀ x : ℕ → K, a.Has x → c.Has (withCopies a.space.size k (fun _ => x d) x) := by
    intro x hx
    apply points x _ (admits x) hx
    · exact fun i _ first => absurd first (by simp [solid.real])
    · intro i _
      rwa [Function.update_eq_self]
  obtain ⟨r, report', run', hr, ints, left, folded⟩ := fold_keeps_points cfg hc (admits' _)
    (copied x₀ hx₀) distinct (space ▸ inside) (.inr (space ▸ reals))
  rw [space, size, kept_copies, List.length_range] at left
  have rspace : r.space = a.space := by
    simp only [space, solid.real] at ints
    simp only [Space.size, solid.real] at left
    have first : r.space.ints = a.space.ints := by
      rw [solid.real]
      omega
    have second : r.space.reals = a.space.reals := by omega
    exact congrArg₂ Space.mk first second
  refine ⟨c, report, run, r, report', run', rspace, fun x hx => ?_⟩
  obtain ⟨g, hg, has⟩ := folded _ (admits' _) (copied x hx) d List.mem_cons_self
  refine ⟨g, hg, (hr g hg).1.has_congr (fun i hi => ?_) has⟩
  rw [rspace] at hi
  rw [space, size, kept_copies, List.getD_eq_getElem _ _ (by simpa using hi), List.getElem_range,
    Function.update_eq_self, withCopies_of_lt _ _ hi]

/-- Over real dimensions and without rounding, let every range of a value that is not empty hold a rational.
Copies of a dimension are made behind the last dimension and can be folded into it again.  What results lives
in the space of the value and has all of its points; if exactly one row mentions the dimension, its axes and
ranges are those of the value. -/
theorem copies_folded_back (cfg : Settings) (exact : cfg.precision = .exact) {a : Parallelotope}
    (solid : a.Solid) (real : a.space.ints = 0) {d : ℕ} (hd : d < a.space.size) {k : ℕ} (many : 0 < k) :
    (a.expand cfg (.int d) k).Yields fun c =>
      (c.fold cfg ((d :: List.range' a.space.size k).map fun e : ℕ => .int e)).Yields fun r =>
        r.space = a.space ∧ (∀ x : ℕ → K, a.Has x → r.Has x) ∧
        ((∀ f, a.frame? = some f → ∃! i, i < a.space.size ∧ f.axes.entry i d ≠ 0) →
          r.content = a.content) := by
  cases hf : a.frame? with
  | none =>
    obtain ⟨c, report, run, r, report', run', space, content⟩ := refold_bottom cfg real hf hd many
    exact ⟨c, report, run, r, report', run', space, fun x has => absurd has (not_has_of_none hf x),
      fun _ => content⟩
  | some f =>
    obtain ⟨c, report, run, r, report', run', space, points⟩ :=
      refold_keeps_points (K := K) cfg solid hf hd many
    refine ⟨c, report, run, r, report', run', space, points, fun single => ?_⟩
    obtain ⟨q, ⟨hq, mentions⟩, unique⟩ := single f rfl
    -- A single row mentions the dimension, so nothing is lost on either way.
    have sole : f.Sole a.space.size d q := by
      refine ⟨hq, mentions, fun i hi other => ?_⟩
      by_contra nonzero
      exact other (unique i ⟨hi, nonzero⟩)
    obtain ⟨h, repeats, solid', rfl⟩ := (expand_repeats solid hf hd many sole).of_start run
    have folded : Op.Meets (fun _ => True) (fun _ => True) True _ _ :=
      fold_repeats exact solid hf hd many sole repeats solid'
    rw [folded.of_start run']
    simp [content, hf]

/-- In the leaning sample only one row mentions the first dimension, both rows the second. -/
theorem copies_folded_back_sample :
    leaningSample.Solid ∧
    ((leaningSample.expand {} (.int 0) 2).Yields fun c => (c.fold {} [.int 0, .int 2, .int 3]).Yields fun r =>
      r.space = leaningSample.space ∧ r.content = leaningSample.content) ∧
    (leaningSample.expand {} (.int 1) 2).Yields fun c => (c.fold {} [.int 1, .int 2, .int 3]).Yields fun r =>
      ∀ x : ℕ → ℚ, leaningSample.Has x → r.Has x := by
  refine ⟨leaningSample_solid, ?_, ?_⟩
  · obtain ⟨c, report, run, r, report', run', space, -, same⟩ := copies_folded_back (K := ℚ) {} rfl
      leaningSample_solid rfl (d := 0) (by decide) (k := 2) (by decide)
    refine ⟨c, report, run, r, report', run', space, same ?_⟩
    intro f hf
    obtain rfl := Option.some.inj hf
    refine ⟨0, by decide, ?_⟩
    rintro i ⟨small, mentions⟩
    have known : i = 0 ∨ i = 1 := by
      have bound : i < 2 := small
      omega
    cases known with
    | inl first => exact first
    | inr second =>
      subst second
      exact absurd rfl mentions
  · obtain ⟨c, report, run, r, report', run', -, points, -⟩ := copies_folded_back (K := ℚ) {} rfl
      leaningSample_solid rfl (d := 1) (by decide) (k := 2) (by decide)
    exact ⟨c, report, run, r, report', run', points⟩

end Parallelotope

end SkewBox
