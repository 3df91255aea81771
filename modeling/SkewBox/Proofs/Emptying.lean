import Mathlib.Tactic
import SkewBox.Proofs.ExactReshape
import SkewBox.Proofs.Inclusion
import SkewBox.Proofs.Refusals
import SkewBox.Proofs.Sessions

/-!
# Values emptied on the way

Once a change of dimensions has accepted its arguments it returns, with one exception: copies of a
dimension, and folding, read the rows of a value that tightening may have emptied on the way.

* `Transform.Accepts`, `Transform.Empties`: the arguments that are accepted, and the exception.
* `Session.dimension_changes_answered`: the answer of a domain to any change of dimensions.
-/

namespace SkewBox

/-! ## Tightening -/

theorem Space.integral_iff {s : Space} {row : Vec} : s.integral row = true ↔
    ∀ j, row.getD j 0 = 0 ∨ j < s.ints ∧ (row.getD j 0).den = 1 := by
  unfold integral
  rw [List.all_eq_true]
  constructor
  · intro all j
    by_cases hj : j < row.length
    · have entry := all (row[j], j) (List.mem_zipIdx_iff_getElem?.mpr (List.getElem?_eq_getElem hj))
      rw [List.getD_eq_getElem _ _ hj]
      simpa [isInt] using entry
    · exact .inl (List.getD_eq_default _ _ (not_lt.mp hj))
  · rintro entries ⟨c, j⟩ mem
    have found : row[j]? = some c := List.mem_zipIdx_iff_getElem?.mp mem
    obtain ⟨hj, rfl⟩ := List.getElem?_eq_some_iff.mp found
    have entry := entries j
    rw [List.getD_eq_getElem _ _ hj] at entry
    simpa [isInt] using entry

namespace Frame

variable {cfg : Settings} {s s' : Space} {f g : Frame} {n : ℕ} {old fresh : List ℕ} {I : Interval}

theorem tightenAll_empty (rows : List Vec) (Is : List Interval) :
    (tightenAll cfg s rows Is).2 = true ↔ ∃ d ∈ rows.zip Is, (tighten cfg s d.1 d.2).isBottom = true := by
  induction rows generalizing Is with
  | nil => simp [tightenAll]
  | cons row rows ih =>
    cases Is with
    | nil => simp [tightenAll]
    | cons I Is =>
      cases first : (tighten cfg s row I).isBottom with
      | true => simp [tightenAll, first]
      | false => simp [tightenAll, first, ih]

theorem Regular.normalize_empty (regular : f.Regular s.size) : (f.normalize cfg s).empty = true ↔
    ∃ i < s.size, (tighten cfg s (f.axes.getD i []) (f.ranges.getD i .top)).isBottom = true := by
  have axes := regular.axes.shape.length
  have ranges := regular.ranges
  refine (tightenAll_empty f.axes f.ranges).trans ⟨?_, ?_⟩
  · rintro ⟨d, hd, bottom⟩
    obtain ⟨i, hi, rfl⟩ := List.mem_iff_getElem.mp hd
    have small : i < s.size := by simpa [axes, ranges] using hi
    refine ⟨i, small, ?_⟩
    rw [List.getElem_zip] at bottom
    rwa [List.getD_eq_getElem _ _ (axes.symm ▸ small), List.getD_eq_getElem _ _ (ranges.symm ▸ small)]
  · rintro ⟨i, hi, bottom⟩
    rw [List.getD_eq_getElem _ _ (axes.symm ▸ hi), List.getD_eq_getElem _ _ (ranges.symm ▸ hi)] at bottom
    have small : i < (f.axes.zip f.ranges).length := by simpa [axes, ranges] using hi
    refine ⟨(f.axes.zip f.ranges)[i], List.getElem_mem small, ?_⟩
    rwa [List.getElem_zip]

theorem Spread.tighten_old (spread : f.Spread s'.size old fresh I g) (regular : f.Regular s.size)
    (length : old.length = s.size)
    (integer : ∀ j < s.size, old.getD j 0 < s'.ints ↔ j < s.ints) {i : ℕ} (hi : i < s.size) :
    tighten cfg s' (g.axes.getD (old.getD i 0) []) (g.ranges.getD (old.getD i 0) .top) =
      tighten cfg s (f.axes.getD i []) (f.ranges.getD i .top) := by
  have row : old.getD i 0 < s'.size :=
    spread.lt_of_mem (List.mem_append_left _ (getD_mem (length.symm ▸ hi)))
  have same : s'.integral (g.axes.getD (old.getD i 0) []) = s.integral (f.axes.getD i []) := by
    rw [Bool.eq_iff_iff, Space.integral_iff, Space.integral_iff]
    constructor
    · intro entries j
      by_cases hj : j < s.size
      · have entry := entries (old.getD j 0)
        have moved := spread.entry_old regular length hi hj
        rw [Mat.entry, Mat.entry] at moved
        rwa [moved, integer j hj] at entry
      · exact .inl (List.getD_eq_default _ _ (by rw [regular.axes.shape.getD_length hi]; omega))
    · intro entries t
      by_cases ht : t < s'.size
      · rcases spread.cases ht with ⟨j, hj, rfl⟩ | new
        · have hj : j < s.size := length ▸ hj
          have moved := spread.entry_old regular length hi hj
          rw [Mat.entry, Mat.entry] at moved
          rw [moved, integer j hj]
          exact entries j
        · exact .inl (spread.entry_fresh regular length hi new)
      · exact .inl (List.getD_eq_default _ _ (by rw [spread.shape.getD_length row]; omega))
  -- A row that is integral has an integer dimension to mention, in either space.
  obtain ⟨j, hj, mentioned⟩ := regular.exists_coeff_ne_zero hi
  rw [(spread.moved i (length.symm ▸ hi)).2, tighten, tighten, same]
  cases integral : s.integral (f.axes.getD i []) with
  | false => simp
  | true =>
    have first : j < s.ints := ((Space.integral_iff.mp integral j).resolve_left mentioned).1
    have moved : old.getD j 0 < s'.ints := (integer j hj).mpr first
    simp [Nat.zero_lt_of_lt first, Nat.zero_lt_of_lt moved]

/-- New dimensions do not change whether tightening empties a frame if their range has a member. -/
theorem Spread.normalize_empty (spread : f.Spread s'.size old fresh I g) (regular : f.Regular s.size)
    (length : old.length = s.size) (fixed : I.tighten = I) (nonempty : I.isBottom = false)
    (integer : ∀ j < s.size, old.getD j 0 < s'.ints ↔ j < s.ints) :
    (g.normalize cfg s').empty = (f.normalize cfg s).empty := by
  rw [Bool.eq_iff_iff, (spread.regular regular length).normalize_empty, regular.normalize_empty]
  constructor
  · rintro ⟨t, ht, bottom⟩
    rcases spread.cases ht with ⟨i, hi, rfl⟩ | new
    · rw [spread.tighten_old regular length integer (length ▸ hi)] at bottom
      exact ⟨i, length ▸ hi, bottom⟩
    · rw [(spread.unit t new).2, tighten_of_fixed fixed, nonempty] at bottom
      cases bottom
  · rintro ⟨i, hi, bottom⟩
    refine ⟨old.getD i 0, ?_, ?_⟩
    · exact spread.lt_of_mem (List.mem_append_left _ (getD_mem (length.symm ▸ hi)))
    · rwa [spread.tighten_old regular length integer hi]

end Frame

namespace Parallelotope

variable {cfg : Settings} {a : Parallelotope}

/-! ## Expansion -/

/-- The place of copies of a dimension: after the last one of its kind. -/
def copiesAt (s : Space) (d : ℕ) : ℕ := if s.isInt d then s.ints else s.size

theorem lt_copiesAt {s : Space} {d : ℕ} (inside : d < s.size) : d < copiesAt s d := by
  unfold copiesAt
  split
  · rename_i integer
    exact of_decide_eq_true integer
  · exact inside

theorem checkInsertion_copies (s : Space) (d k : ℕ) :
    ∀ entry ∈ (Change.repeated (copiesAt s d) k (s.isInt d)).positions.zipIdx,
      checkInsertion s (.repeated (copiesAt s d) k (s.isInt d)) entry.2 entry.1 = .ok () := by
  unfold copiesAt
  cases s.isInt d with
  | true => exact checkInsertion_repeated k (Nat.le_add_right ..) le_rfl
  | false => exact checkInsertion_end s k

theorem Cut.isBottom_toParallelotope (s : Space) (c : Cut) :
    (c.toParallelotope s).isBottom = c.empty := by
  cases empty : c.empty <;> simp [Cut.toParallelotope, isBottom, empty]

theorem addDimensions_spread {f : Frame} (hf : a.frame? = some f) (regular : f.Regular a.space.size)
    {c : Change} (more : 0 < c.size)
    (checked : ∀ entry ∈ c.positions.zipIdx, checkInsertion a.space c entry.2 entry.1 = .ok ())
    (cfg : Settings) (project : Bool) :
    let s : Space := ⟨a.space.ints + c.ints, a.space.reals + c.reals⟩
    Op.Meets (fun _ => True) (fun _ => True) False (a.addDimensions cfg c project) fun b =>
      ∃ g : Frame, f.Spread s.size (oldPlaces a.space.size (c.positions.map Int.toNat))
        (freshPlaces (c.positions.map Int.toNat)) (freshRange project) g ∧
      b = (g.normalize cfg s).toParallelotope s := by
  obtain ⟨g, inserted, spread⟩ := exists_insertInto regular project (places_of_checked checked)
  unfold addDimensions
  apply (Op.meets_forM (R := fun _ => True) fun entry mem =>
    Op.meets_lift_ok (checked entry mem) trivial).bind
  intro _ _
  simp only [hf, if_neg more.ne']
  apply (Op.meets_lift_ok inserted rfl).bind
  rintro _ rfl
  apply (Op.move_meets trivial rfl).bind
  rintro _ rfl
  exact Op.put_meets trivial ⟨_, spread, rfl⟩

/-- Room for copies of a dimension is made, and is empty exactly if tightening empties the value. -/
theorem makeRoom_meets (cfg : Settings) (ha : a.WellFormed) {f : Frame} (hf : a.frame? = some f)
    (d : ℕ) {k : ℕ} (many : 0 < k) :
    Op.Keeps True False (a.addDimensions cfg (.repeated (copiesAt a.space d) k (a.space.isInt d)) false)
      fun b => a.Extends True (.repeated (copiesAt a.space d) k (a.space.isInt d)) false ℚ b ∧
        b.isBottom = (a.normalize cfg).isBottom := by
  have checked := checkInsertion_copies a.space d k
  have regular := (ha f hf).1
  have more : 0 < (Change.repeated (copiesAt a.space d) k (a.space.isInt d)).size := by simpa using many
  refine (addDimensions_meets ha _ false fun entry mem e refused => ?_).and
    ((addDimensions_spread hf regular more checked cfg false).imp ?_)
  · rw [checked entry mem] at refused
    cases refused
  · rintro _ ⟨g, spread, rfl⟩
    have emptied : (g.normalize cfg _).empty = (f.normalize cfg a.space).empty :=
      spread.normalize_empty regular (length_oldPlaces ..) rfl rfl fun _ => oldPlaces_integer checked
    rw [Cut.isBottom_toParallelotope, emptied, normalize, hf]
    exact (Cut.isBottom_toParallelotope _ _).symm

/-- Copies of a dimension are asked for, and tightening empties the value, which has rows. -/
def EmptiesExpanding (cfg : Settings) (a : Parallelotope) (count : ℤ) : Prop :=
  0 < count ∧ a.isBottom = false ∧ (a.normalize cfg).isBottom = true

/-- Copies take over a row of the value with room for them, and fail if it has none. -/
theorem copyDimension_ends (ha : a.WellFormed) {d : ℕ} (inside : d < a.space.size) {count : ℤ}
    (many : 0 < count) (framed : a.isBottom = false) {b : Parallelotope}
    (room : a.Extends True (.repeated (copiesAt a.space d) count.toNat (a.space.isInt d)) false ℚ b)
    (emptied : b.isBottom = (a.normalize cfg).isBottom) :
    Op.Ends (·.WellFormed) (·.WellFormed) (fun e => e = .fault .sort ∧ a.EmptiesExpanding cfg count)
      (b.copyDimension cfg d (copiesAt a.space d) count.toNat)
      fun c => c.WellFormed ∧ ¬ a.EmptiesExpanding cfg count := by
  cases hb : b.frame? with
  | none =>
    have bottom : b.isBottom = true := by simp [isBottom, hb]
    unfold copyDimension
    simp only [hb]
    exact Op.ends_throw ⟨rfl, many, framed, emptied.symm.trans bottom⟩
  | some g =>
    have bottom : b.isBottom = false := by simp [isBottom, hb]
    have copied : Op.Keeps True False (b.copyDimension cfg d (copiesAt a.space d) count.toNat)
        (·.WellFormed) :=
      copyDimension_meets ha room inside (lt_copiesAt inside) (by omega) fun none => by simp [hb] at none
    refine copied.ends.imp fun c hc => ⟨hc, fun empties => ?_⟩
    exact absurd (bottom.symm.trans (emptied.trans empties.2.2)) Bool.false_ne_true

theorem expand_ends (ha : a.WellFormed) {d : ℕ} (inside : d < a.space.size) {count : ℤ}
    (nonneg : 0 ≤ count) :
    Op.Ends (·.WellFormed) (·.WellFormed) (fun e => e = .fault .sort ∧ a.EmptiesExpanding cfg count)
      (a.expand cfg (.int d) count) fun b => b.WellFormed ∧ ¬ a.EmptiesExpanding cfg count := by
  have checked : a.space.check (.int d) = .ok d := Space.check_eq_ok.mpr ⟨rfl, inside⟩
  unfold expand
  refine (Op.meets_lift_ok checked rfl).ends.bind ?_
  rintro _ rfl
  simp only [if_neg (not_lt.mpr nonneg)]
  by_cases zero : count.toNat = 0
  · simp only [if_pos zero]
    exact (Op.meets_pure ⟨ha, fun empties => by have := empties.1; omega⟩).ends
  simp only [if_neg zero]
  cases hf : a.frame? with
  | none =>
    -- An empty value has no rows to copy: making room for the copies is all that is done.
    have room : Op.Keeps True False (a.addDimensions cfg _ false) (a.Extends True _ false ℚ) :=
      addDimensions_meets ha (.repeated (copiesAt a.space d) count.toNat (a.space.isInt d)) false
        fun entry mem e refused => by
          rw [checkInsertion_copies a.space d _ entry mem] at refused
          cases refused
    refine room.ends.imp fun b extended => ⟨extended.shaped, fun empties => ?_⟩
    have framed := empties.2.1
    simp [isBottom, hf] at framed
  | some f =>
    have framed : a.isBottom = false := by simp [isBottom, hf]
    -- Room is made for the copies, where tightening may empty the value, and then they are written.
    have copies := (makeRoom_meets cfg ha hf d (Nat.pos_of_ne_zero zero)).ends.bind
      fun b room => copyDimension_ends ha inside (by omega) framed room.1 room.2
    obtain ⟨rows, mentioned, -⟩ := (ha f hf).1.exists_mentioning inside
    refine (Op.meets_lift_ok mentioned rfl).ends.bind ?_
    rintro _ rfl
    split
    · exact (Op.inexact_meets.ends).bind fun _ _ => copies
    · exact copies

/-! ## Folding -/

theorem joinAt_total (ha : a.WellFormed) {b : Parallelotope} (hb : b.WellFormed)
    (space : b.space = a.space) (k : ℕ) :
    Op.Keeps True False (joinAt cfg k a b) fun c => c.WellFormed ∧ c.space = a.space :=
  joinAt_meets ha hb k (fun other => other space.symm)
    ((leq_total (K := ℚ) hb.weaken ha.weaken space).imp fun _ _ => trivial)

theorem joinFrom_total {rest : List Parallelotope} (ha : a.WellFormed)
    (hrest : ∀ b ∈ rest, b.WellFormed ∧ b.space = a.space) (k : ℕ) :
    Op.Keeps True False (joinFrom cfg k a rest) fun c => c.WellFormed ∧ c.space = a.space := by
  induction rest generalizing a k with
  | nil => exact Op.meets_pure ⟨ha, rfl⟩
  | cons b rest ih =>
    obtain ⟨⟨hb, space⟩, hrest⟩ := List.forall_mem_cons.mp hrest
    apply (joinAt_total ha hb space k).bind
    rintro c ⟨hc, same⟩
    have hrest' : ∀ d ∈ rest, d.WellFormed ∧ d.space = c.space := fun d hd =>
      ⟨(hrest d hd).1, (hrest d hd).2.trans same.symm⟩
    exact (ih hc hrest' (k + 1)).imp fun e he => ⟨he.1, he.2.trans same⟩

theorem exists_forget_eq (cfg : Settings) (ha : a.WellFormed) {d : ℕ} (hd : d < a.space.size) :
    ∃ v : Parallelotope, v.WellFormed ∧ v.space = a.space ∧
      Op.Keeps True False (a.forget cfg [.int d] false) (· = v) := by
  have checked := Space.checkDistinct_single hd
  have forgets : Op.Keeps True False (a.forget cfg [.int d] false) fun b => ∃ ds, _ :=
    forget_keeps (K := ℚ) ha fun e refused => by
      rw [checked] at refused
      cases refused
  -- It is enough to know the value; its shape is known from forgetting in general.
  suffices same : ∃ v, Op.Meets (fun _ => True) (fun _ => True) False (a.forget cfg [.int d] false)
      (· = v) by
    obtain ⟨v, returns⟩ := same
    have both := forgets.and returns
    obtain ⟨b, report, run, ⟨ds, -, forgotten⟩, rfl⟩ := both.yields
    exact ⟨b, forgotten.wellFormed, forgotten.space, both.imp fun _ h => h.2⟩
  unfold forget
  cases hf : a.frame? with
  | none =>
    refine ⟨a, (Op.meets_lift_ok checked rfl).bind ?_⟩
    rintro _ rfl
    exact Op.meets_pure rfl
  | some f =>
    obtain ⟨rows, mentioned, mem⟩ := (ha f hf).1.exists_mentioning hd
    obtain ⟨p, found, -⟩ := (ha f hf).1.exists_pivotFor? hd mem
    -- The report decides nothing: a loss of precision is recorded or not, the frame is the same.
    have one : Op.Meets (fun _ => True) (fun _ => True) False (f.forgetOne cfg a.space false d)
        (· = (f.eliminateAll cfg a.space d p false, p)) := by
      unfold Frame.forgetOne
      refine (Op.meets_lift_ok mentioned rfl).bind ?_
      rintro _ rfl
      simp only [found]
      split
      · exact Op.inexact_meets.bind fun _ _ => Op.meets_pure rfl
      · exact Op.meets_pure rfl
    have all : Op.Meets (fun _ => True) (fun _ => True) False (f.forgetAll cfg a.space false [d])
        (· = (f.eliminateAll cfg a.space d p false, [p])) := by
      unfold Frame.forgetAll Frame.forgetAll
      refine one.bind ?_
      rintro _ rfl
      exact (Op.write_meets trivial).bind fun _ _ => Op.meets_pure rfl
    refine ⟨((f.eliminateAll cfg a.space d p false).normalize cfg a.space).toParallelotope a.space,
      (Op.meets_lift_ok checked rfl).bind ?_⟩
    rintro _ rfl
    refine all.bind ?_
    rintro _ rfl
    exact Op.put_meets trivial rfl

/-- Forgetting the first of several dimensions, into which the others are folded, empties the value,
which has rows. -/
def EmptiesFolding (cfg : Settings) (a : Parallelotope) : List Datum → Prop
  | d :: _ :: _ => a.isBottom = false ∧ (a.forget cfg [d] false).Yields (·.isBottom = true)
  | _ => False

/-- The value `b` is what is left of a value in the space of `a` when the dimensions of the change are
removed. -/
def Remains (a : Parallelotope) (c : Change) (b : Parallelotope) : Prop :=
  ∃ (a' : Parallelotope) (ds : List ℕ), a'.space = a.space ∧ a'.Restricts True c ℚ ds b

theorem Remains.wellFormed {c : Change} {b : Parallelotope} (h : a.Remains c b) : b.WellFormed := by
  obtain ⟨_, _, -, restricts⟩ := h
  exact restricts.shaped

theorem Remains.space_eq {c : Change} {b b' : Parallelotope} (h : a.Remains c b) (h' : a.Remains c b') :
    b.space = b'.space := by
  obtain ⟨_, _, space, restricts⟩ := h
  obtain ⟨_, _, space', restricts'⟩ := h'
  exact restricts.space_eq restricts' (space.trans space'.symm)

/-- The part of a dimension that is folded into another: it fails if the value without the other
dimension, which is `v`, has no rows. -/
theorem foldPart_ends {target d : ℕ} (ht : target < a.space.size) (hd : d < a.space.size)
    {v : Parallelotope} (hv : v.WellFormed) (space : v.space = a.space)
    (returns : Op.Keeps True False (a.forget cfg [.int target] false) (· = v)) {c : Change} {ds : List ℕ}
    (checked : a.space.checkDistinct (c.positions.map Datum.int) = .ok ds)
    (announced : ds.countP (a.space.isInt ·) = c.ints) :
    Op.Ends (·.WellFormed) (·.WellFormed) (fun e => e = .fault .sort ∧ v.isBottom = true)
      (a.foldPart cfg c target d) fun b => v.isBottom = false ∧ a.Remains c b := by
  unfold foldPart
  refine returns.ends.bind fun w same => ?_
  rw [same]
  cases hf : v.frame? with
  -- Here rows are expected: an emptied value has none to exchange.
  | none => exact Op.ends_throw ⟨rfl, by simp [isBottom, hf]⟩
  | some f =>
    have framed : v.isBottom = false := by simp [isBottom, hf]
    have perm := exchange_perm ht hd
    obtain ⟨regular, ordered⟩ := hv f hf
    rw [space] at regular
    refine (Op.meets_lift_ok (regular.moveChecked_eq (by simp [perm.length_eq])) rfl).ends.bind ?_
    rintro _ rfl
    rw [space]
    refine (removeDimensions_total (K := ℚ) (Shaped.permuted regular ordered perm) checked
      announced).ends.imp ?_
    rintro b ⟨ds', restricts⟩
    exact ⟨framed, ⟨a.space, some _⟩, ds', rfl, restricts⟩

theorem not_mixed_of_kind {s : Space} {dims : List ℕ}
    (kind : (∀ d ∈ dims, d < s.ints) ∨ ∀ d ∈ dims, s.ints ≤ d) :
    (dims.any (s.isInt ·) && dims.any (!s.isInt ·)) = false := by
  rw [Bool.and_eq_false_iff, List.any_eq_false, List.any_eq_false]
  cases kind with
  | inl ints => exact .inr fun d hd => by simp [Space.isInt, ints d hd]
  | inr reals => exact .inl fun d hd => by simp [Space.isInt, reals d hd]

theorem fold_single (cfg : Settings) {d : ℕ} (hd : d < a.space.size) : a.fold cfg [.int d] = pure a := by
  have kind : (∀ e ∈ [d], e < a.space.ints) ∨ ∀ e ∈ [d], a.space.ints ≤ e := by
    simpa using lt_or_ge d a.space.ints
  unfold fold
  rw [Space.checkDistinct_single hd]
  simp only [List.isEmpty_cons, Bool.false_eq_true, if_false, Op.lift_ok_bind, not_mixed_of_kind kind]

theorem fold_several (cfg : Settings) {d : ℕ} {rest : List ℕ} (some : rest ≠ [])
    (distinct : (d :: rest).Nodup) (inside : ∀ e ∈ d :: rest, e < a.space.size)
    (kind : (∀ e ∈ d :: rest, e < a.space.ints) ∨ ∀ e ∈ d :: rest, a.space.ints ≤ e) :
    a.fold cfg ((d :: rest).map fun e : ℕ => .int e) =
      if a.isBottom then a.removeDimensions cfg (.listing a.space rest)
      else (do
        let folded ← Op.aside do
          let first ← a.removeDimensions cfg (.listing a.space rest)
          let others ← rest.mapM (a.foldPart cfg (.listing a.space rest) d)
          joinArray cfg (first :: others)
        Op.move folded) := by
  unfold fold
  rw [Space.checkDistinct_eq_ok.mpr ⟨rfl, distinct, inside⟩]
  simp only [List.map_cons, List.isEmpty_cons, Bool.false_eq_true, if_false, Op.lift_ok_bind,
    not_mixed_of_kind kind]

/-- The union of the parts fails if the value without the first dimension, which is `v`, has no rows. -/
theorem foldParts_ends (ha : a.WellFormed) {d : ℕ} {rest : List ℕ} (some : rest ≠ [])
    (distinct : rest.Nodup) (hd : d < a.space.size) (inside : ∀ e ∈ rest, e < a.space.size)
    {v : Parallelotope} (hv : v.WellFormed) (space : v.space = a.space)
    (returns : Op.Keeps True False (a.forget cfg [.int d] false) (· = v)) :
    Op.Ends (·.WellFormed) (·.WellFormed) (fun e => e = .fault .sort ∧ v.isBottom = true) (do
        let first ← a.removeDimensions cfg (.listing a.space rest)
        let others ← rest.mapM (a.foldPart cfg (.listing a.space rest) d)
        joinArray cfg (first :: others))
      fun b => b.WellFormed ∧ v.isBottom = false := by
  obtain ⟨listed, announced⟩ := checked_listing distinct inside rfl
  refine (removeDimensions_total (K := ℚ) ha listed announced).ends.bind ?_
  rintro b ⟨ds, restricts⟩
  have hb : a.Remains (.listing a.space rest) b := ⟨a, ds, rfl, restricts⟩
  refine (Op.ends_mapM fun e he => foldPart_ends hd (inside e he) hv space returns listed announced).bind
    fun others each => ?_
  -- There is at least one part, so a union that is returned shows that none was emptied.
  have framed : v.isBottom = false := by
    cases each with
    | nil => exact absurd rfl some
    | cons one _ => exact one.1
  refine (joinFrom_total hb.wellFormed (fun c hc => ?_) 1).ends.imp fun c hc => ⟨hc.1, framed⟩
  obtain ⟨_, -, -, remains⟩ := exists_of_mem_right each hc
  exact ⟨remains.wellFormed, remains.space_eq hb⟩

theorem fold_ends (ha : a.WellFormed) {dims : List ℕ} (some : dims ≠ []) (distinct : dims.Nodup)
    (inside : ∀ d ∈ dims, d < a.space.size)
    (kind : (∀ d ∈ dims, d < a.space.ints) ∨ ∀ d ∈ dims, a.space.ints ≤ d) :
    Op.Ends (·.WellFormed) (·.WellFormed)
      (fun e => e = .fault .sort ∧ a.EmptiesFolding cfg (dims.map fun d : ℕ => .int d))
      (a.fold cfg (dims.map fun d : ℕ => .int d))
      fun b => b.WellFormed ∧ ¬ a.EmptiesFolding cfg (dims.map fun d : ℕ => .int d) := by
  match dims with
  | [] => exact absurd rfl some
  | [d] =>
    rw [List.map_singleton, fold_single cfg (inside d List.mem_cons_self)]
    exact (Op.meets_pure ⟨ha, id⟩).ends
  | d :: d' :: rest =>
    obtain ⟨hd, hrest⟩ := List.forall_mem_cons.mp inside
    obtain ⟨-, distinct'⟩ := List.nodup_cons.mp distinct
    rw [fold_several cfg (by simp) distinct inside kind]
    cases bottom : a.isBottom with
    | true =>
      obtain ⟨listed, announced⟩ := checked_listing distinct' hrest rfl
      refine (removeDimensions_total (K := ℚ) ha listed announced).ends.imp ?_
      rintro b ⟨ds, restricts⟩
      refine ⟨restricts.shaped, fun empties => ?_⟩
      rw [empties.1] at bottom
      cases bottom
    | false =>
      obtain ⟨v, hv, space, returns⟩ := exists_forget_eq cfg ha hd
      -- Every part forgets the first dimension, so all of them are emptied or none is.
      have emptied : a.EmptiesFolding cfg ((d :: d' :: rest).map fun d : ℕ => .int d) ↔
          v.isBottom = true := by
        constructor
        · rintro ⟨-, b, report, run, bottom⟩
          rwa [← returns.of_start run]
        · intro bottom'
          exact ⟨bottom, (returns.imp fun _ same => by rwa [same]).yields⟩
      have union := foldParts_ends ha (by simp) distinct' hd hrest hv space returns
      refine Op.Ends.bind ((Op.ends_aside union).mono (fun e h => ⟨h.1, emptied.mpr h.2⟩) fun _ => id) ?_
      rintro b ⟨hb, framed⟩
      refine (Op.move_meets hb ⟨hb, ?_⟩).ends
      rw [emptied, framed]
      exact Bool.false_ne_true

end Parallelotope

/-! ## Changes of dimensions -/

namespace Transform

/-- Whether the change is one of dimensions. -/
def reshapes : Transform → Bool
  | forget .. | addDimensions .. | removeDimensions _ | permute _ | expand .. | fold _ => true
  | _ => false

/-- The arguments that a change of dimensions accepts in a space. -/
def Accepts (s : Space) : Transform → Prop
  | forget data _ => ∃ dims, s.Lists data dims
  | addDimensions c _ => ∀ (i : ℕ) (pos : ℤ), c.positions[i]? = some pos →
      0 ≤ pos ∧ pos ≤ s.size ∧ if i < c.ints then pos ≤ s.ints else s.ints ≤ pos
  | removeDimensions c => ∃ dims, s.Lists (c.positions.map .int) dims ∧ dims.countP (s.isInt ·) = c.ints
  | permute p => p.size = s.size
  | expand datum count => (∃ d < s.size, datum = .int d) ∧ 0 ≤ count
  | fold data => ∃ dims, dims ≠ [] ∧ s.Lists data dims ∧
      ((∀ d ∈ dims, d < s.ints) ∨ ∀ d ∈ dims, s.ints ≤ d)
  | _ => False

/-- On the way the change meets an empty value where it expects rows. -/
def Empties (cfg : Settings) (a : Parallelotope) : Transform → Prop
  | expand _ count => a.EmptiesExpanding cfg count
  | fold data => a.EmptiesFolding cfg data
  | _ => False

variable {a : Parallelotope} {t : Transform}

theorem addDimensions_refuses (cfg : Settings) {c : Change} {project : Bool}
    (refused : ¬ (addDimensions c project).Accepts a.space) : (a.addDimensions cfg c project).Refuses := by
  -- Some position is refused, for otherwise all would be accepted.
  obtain ⟨i, pos, found, fails⟩ : ∃ i pos, c.positions[i]? = some pos ∧
      Parallelotope.checkInsertion a.space c i pos ≠ .ok () := by
    by_contra all
    push Not at all
    exact refused fun i pos found => Parallelotope.checkInsertion_eq_ok_iff.mp (all i pos found)
  unfold Parallelotope.addDimensions
  refine Op.refuses_forM (fun entry => Parallelotope.checkInsertion a.space c entry.2 entry.1)
    (fun item => ?_) ⟨(pos, i), List.mem_zipIdx_iff_getElem?.mpr found, fails⟩ fun _ _ e => ?_
  · rfl
  · exact Parallelotope.checkInsertion_invalid

theorem removeDimensions_refuses (cfg : Settings) {c : Change}
    (refused : ¬ (removeDimensions c).Accepts a.space) : (a.removeDimensions cfg c).Refuses := by
  unfold Parallelotope.removeDimensions
  cases checked : a.space.checkDistinct (c.positions.map Datum.int) with
  | error e => exact ⟨e, Space.checkDistinct_invalid checked, fun _ => rfl⟩
  | ok dims =>
    refine Op.Refuses.lift_bind rfl (Op.refuses_lift (fun s after => refused ?_) fun e => ?_)
    · exact ⟨dims, Space.lists_iff.mpr checked, (Parallelotope.spaceAfter_eq_ok after).1⟩
    · exact Parallelotope.spaceAfter_invalid

theorem expand_refuses (cfg : Settings) {datum : Datum} {count : ℤ}
    (refused : ¬ (expand datum count).Accepts a.space) : (a.expand cfg datum count).Refuses := by
  unfold Parallelotope.expand
  cases checked : a.space.check datum with
  | error e => exact ⟨e, Space.check_invalid checked, fun _ => rfl⟩
  | ok d =>
    obtain ⟨named, inside⟩ := Space.check_eq_ok.mp checked
    have negative : count < 0 := by
      by_contra nonneg
      exact refused ⟨⟨d, inside, named⟩, not_lt.mp nonneg⟩
    refine Op.Refuses.lift_bind rfl ?_
    simp only [if_pos negative]
    exact Op.refuses_throw_bind rfl

theorem fold_refuses (cfg : Settings) {data : List Datum} (refused : ¬ (fold data).Accepts a.space) :
    (a.fold cfg data).Refuses := by
  unfold Parallelotope.fold
  by_cases empty : data.isEmpty
  · simp only [if_pos empty]
    exact Op.refuses_throw_bind rfl
  simp only [if_neg empty]
  cases checked : a.space.checkDistinct data with
  | error e => exact ⟨e, Space.checkDistinct_invalid checked, fun _ => rfl⟩
  | ok dims =>
    -- The dimensions are known and there are some, so they are refused for being mixed.
    have mixed : (dims.any (a.space.isInt ·) && dims.any (!a.space.isInt ·)) = true := by
      by_contra pure
      refine refused ⟨dims, ?_, Space.lists_iff.mpr checked, ?_⟩
      · rintro rfl
        have none := (Space.checkDistinct_eq_ok.mp checked).1
        simp [none] at empty
      · simp only [Bool.not_eq_true, Bool.and_eq_false_iff, List.any_eq_false, Space.isInt,
          decide_eq_true_eq, Bool.not_eq_true', decide_eq_false_iff_not, not_lt, not_le] at pure
        exact pure.symm
    refine Op.Refuses.lift_bind rfl ?_
    simp only [if_pos mixed]
    exact Op.refuses_throw_bind rfl

theorem run_refuses (cfg : Settings) (kind : t.reshapes) (refused : ¬ t.Accepts a.space) :
    (t.run cfg a).Refuses := by
  cases t with
  | forget data project =>
    refine Op.refuses_lift (fun dims checked => refused ⟨dims, Space.lists_iff.mpr checked⟩) ?_
    exact fun e => Space.checkDistinct_invalid
  | addDimensions c project => exact addDimensions_refuses cfg refused
  | removeDimensions c => exact removeDimensions_refuses cfg refused
  | permute p =>
    have other : p.size ≠ a.space.size := refused
    show (Parallelotope.permute a p).Refuses
    unfold Parallelotope.permute
    rw [if_pos other]
    exact Op.refuses_throw_bind rfl
  | expand datum count => exact expand_refuses cfg refused
  | fold data => exact fold_refuses cfg refused
  | _ => cases kind

theorem run_ends (cfg : Settings) (ha : a.WellFormed) (accepted : t.Accepts a.space) :
    Op.Ends (·.WellFormed) (·.WellFormed) (fun e => e = .fault .sort ∧ t.Empties cfg a) (t.run cfg a)
      fun b => b.WellFormed ∧ ¬ t.Empties cfg a := by
  cases t with
  | forget data project =>
    obtain ⟨dims, lists⟩ := accepted
    have checked := Space.lists_iff.mp lists
    have forgets : Op.Keeps True False (a.forget cfg data project) fun b => ∃ ds, _ :=
      Parallelotope.forget_keeps (K := ℚ) ha fun e refused => by
        rw [checked] at refused
        cases refused
    refine forgets.ends.imp ?_
    rintro b ⟨ds, -, forgotten⟩
    exact ⟨forgotten.wellFormed, id⟩
  | addDimensions c project =>
    have added : Op.Keeps True False (a.addDimensions cfg c project) (a.Extends True c project ℚ) :=
      Parallelotope.addDimensions_meets ha c project fun entry mem e refused => by
        have found := List.mem_zipIdx_iff_getElem?.mp mem
        rw [Parallelotope.checkInsertion_eq_ok_iff.mpr (accepted _ _ found)] at refused
        cases refused
    exact added.ends.imp fun b extended => ⟨extended.shaped, id⟩
  | removeDimensions c =>
    obtain ⟨dims, lists, announced⟩ := accepted
    refine (Parallelotope.removeDimensions_total (K := ℚ) ha (Space.lists_iff.mp lists)
      announced).ends.imp ?_
    rintro b ⟨ds, restricts⟩
    exact ⟨restricts.shaped, id⟩
  | permute p =>
    have permuted : Op.Keeps True False (a.permute p) fun b => b.space = a.space ∧ _ :=
      Parallelotope.permute_meets (K := ℚ) ha p fun other => other accepted
    exact permuted.ends.imp fun b moved => ⟨moved.2.1, id⟩
  | expand datum count =>
    obtain ⟨⟨d, inside, rfl⟩, nonneg⟩ := accepted
    exact Parallelotope.expand_ends ha inside nonneg
  | fold data =>
    obtain ⟨dims, some, ⟨rfl, distinct, inside⟩, oneKind⟩ := accepted
    exact Parallelotope.fold_ends ha some distinct inside oneKind
  | _ => exact accepted.elim

end Transform

/-! ## Answers of a domain -/

namespace Session

variable {s : Session} {k : ℕ} {consume : Bool} {c : Call} {x : Run}

theorem settle_error {e : Error} (fails : x.result = .error e) : (s.settle k x).1 = .error e := by
  simp only [settle, fails]

theorem settle_change {a : Parallelotope} (changes : x.result = .ok (.change a)) :
    ∃ r, (s.settle k x).1 = .ok (.object r) := by
  simp only [settle, changes]
  split
  · exact ⟨_, rfl⟩
  · exact ⟨_, rfl⟩

theorem transform_result (cfg : Settings) (thresholds : List Datum) (consume : Bool) (t : Transform)
    (r : Ref) : (s.runCall cfg thresholds consume (.transform t r)).result =
      (t.run cfg (s.value r)).start.1.map .change :=
  congrArg Prod.fst (Op.run_bind_pure (t.run cfg (s.value r)) Effect.change {})

/-- After any run of operations, with any settings, a domain answers every change of dimensions of any
value: arguments that are not accepted are refused as invalid, and once they are accepted the result is
a well-formed value, or the change has met an empty value where it expected rows. -/
theorem dimension_changes_answered (domains : List Domain) (steps : List Step) (k : ℕ) (consume : Bool)
    {t : Transform} (kind : t.reshapes) (r : Ref) :
    let s := performAll { domains } steps
    let cfg := (s.domain k).config.settings
    let answer := s.perform k consume (.transform t r)
    (¬ t.Accepts (s.value r).space → ∃ e : Error, e.family = .invalidArgument ∧
      answer.1 = .error ⟨some t.operation, e⟩) ∧
    (t.Accepts (s.value r).space → ¬ t.Empties cfg (s.value r) →
      ∃ r', answer.1 = .ok (.object r') ∧ (answer.2.value r').WellFormed) ∧
    (t.Accepts (s.value r).space → t.Empties cfg (s.value r) →
      answer.1 = .error ⟨some t.operation, .fault .sort⟩) := by
  intro s cfg answer
  have sound : s.Sound := (sound_empty domains).performAll steps
  have result := s.transform_result cfg (s.domain k).config.thresholds
    (consume && (Call.transform t r).mayConsume) t r
  -- A failure of the change is the answer, whether the value is consumed or not.
  have fails : ∀ e, (t.run cfg (s.value r)).start.1 = .error e →
      answer.1 = .error ⟨some t.operation, e⟩ := by
    intro e error
    rw [error] at result
    exact congrArg (Except.mapError _) (settle_error result)
  refine ⟨fun refused => ?_, fun accepted rows => ?_, fun accepted empties => ?_⟩
  · obtain ⟨e, invalid, run⟩ := Transform.run_refuses cfg kind refused
    exact ⟨e, invalid, fails e (congrArg Prod.fst (run {}))⟩
  · obtain ⟨a, report, run, -⟩ :=
      (Transform.run_ends cfg (sound.value r) accepted).yields fun e h => rows h.2
    rw [run] at result
    obtain ⟨r', reply⟩ := settle_change (k := k) result
    exact ⟨r', congrArg (Except.mapError _) reply, (sound.perform k consume _).value r'⟩
  · have never := (Transform.run_ends cfg (sound.value r) accepted).mono (fun _ h => h.1)
      fun _ h => h.2 empties
    -- The change does not return here, so it fails, and only for the one cause it can have.
    obtain ⟨e, report, run, rfl⟩ := never.exists_error
    exact fails _ (congrArg Prod.fst run)

/-- A value over an integer and a real dimension, and the same with the dimensions exchanged, so that
the integer dimension takes the value `1/2`. -/
def turnedSample : List Step :=
  [⟨0, false, .build 1 1 (.ofBox [.list [.int 0, .int 5], .ratio (1 / 2)])⟩,
    ⟨0, false, .transform (.permute ⟨[1, 0], by decide⟩) 0⟩]

theorem dimension_changes_answered_sample :
    ∃ r', ((performAll { domains := [{}] } turnedSample).perform 0 true
        (.transform (.expand (.int 0) 2) 0)).1 = .ok (.object r') ∧
      (((performAll { domains := [{}] } turnedSample).perform 0 true
        (.transform (.expand (.int 0) 2) 0)).2.value r').WellFormed := by
  have value : (performAll { domains := [{}] } turnedSample).value 0 =
      ⟨⟨1, 1⟩, some ⟨[[1, 0], [0, 1]], [⟨.fin 0, .fin 5⟩, .point (1 / 2)], none⟩⟩ := by decide +kernel
  have answered := dimension_changes_answered [{}] turnedSample 0 true (t := .expand (.int 0) 2) rfl 0
  refine answered.2.1 ?_ ?_
  · rw [value]
    exact ⟨⟨0, by decide, rfl⟩, by decide⟩
  · rw [value]
    rintro ⟨-, -, empty⟩
    revert empty
    decide +kernel

/-- The exchanged value has rows, although no integer is `1/2`; expanding its first dimension, which is
accepted, fails. -/
theorem expanding_emptied_value_fails :
    Transform.Accepts ((performAll { domains := [{}] } turnedSample).value 1).space
      (.expand (.int 0) 1) ∧
    ((performAll { domains := [{}] } turnedSample).perform 0 false
      (.transform (.expand (.int 0) 1) 1)).1 = .error ⟨some .expand, .fault .sort⟩ := by
  constructor
  · have value : (performAll { domains := [{}] } turnedSample).value 1 =
        ⟨⟨1, 1⟩, some ⟨[[1, 0], [0, 1]], [.point (1 / 2), ⟨.fin 0, .fin 5⟩], none⟩⟩ := by decide +kernel
    rw [value]
    exact ⟨⟨0, by decide, rfl⟩, by decide⟩
  · decide +kernel

end Session

end SkewBox
