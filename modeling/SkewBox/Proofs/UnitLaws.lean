import SkewBox.Proofs.Exactness
import SkewBox.Proofs.Inclusion
import SkewBox.Proofs.Rounding
import SkewBox.Proofs.Sessions

/-!
# Order and unit laws

Asked for the range of one of its own rows, a value answers with the range of that row, whose ends
have been rounded outward.  So a value equals itself, as the tests see it, exactly when rounding keeps
all its ends, and it equals its intersection with the whole space when tightening keeps its ranges,
too.

* `Precision.Holds`: the ends that rounding keeps.
* `Session.unit_laws_decided`: when a value equals its copy, its union with the empty set and its
  intersection with the whole space.
-/

namespace SkewBox

/-! ## Numbers that rounding keeps -/

namespace Precision

variable {p : Precision}

/-- The bound is infinite or one of the numbers that the precision has. -/
def Holds (p : Precision) : Bound → Prop
  | .fin q => p = .binary64 → Binary64.OnGrid q
  | _ => True

theorem holds_round_down (p : Precision) (q : ℚ) : p.Holds (p.roundRat .down q) := by
  cases p with
  | exact => exact fun binary => by simp at binary
  | binary64 =>
    cases rounded : Binary64.roundDown q with
    | negInf => simp [roundRat, rounded, Holds]
    | posInf => simp [roundRat, rounded, Holds]
    | fin r =>
      rw [roundRat, rounded]
      exact fun _ => Binary64.onGrid_of_roundDown rounded

theorem Holds.neg {b : Bound} (h : p.Holds b) : p.Holds (-b) := by
  cases b with
  | negInf => trivial
  | posInf => trivial
  | fin q => exact fun grid => (h grid).neg

theorem holds_roundRat (p : Precision) (r : Rounding) (q : ℚ) : p.Holds (p.roundRat r q) := by
  cases r with
  | down => exact p.holds_round_down q
  | up =>
    rw [roundRat_up_eq]
    exact (p.holds_round_down (-q)).neg

theorem roundRat_of_holds {q : ℚ} (h : p.Holds (.fin q)) (r : Rounding) : p.roundRat r q = .fin q := by
  have down : ∀ q, p.Holds (.fin q) → p.roundRat .down q = .fin q := by
    intro q h
    cases p with
    | exact => rfl
    | binary64 => exact Binary64.roundDown_eq_self_iff.mpr (Binary64.onGrid_iff.mp (h rfl))
  cases r with
  | down => exact down q h
  | up => rw [roundRat_up_eq, down (-q) h.neg, Bound.neg_fin, neg_neg]

theorem holds_round (p : Precision) (r : Rounding) (b : Bound) : p.Holds (p.round r b) := by
  cases b with
  | negInf => trivial
  | posInf => trivial
  | fin q => exact p.holds_roundRat r q

theorem round_eq_self_iff {r : Rounding} {b : Bound} : p.round r b = b ↔ p.Holds b := by
  refine ⟨fun kept => kept ▸ p.holds_round r b, fun h => ?_⟩
  cases b with
  | negInf => rfl
  | posInf => rfl
  | fin q => exact roundRat_of_holds h r

theorem round_down_le (p : Precision) (b : Bound) : p.round .down b ≤ b := by
  cases b with
  | negInf => exact le_rfl
  | posInf => exact le_rfl
  | fin q => exact p.roundRat_down_le q

theorem le_round_up (p : Precision) (b : Bound) : b ≤ p.round .up b := by
  cases b with
  | negInf => exact le_rfl
  | posInf => exact le_rfl
  | fin q => exact p.le_roundRat_up q

theorem mul_fin_one (p : Precision) (r : Rounding) (b : Bound) : p.mul r (.fin 1) b = p.round r b := by
  cases b with
  | negInf => exact mul_fin_negInf p r one_pos
  | posInf => exact mul_fin_posInf p r one_pos
  | fin q => simp [mul, round]

/-- A single term with the coefficient one is rounded, and adding it to zero rounds no further. -/
theorem zero_add_one_mul (p : Precision) (r : Rounding) (b : Bound) :
    p.add r (.fin 0) (p.mul r (.fin 1) b) = p.round r b := by
  have holds := p.holds_round r b
  rw [mul_fin_one]
  cases rounded : p.round r b with
  | negInf => rfl
  | posInf => rfl
  | fin x =>
    rw [rounded] at holds
    rw [add, zero_add, roundRat_of_holds holds]

end Precision

/-- The interval with its ends rounded outward. -/
def Interval.outward (p : Precision) (I : Interval) : Interval :=
  ⟨p.round .down I.lo, p.round .up I.hi⟩

theorem Interval.outward_ordered {p : Precision} {I : Interval} (ordered : I.lo ≤ I.hi) :
    (I.outward p).lo ≤ (I.outward p).hi :=
  ((p.round_down_le _).trans ordered).trans (p.le_round_up _)

/-! ## A row over its own frame -/

theorem Precision.dot_unit (p : Precision) {n i : ℕ} (inside : i < n) {Is : List Interval}
    (length : Is.length = n) (ordered : ∀ I ∈ Is, I.lo ≤ I.hi) :
    p.dot (Vec.unit n i) Is = (Is.getD i .top).outward p := by
  have zeros : ∀ (n : ℕ) (Is : List Interval) (acc : Interval), ((Vec.zeros n).zip Is).foldl
      (fun acc term => if term.1 = 0 then acc else
        ⟨p.add .down acc.lo (term.2.scale p term.1).lo, p.add .up acc.hi (term.2.scale p term.1).hi⟩)
      acc = acc := by
    intro n Is acc
    induction n generalizing Is with
    | zero => rfl
    | succ n ih =>
      cases Is with
      | nil => rfl
      | cons I Is => simpa [Vec.zeros, List.replicate_succ] using ih Is
  unfold dot Vec.unit
  -- The entries before the one are skipped, and so are those behind it.
  induction i generalizing n Is with
  | zero =>
    obtain ⟨n, rfl⟩ := Nat.exists_eq_add_one_of_ne_zero (Nat.ne_of_gt inside)
    cases Is with
    | nil => simp at length
    | cons I Is =>
      have first : I.lo ≤ I.hi := ordered I (List.mem_cons_self ..)
      have rest := zeros n Is (I.outward p)
      simp only [Vec.zeros, List.replicate_succ, List.set_cons_zero, List.zip_cons_cons,
        List.foldl_cons, one_ne_zero, if_false, List.getD_cons_zero]
      rw [Interval.scale_of_pos one_pos first]
      simpa [Interval.zero, Interval.point, zero_add_one_mul, Interval.outward, Vec.zeros] using rest
  | succ i ih =>
    obtain ⟨n, rfl⟩ := Nat.exists_eq_add_one_of_ne_zero (Nat.ne_of_gt (Nat.zero_lt_of_lt inside))
    cases Is with
    | nil => simp at length
    | cons I Is =>
      have rest := ih (Nat.lt_of_succ_lt_succ inside) (Nat.succ.inj length) fun J hJ =>
        ordered J (List.mem_cons_of_mem _ hJ)
      simpa [Vec.zeros, List.replicate_succ] using rest

namespace Frame

variable {f : Frame} {n : ℕ} {cfg : Settings}

theorem Regular.eq_unit (regular : f.Regular n) {lam : Vec} (length : lam.length = n) {i : ℕ}
    (inside : i < n) (value : ∀ x : ℕ → ℚ, lam.eval (f.axes.image x) = f.axes.image x i) :
    lam = Vec.unit n i := by
  refine List.ext_getElem (by simp [length, Vec.unit, Vec.zeros]) fun j hj _ => ?_
  -- At a point where row `j` is one and every other row zero, the coefficients show entry `j`.
  obtain ⟨x, image⟩ := regular.exists_image fun t => if t = j then (1 : ℚ) else 0
  have entry : lam.getD j 0 = if i = j then 1 else 0 :=
    calc lam.getD j 0 = lam.eval fun t => if t = j then (1 : ℚ) else 0 := Vec.getD_eq_eval hj
      _ = lam.eval (f.axes.image x) := Vec.eval_congr fun t ht => (image t (length ▸ ht)).symm
      _ = f.axes.image x i := value x
      _ = if i = j then 1 else 0 := image i inside
  rw [List.getD_eq_getElem _ _ hj] at entry
  rw [entry]
  simp [Vec.unit, Vec.zeros, List.getElem_set]

theorem Regular.coords_row (regular : f.Regular n) {i : ℕ} (inside : i < n) :
    f.coords (f.axes.getD i []) = .ok (Vec.unit n i) := by
  obtain ⟨lam, found, coords⟩ := regular.exists_coords (f.axes.getD i [])
  have length : (f.axes.getD i []).length = n := regular.axes.shape.getD_length inside
  rw [found]
  exact congrArg _ (regular.eq_unit coords.length inside fun x =>
    coords.eval regular.axes.shape length x)

theorem Regular.boundDirection_row (cfg : Settings) (regular : f.Regular n) (ordered : f.Ordered)
    {i : ℕ} (inside : i < n) : f.boundDirection cfg (f.axes.getD i []) =
      .ok ((f.ranges.getD i .top).outward cfg.precision) := by
  rw [boundDirection, regular.coords_row inside, ok_bind,
    Precision.dot_unit _ inside regular.ranges ordered]
  rfl

end Frame

/-! ## Values with the same axes -/

namespace Interval

/-- Both ends are ones that the precision has. -/
def Held (p : Precision) (I : Interval) : Prop := p.Holds I.lo ∧ p.Holds I.hi

/-- After rounding outward the interval still lies in `J`. -/
def Fits (p : Precision) (I J : Interval) : Prop :=
  J.lo ≤ p.round .down I.lo ∧ p.round .up I.hi ≤ J.hi

variable {p : Precision} {I J : Interval}

theorem fits_of_isTop (free : J.isTop) : I.Fits p J := by
  simp only [isTop, Bool.and_eq_true, decide_eq_true_eq] at free
  simp [Fits, free]

theorem outward_leq_iff (hI : I.lo ≤ I.hi) (hJ : J.lo ≤ J.hi) :
    (I.outward p).leq J ↔ I.Fits p J := by
  have filled : (I.outward p).isBottom = false := isBottom_eq_false_iff.mpr (outward_ordered hI)
  simp only [leq, filled, isBottom_eq_false_iff.mpr hJ, Bool.false_or, Bool.not_false, Bool.true_and,
    Bool.and_eq_true, decide_eq_true_eq]
  rfl

/-- Two intervals fit in each other only if they are the same one and rounding keeps it. -/
theorem fits_antisymm_iff : I.Fits p J ∧ J.Fits p I ↔ I = J ∧ I.Held p := by
  constructor
  · rintro ⟨⟨low, high⟩, low', high'⟩
    have lo : I.lo = J.lo := le_antisymm (low'.trans (p.round_down_le _)) (low.trans (p.round_down_le _))
    have hi : I.hi = J.hi := le_antisymm ((p.le_round_up _).trans high) ((p.le_round_up _).trans high')
    rw [← lo] at low
    rw [← hi] at high
    have keptLo : p.round .down I.lo = I.lo := le_antisymm (p.round_down_le _) low
    have keptHi : p.round .up I.hi = I.hi := le_antisymm high (p.le_round_up _)
    refine ⟨?_, Precision.round_eq_self_iff.mp keptLo, Precision.round_eq_self_iff.mp keptHi⟩
    cases I
    cases J
    simp_all
  · rintro ⟨rfl, lo, hi⟩
    have fits : I.Fits p I :=
      ⟨(Precision.round_eq_self_iff.mpr lo).ge, (Precision.round_eq_self_iff.mpr hi).le⟩
    exact ⟨fits, fits⟩

theorem forall₂_fits_antisymm_iff {Is Js : List Interval} :
    List.Forall₂ (Fits p) Is Js ∧ List.Forall₂ (Fits p) Js Is ↔ Is = Js ∧ ∀ I ∈ Is, I.Held p := by
  induction Is generalizing Js with
  | nil => cases Js <;> simp
  | cons I Is ih =>
    cases Js with
    | nil => simp
    | cons J Js =>
      rw [List.forall₂_cons, List.forall₂_cons, and_and_and_comm, fits_antisymm_iff, ih,
        List.cons.injEq, List.forall_mem_cons]
      exact and_and_and_comm

end Interval

namespace Parallelotope

variable {cfg : Settings} {W : Parallelotope → Prop} {mayFail : Prop}

theorem insideRows_decides {f : Frame} {rows : List Vec} {Is Js : List Interval}
    (bounded : List.Forall₂ (fun row I => f.boundDirection cfg row = .ok (I.outward cfg.precision))
      rows Is) (hIs : ∀ I ∈ Is, I.lo ≤ I.hi) (length : Js.length = rows.length)
    (hJs : ∀ J ∈ Js, J.lo ≤ J.hi) :
    ∃ r, insideRows cfg f (rows.zip Js) = .ok r ∧
      (r = true ↔ List.Forall₂ (Interval.Fits cfg.precision) Is Js) := by
  induction bounded generalizing Js with
  | nil =>
    obtain rfl := List.length_eq_zero_iff.mp length
    exact ⟨true, rfl, by simp⟩
  | @cons row I rows Is first rest ih =>
    cases Js with
    | nil => simp at length
    | cons J Js =>
      obtain ⟨hI, hIs⟩ := List.forall_mem_cons.mp hIs
      obtain ⟨hJ, hJs⟩ := List.forall_mem_cons.mp hJs
      obtain ⟨r, run, decides⟩ := ih hIs (by simpa using length) hJs
      rw [List.zip_cons_cons, insideRows, List.forall₂_cons]
      -- A row without restriction is not bounded at all, and whatever is there fits.
      by_cases free : J.isTop
      · exact ⟨r, by rw [if_pos free, run], by simp [decides, Interval.fits_of_isTop free]⟩
      · rw [if_neg free, first, ok_bind]
        by_cases fits : I.Fits cfg.precision J
        · exact ⟨r, by rw [if_pos ((Interval.outward_leq_iff hI hJ).mpr fits), run],
            by simp [decides, fits]⟩
        · exact ⟨false, by rw [if_neg (mt (Interval.outward_leq_iff hI hJ).mp fits)]; rfl,
            by simp [fits]⟩

variable {s : Space} {f g : Frame}

theorem leq_decides (hf : f.Regular s.size) (hf' : f.Ordered) (hg : g.Regular s.size)
    (hg' : g.Ordered) (same : f.axes = g.axes) :
    Op.Meets W W mayFail (leq cfg ⟨s, some f⟩ ⟨s, some g⟩) fun r =>
      r = true ↔ List.Forall₂ (Interval.Fits cfg.precision) f.ranges g.ranges := by
  unfold leq
  refine (Op.meets_lift_ok (P := fun _ => True) (if_pos rfl) trivial).bind fun _ _ => ?_
  dsimp only
  split
  · -- The test for a free frame comes first; there every range fits.
    rename_i free
    refine Op.meets_pure (iff_of_true rfl ?_)
    refine List.forall₂_iff_get.mpr ⟨hf.ranges.trans hg.ranges.symm, fun i _ hi => ?_⟩
    exact Interval.fits_of_isTop (List.all_eq_true.mp free _ (List.get_mem ..))
  · refine (Op.invert_meets hf).bind ?_
    rintro _ ⟨w, regular, rfl⟩
    -- Over the same rows the bound of a row is its own range, rounded outward.
    have bounded : List.Forall₂ (fun row I => Frame.boundDirection cfg { f with inverse? := some w } row =
        .ok (I.outward cfg.precision)) f.axes f.ranges := by
      refine List.forall₂_iff_get.mpr ⟨hf.same.symm, fun i hi hi' => ?_⟩
      have row := regular.boundDirection_row cfg hf' (hf.axes.shape.length ▸ hi)
      simpa [List.getD_eq_getElem, hi, hi'] using row
    obtain ⟨r, run, decides⟩ := insideRows_decides bounded hf'
      (show g.ranges.length = f.axes.length by rw [same, hg.same]) hg'
    refine Op.meets_lift_ok ?_ decides
    rw [Frame.rows, ← same]
    exact run

theorem equal_decides (cfg : Settings) (hf : f.Regular s.size) (hf' : f.Ordered) (hg : g.Regular s.size)
    (hg' : g.Ordered) (same : f.axes = g.axes) :
    (equal cfg ⟨s, some f⟩ ⟨s, some g⟩).Yields fun r =>
      r = true ↔ f.ranges = g.ranges ∧ ∀ I ∈ f.ranges, I.Held cfg.precision := by
  have decides : Op.Meets (fun _ => True) (fun _ => True) False (equal cfg ⟨s, some f⟩ ⟨s, some g⟩)
      fun r => r = true ↔ f.ranges = g.ranges ∧ ∀ I ∈ f.ranges, I.Held cfg.precision := by
    unfold equal
    rw [← Interval.forall₂_fits_antisymm_iff]
    refine (leq_decides hf hf' hg hg' same).bind fun r forward => ?_
    cases r with
    | false => exact Op.meets_pure (by simp [← forward])
    | true =>
      refine (Op.about_meets (leq_decides hg hg' hf hf' same.symm)).imp fun r backward => ?_
      rw [backward, and_iff_right (forward.mp rfl)]
  exact decides.yields

end Parallelotope

/-! ## Intersection with the whole space -/

theorem Space.integral_unit (s : Space) {n d : ℕ} (inside : d < n) :
    s.integral (Vec.unit n d) = s.isInt d := by
  have entry : ∀ (c : ℚ) (j : ℕ), (Vec.unit n d)[j]? = some c ↔
      j < n ∧ (if d = j then (1 : ℚ) else 0) = c := by
    intro c j
    rw [List.getElem?_eq_some_iff]
    simp [Vec.unit, Vec.zeros, List.getElem_set]
  rw [Bool.eq_iff_iff, integral, List.all_eq_true]
  simp only [Prod.forall, List.mem_zipIdx_iff_getElem?, entry]
  constructor
  · intro all
    simpa using all 1 d ⟨inside, if_pos rfl⟩
  · rintro whole c j ⟨-, value⟩
    by_cases same : d = j
    · rw [if_pos same] at value
      simp [← value, ← same, whole]
    · rw [if_neg same] at value
      simp [← value]

/-- The bound is infinite or an integer. -/
def Bound.IsWhole (b : Bound) : Prop := ∀ q, b = .fin q → q.den = 1

theorem round_eq_self_iff_den {round : ℚ → ℤ} (keeps : ∀ z : ℤ, round z = z) {q : ℚ} :
    (round q : ℚ) = q ↔ q.den = 1 := by
  constructor
  · intro kept
    rw [← kept, Rat.den_intCast]
  · intro whole
    rw [← Rat.coe_int_num_of_den_eq_one whole, keeps]

theorem Bound.ceil_eq_self_iff {b : Bound} : b.ceil = b ↔ b.IsWhole := by
  cases b <;> simp [ceil, IsWhole, round_eq_self_iff_den Rat.ceil_intCast]

theorem Bound.floor_eq_self_iff {b : Bound} : b.floor = b ↔ b.IsWhole := by
  cases b <;> simp [floor, IsWhole, round_eq_self_iff_den Rat.floor_intCast]

theorem Interval.tighten_eq_self_iff {I : Interval} :
    I.tighten = I ↔ I.lo.IsWhole ∧ I.hi.IsWhole := by
  rw [← Bound.ceil_eq_self_iff, ← Bound.floor_eq_self_iff]
  obtain ⟨lo, hi⟩ := I
  simp [tighten]

theorem Interval.meet_top {I : Interval} (ordered : I.lo ≤ I.hi) : I.meet .top = I := by
  have lo : max I.lo .negInf = I.lo := max_eq_left (Bound.negInf_le _)
  have hi : min I.hi .posInf = I.hi := min_eq_left (Bound.le_posInf _)
  simp only [meet, top, lo, hi]
  exact if_neg (not_lt.mpr ordered)

namespace Frame

variable {cfg : Settings} {s : Space} {f : Frame} {mayFail : Prop}

theorem tightenAll_eq_self_iff {rows : List Vec} {Is : List Interval} (length : Is.length = rows.length)
    (ordered : ∀ I ∈ Is, I.lo ≤ I.hi) :
    tightenAll cfg s rows Is = (Is, false) ↔ ∀ d ∈ rows.zip Is, tighten cfg s d.1 d.2 = d.2 := by
  induction rows generalizing Is with
  | nil => simp [tightenAll]
  | cons row rows ih =>
    cases Is with
    | nil => simp at length
    | cons I Is =>
      obtain ⟨first, rest⟩ := List.forall_mem_cons.mp ordered
      have ih := ih (by simpa using length) rest
      rw [List.zip_cons_cons, List.forall_mem_cons, ← ih]
      simp only [tightenAll]
      constructor
      · intro same
        -- An emptied range would be reported, which the equation excludes.
        split at same
        · simp at same
        · simp only [Prod.mk.injEq, List.cons.injEq] at same
          exact ⟨same.1.1, Prod.ext same.1.2 same.2⟩
      · rintro ⟨kept, same⟩
        rw [kept, Interval.isBottom_eq_false_iff.mpr first, same]
        rfl

theorem Regular.mem_rows_iff (regular : f.Regular s.size) (dimensions : f.axes = .identity s.size)
    {d : Direction} : d ∈ f.rows ↔ ∃ i I, f.ranges[i]? = some I ∧ d = (Vec.unit s.size i, I) := by
  obtain ⟨r, J⟩ := d
  have inside : ∀ {i I}, f.ranges[i]? = some I → i < s.size := fun found =>
    regular.ranges ▸ (List.getElem?_eq_some_iff.mp found).1
  simp only [rows, dimensions, List.mem_iff_getElem?, List.getElem?_zip_eq_some, Prod.mk.injEq]
  refine exists_congr fun i => ⟨?_, ?_⟩
  · rintro ⟨row, found⟩
    refine ⟨J, found, ?_, rfl⟩
    simpa [Mat.identity, inside found, eq_comm] using row
  · rintro ⟨I, found, rfl, rfl⟩
    exact ⟨by simp [Mat.identity, inside found], found⟩

theorem Regular.tighten_unit (regular : f.Regular s.size) (ordered : f.Ordered) {i : ℕ} {I : Interval}
    (found : f.ranges[i]? = some I) : tighten cfg s (Vec.unit s.size i) I =
      if cfg.tightenIntegers ∧ i < s.ints then I.tighten else I := by
  obtain ⟨hi, rfl⟩ := List.getElem?_eq_some_iff.mp found
  have filled := Interval.isBottom_eq_false_iff.mpr (ordered _ (List.getElem_mem hi))
  rw [tighten, s.integral_unit (regular.ranges ▸ hi), filled]
  by_cases whole : i < s.ints
  · simp [Space.isInt, whole, Nat.zero_lt_of_lt whole]
  · simp [Space.isInt, whole]

theorem normalize_eq_self_iff (regular : f.Regular s.size) (ordered : f.Ordered) :
    f.normalize cfg s = ⟨f, false⟩ ↔ ∀ d ∈ f.rows, tighten cfg s d.1 d.2 = d.2 := by
  rw [rows, ← tightenAll_eq_self_iff regular.same ordered]
  obtain ⟨axes, ranges, inverse⟩ := f
  simp [normalize, Prod.ext_iff]

theorem Regular.normalize_of_real (regular : f.Regular s.size) (ordered : f.Ordered)
    (real : s.ints = 0) : f.normalize cfg s = ⟨f, false⟩ := by
  apply (normalize_eq_self_iff regular ordered).mpr
  intro d _
  simp [tighten, real]

theorem meetAll_top (f : Frame) {rows : List Direction} (free : ∀ d ∈ rows, d.2 = .top) :
    Op.Meets (fun _ => True) (fun _ => True) mayFail (meetAll cfg s rows f) (· = ⟨f, false⟩) := by
  induction rows with
  | nil => exact Op.meets_pure rfl
  | cons d rows ih =>
    obtain ⟨r, I⟩ := d
    obtain ⟨first, rest⟩ := List.forall_mem_cons.mp free
    obtain rfl : I = .top := first
    have step : f.meetDirection cfg s r .top = pure ⟨f, false⟩ := rfl
    rw [meetAll, step]
    refine (Op.meets_pure (P := (· = ⟨f, false⟩)) rfl).bind ?_
    rintro _ rfl
    exact (Op.write_meets trivial).bind fun _ _ => ih rest

theorem meet_top_meets (regular : f.Regular s.size) (ordered : f.Ordered) :
    Op.Meets (fun _ => True) (fun _ => True) mayFail (f.meet cfg s (.top s.size)) fun c =>
      c = if f.axes = .identity s.size then f.normalize cfg s else ⟨f, false⟩ := by
  unfold meet
  split
  · rename_i same
    have same' : f.axes = .identity s.size := same
    have ranges : List.zipWith Interval.meet f.ranges (Frame.top s.size).ranges = f.ranges := by
      refine List.ext_getElem (by simp [top, regular.ranges]) fun i hi hi' => ?_
      rw [List.getElem_zipWith]
      simp only [top, List.getElem_replicate]
      exact Interval.meet_top (ordered _ (List.getElem_mem hi'))
    rw [ranges]
    refine (Op.refit_meets (P := fun _ => True) trivial trivial).bind fun _ _ => ?_
    exact Op.meets_pure (by rw [if_pos same'])
  · rename_i other
    have other' : ¬ f.axes = .identity s.size := other
    rw [if_neg other']
    refine meetAll_top f fun d hd => ?_
    exact List.eq_of_mem_replicate (List.of_mem_zip hd).2

end Frame

namespace Parallelotope

variable {cfg : Settings} {W : Parallelotope → Prop} {mayFail : Prop}

/-! ## The laws -/

/-- Every end of a range is one that the precision has. -/
def Held (a : Parallelotope) (p : Precision) : Prop :=
  ∀ f, a.frame? = some f → ∀ I ∈ f.ranges, I.Held p

/-- Where the axes are the dimensions, and integers are tightened, the ranges of the integer
dimensions have integers or infinities as ends. -/
def Settled (cfg : Settings) (a : Parallelotope) : Prop :=
  cfg.tightenIntegers = true → ∀ f, a.frame? = some f → f.axes = .identity a.space.size →
    ∀ d < a.space.ints, ∀ I, f.ranges[d]? = some I → I.lo.IsWhole ∧ I.hi.IsWhole

theorem equal_self {a : Parallelotope} (ha : a.WellFormed) :
    (a.equal cfg a).Yields fun yes => yes = true ↔ a.Held cfg.precision := by
  obtain ⟨s, _ | f⟩ := a
  · have held : Held ⟨s, none⟩ cfg.precision := by simp [Held]
    simp only [equal, leq, checkSpace, if_true]
    exact ⟨true, _, rfl, iff_of_true rfl held⟩
  · obtain ⟨regular, ordered⟩ := ha f rfl
    obtain ⟨yes, report, run, decides⟩ := equal_decides cfg regular (ordered trivial) regular
      (ordered trivial) rfl
    refine ⟨yes, report, run, decides.trans ?_⟩
    simp [Held]

theorem equal_bottom (cfg : Settings) (s : Space) (f : Frame) :
    (equal cfg (bottom s) ⟨s, some f⟩).Yields (· = false) := by
  simp only [equal, leq, bottom, checkSpace, if_true]
  exact ⟨false, _, rfl, rfl⟩

theorem settled_iff {s : Space} {f : Frame} (regular : f.Regular s.size) (ordered : f.Ordered)
    (dimensions : f.axes = .identity s.size) :
    Settled cfg ⟨s, some f⟩ ↔ ∀ d ∈ f.rows, Frame.tighten cfg s d.1 d.2 = d.2 := by
  constructor
  · intro settled d hd
    obtain ⟨i, I, found, rfl⟩ := (regular.mem_rows_iff dimensions).mp hd
    rw [regular.tighten_unit ordered found]
    split
    · rename_i whole
      exact Interval.tighten_eq_self_iff.mpr (settled whole.1 f rfl dimensions i whole.2 I found)
    · rfl
  · intro kept whole g hg _ i hi I found
    obtain rfl := Option.some.inj hg
    have row := kept _ ((regular.mem_rows_iff dimensions).mpr ⟨i, I, found, rfl⟩)
    rwa [regular.tighten_unit ordered found, if_pos ⟨whole, hi⟩, Interval.tighten_eq_self_iff] at row

/-- The intersection with the whole space is the value itself if that is settled; otherwise it is
empty, or a value with other ranges for the same axes. -/
theorem meet_top_meets {s : Space} {f : Frame} (regular : f.Regular s.size) (ordered : f.Ordered) :
    Op.Meets (fun _ => True) (fun _ => True) mayFail (meet cfg ⟨s, some f⟩ (top s)) fun b =>
      b = ⟨s, some f⟩ ∧ Settled cfg ⟨s, some f⟩ ∨
      ¬ Settled cfg ⟨s, some f⟩ ∧ (b = bottom s ∨ ∃ g : Frame, b = ⟨s, some g⟩ ∧ g.Regular s.size ∧
        g.Ordered ∧ g.axes = f.axes ∧ g.ranges ≠ f.ranges) := by
  unfold meet
  refine (Op.meets_lift_ok (P := fun _ => True) (if_pos rfl) trivial).bind fun _ _ => ?_
  refine (Frame.meet_top_meets regular ordered).bind ?_
  rintro c rfl
  refine Op.put_meets trivial ?_
  -- Only a value whose rows are the dimensions is normalised; any other comes back as it is.
  split
  · rename_i dimensions
    rw [settled_iff regular ordered dimensions, ← Frame.normalize_eq_self_iff regular ordered]
    by_cases kept : f.normalize cfg s = ⟨f, false⟩
    · exact .inl ⟨by rw [kept]; rfl, kept⟩
    · refine .inr ⟨kept, ?_⟩
      cases empty : (f.normalize cfg s).empty with
      | true => exact .inl (by simp [Cut.toParallelotope, empty, bottom])
      | false =>
        obtain ⟨regular', ordered'⟩ := regular.normalize True empty
        refine .inr ⟨_, by simp [Cut.toParallelotope, empty], regular', ordered' trivial, rfl, ?_⟩
        refine fun same => kept ?_
        have cut : f.normalize cfg s =
          ⟨{ f with ranges := (f.normalize cfg s).frame.ranges }, (f.normalize cfg s).empty⟩ := rfl
        rw [cut, same, empty]
  · rename_i other
    exact .inl ⟨rfl, fun _ g hg dimensions => absurd (Option.some.inj hg ▸ dimensions) other⟩

theorem meet_top_equal {a : Parallelotope} (ha : a.WellFormed) :
    (a.meet cfg (top a.space)).Yields fun b =>
      (b.equal cfg a).Yields fun yes => yes = true ↔ a.Held cfg.precision ∧ a.Settled cfg := by
  obtain ⟨s, _ | f⟩ := a
  · have settled : Settled cfg ⟨s, none⟩ := by simp [Settled]
    simp only [meet, checkSpace, top, if_true, and_iff_left settled]
    exact ⟨⟨s, none⟩, _, rfl, equal_self ha⟩
  · obtain ⟨regular, ordered⟩ := ha f rfl
    obtain ⟨b, report, run, result⟩ := (meet_top_meets regular (ordered trivial)).yields
    refine ⟨b, report, run, ?_⟩
    rcases result with ⟨rfl, settled⟩ | ⟨unsettled, rfl | ⟨g, rfl, regular', ordered', same, other⟩⟩
    · simp only [and_iff_left settled]
      exact equal_self ha
    · obtain ⟨yes, report, run, no⟩ := equal_bottom cfg s f
      exact ⟨yes, report, run, by simp [no, unsettled]⟩
    · obtain ⟨yes, report, run, decides⟩ := equal_decides cfg regular' ordered' regular
        (ordered trivial) same
      exact ⟨yes, report, run, by simp [decides, other, unsettled]⟩

end Parallelotope

namespace Session

open Parallelotope

/-- For every value of a run, and whatever the settings are, the empty set lies in it and it lies in
the whole space.  It equals its copy, and its union with the empty set, exactly if its ends are
numbers of the precision, which holds always without rounding; it equals its intersection with the
whole space if, in addition, tightening has nothing to do on the ranges of its integer dimensions. -/
theorem unit_laws_decided (domains : List Domain) (steps : List Step) (r : Ref) (cfg : Settings) :
    let s := performAll { domains } steps
    let a := s.value r
    ((bottom a.space).leq cfg a).Yields (· = true) ∧
    (a.leq cfg (top a.space)).Yields (· = true) ∧
    (Call.run cfg [] s.operands false (.copy r)).Yields (fun e => ∃ b, e = .create b none ∧
      (a.equal cfg b).Yields fun yes => yes = true ↔ a.Held cfg.precision) ∧
    (a.join cfg (bottom a.space)).Yields (fun b =>
      (b.equal cfg a).Yields fun yes => yes = true ↔ a.Held cfg.precision) ∧
    (a.meet cfg (top a.space)).Yields (fun b =>
      (b.equal cfg a).Yields fun yes => yes = true ↔ a.Held cfg.precision ∧ a.Settled cfg) := by
  intro s a
  have ha : a.WellFormed := ((sound_empty domains).performAll steps).value r
  refine ⟨?_, ?_, ⟨_, _, rfl, a, rfl, equal_self ha⟩, ?_, meet_top_equal ha⟩
  · simp only [leq, bottom, checkSpace, if_true]
    exact ⟨true, _, rfl, rfl⟩
  · simp only [leq, top, checkSpace, if_true]
    cases a.frame? with
    | none => exact ⟨true, _, rfl, rfl⟩
    | some f =>
      have free : (Frame.top a.space.size).isTop = true := by
        simp [Frame.isTop, Frame.top, Interval.isTop, Interval.top]
      simp only [free]
      exact ⟨true, _, rfl, rfl⟩
  · simp only [join, joinAt, bottom, checkSpace, if_true]
    cases frame : a.frame? with
    | none => exact ⟨a, _, rfl, equal_self ha⟩
    | some f => exact ⟨a, _, rfl, equal_self ha⟩

/-- The point `1/3` in one real dimension, a copy of it, its union with the empty set and its
intersection with the whole space. -/
def thirdSample : List Step :=
  [⟨0, false, .build 0 1 (.ofBox [.ratio (1 / 3)])⟩, ⟨0, false, .copy 0⟩,
    ⟨0, false, .build 0 1 .bottom⟩, ⟨0, false, .build 0 1 .top⟩,
    ⟨0, false, .combine .join 0 2⟩, ⟨0, false, .combine .meet 0 3⟩]

/-- A box over an integer and a real dimension, the box with the two exchanged, and the intersection of
that with the whole space. -/
def exchangedSample : List Step :=
  [⟨0, false, .build 1 1 (.ofBox [.list [.int 0, .int 1], .list [.ratio (1 / 2), .ratio (3 / 2)]])⟩,
    ⟨0, false, .transform (.permute ⟨[1, 0], .swap 0 1 []⟩) 0⟩, ⟨0, false, .build 1 1 .top⟩,
    ⟨0, false, .combine .meet 1 2⟩]

/-- The point `1/3`, which binary64 does not have, differs from its copy, from its union with the
empty set and from its intersection with the whole space; without rounding a value whose integer
dimension ranges from `1/2` to `3/2` differs from its intersection with the whole space. -/
theorem unit_laws_fail :
    let third := performAll { domains := [{ config := { numbers := .binary64 } }] } thirdSample
    let exchanged := performAll { domains := [{}] } exchangedSample
    ((third.value 0).equal (third.domain 0).config.settings (third.value 1)).start.1 = .ok false ∧
    ((third.value 4).equal (third.domain 0).config.settings (third.value 0)).start.1 = .ok false ∧
    ((third.value 5).equal (third.domain 0).config.settings (third.value 0)).start.1 = .ok false ∧
    ((exchanged.value 3).equal (exchanged.domain 0).config.settings (exchanged.value 1)).start.1 =
      .ok false := by
  decide +kernel

end Session

end SkewBox
