import SkewBox.Proofs.Meet
import SkewBox.Proofs.Support

/-!
# Intersections that lose nothing

An operation that finishes with the mark of exactness still set has lost nothing on the way.  The
mark is only ever removed, so it suffices to follow the steps that leave it alone.  What they do is
described for values over real dimensions whose ranges hold a rational each, without rounding.

* `Op.Lossless`: what a computation returns if it leaves the mark set, with one rule for each way to
  compose.
* `Frame.Solid`, `Parallelotope.Solid`: the values for which the mark is meant.
* `Cut.Denotes`, `Parallelotope.Denotes`: results with exactly the points that are asked for.
* `Frame.meetDirection_lossless`, `meetAll_lossless`, `Parallelotope.meet_lossless`, …: intersection.
-/

namespace SkewBox

/-! ## The mark of exactness -/

namespace Op

variable {α β : Type}

/-- If the computation ends with the mark of exactness set, it was set before, and a result has
`P`. -/
def Lossless (x : Op α) (P : α → Prop) : Prop :=
  ∀ r : Report, (x r).2.exact = true → r.exact = true ∧ ∀ a, (x r).1 = .ok a → P a

variable {x : Op α} {f : α → Op β} {P : α → Prop} {Q : β → Prop}

theorem lossless_pure {a : α} (h : P a) : Lossless (pure a) P :=
  fun _ exact => ⟨exact, fun _ eq => Except.ok.inj eq ▸ h⟩

theorem lossless_throw (e : Error) : Lossless (throw e : Op α) P :=
  fun _ exact => ⟨exact, nofun⟩

theorem lossless_throw_bind (e : Error) : Lossless ((throw e : Op α) >>= f) Q :=
  fun _ exact => ⟨exact, nofun⟩

/-- Two steps in turn.  The second leaves the mark alone whatever the first returns, so that what is
known of the first may only be used for the result. -/
theorem Lossless.bind (hx : Lossless x P) (hf : ∀ a, Lossless (f a) fun b => P a → Q b) :
    Lossless (x >>= f) Q := by
  intro r
  rw [run_bind]
  cases result : (x r).1 with
  | error e => exact fun exact => ⟨(hx r exact).1, nofun⟩
  | ok a =>
    intro exact
    obtain ⟨between, second⟩ := hf a (x r).2 exact
    obtain ⟨before, first⟩ := hx r between
    exact ⟨before, fun b eq => second b eq (first a result)⟩

theorem Lossless.imp {P' : α → Prop} (hx : Lossless x P) (h : ∀ a, P a → P' a) : Lossless x P' :=
  fun r exact => ⟨(hx r exact).1, fun a eq => h a ((hx r exact).2 a eq)⟩

/-- What is known of any result of a computation is known where the mark stays set. -/
theorem Lossless.of_meets {H : Prop} {W' : Parallelotope → Prop} (hx : Lossless x fun _ => True)
    (h : H → Meets (fun _ => True) W' True x P) : Lossless x fun a => H → P a := by
  refine fun r exact => ⟨(hx r exact).1, fun a eq given => ?_⟩
  obtain ⟨-, outcome⟩ := h given r fun _ _ => trivial
  rwa [eq] at outcome

theorem lossless_lift (y : Except Error α) : Lossless (liftM y : Op α) fun a => y = .ok a := by
  intro r exact
  cases y with
  | ok a => exact ⟨exact, fun _ eq => congrArg _ (Except.ok.inj eq)⟩
  | error e => exact ⟨exact, nofun⟩

theorem lossless_foldlM {γ : Type} (Inv : List γ → α → Prop) {step : α → γ → Op α} (items : List γ)
    (start : α)
    (next : ∀ done item a, Lossless (step a item) fun b => Inv done a → Inv (done ++ [item]) b) :
    Lossless (items.foldlM step start) fun b => Inv [] start → Inv items b := by
  -- The induction is on what is left; what is done grows at its end.
  suffices general : ∀ (done rest : List γ) (a : α),
      Lossless (rest.foldlM step a) fun b => Inv done a → Inv (done ++ rest) b from
    general [] items start
  intro done rest
  induction rest generalizing done with
  | nil =>
    intro a
    rw [List.append_nil]
    exact lossless_pure id
  | cons item rest ih =>
    intro a
    rw [List.foldlM_cons]
    refine (next done item a).bind fun b => (ih (done ++ [item]) b).imp fun c later first start => ?_
    rw [List.append_cons]
    exact later (first start)

theorem lossless_mapM {γ : Type} {R : γ → α → Prop} {step : γ → Op α} (items : List γ)
    (each : ∀ item, Lossless (step item) (R item)) :
    Lossless (items.mapM step) fun results => List.Forall₂ R items results := by
  induction items with
  | nil => exact lossless_pure .nil
  | cons item items ih =>
    rw [List.mapM_cons]
    exact (each item).bind fun a => ih.bind fun as => lossless_pure fun rest first => .cons first rest

theorem lossless_forM {γ : Type} {R : γ → Prop} {step : γ → Op PUnit} (items : List γ)
    (each : ∀ item, Lossless (step item) fun _ => R item) :
    Lossless (items.forM step) fun _ => ∀ item ∈ items, R item := by
  induction items with
  | nil => exact lossless_pure (by simp)
  | cons item items ih =>
    refine (each item).bind fun _ => ih.imp fun _ rest first => ?_
    exact List.forall_mem_cons.mpr ⟨first, rest⟩

/-! ### Primitive operations -/

theorem inexact_lossless : Lossless inexact fun _ => False :=
  fun _ exact => absurd exact Bool.false_ne_true

theorem get_lossless : Lossless (get : Op Report) fun _ => True :=
  fun _ exact => ⟨exact, fun _ _ => trivial⟩

theorem write_lossless (s : Space) (c : Cut) : Lossless (write s c) fun _ => True :=
  fun _ exact => ⟨exact, fun _ _ => trivial⟩

theorem put_lossless {P : Parallelotope → Prop} {s : Space} {c : Cut} (h : P (c.toParallelotope s)) :
    Lossless (put s c) P :=
  fun _ exact => ⟨exact, fun _ eq => Except.ok.inj eq ▸ h⟩

theorem refit_lossless {P : Parallelotope → Prop} {s : Space} {f : Frame} (h : P ⟨s, some f⟩) :
    Lossless (refit s f) P :=
  fun _ exact => ⟨exact, fun _ eq => Except.ok.inj eq ▸ h⟩

theorem move_lossless {P : Parallelotope → Prop} {a : Parallelotope} (h : P a) : Lossless (move a) P :=
  fun _ exact => ⟨exact, fun _ eq => Except.ok.inj eq ▸ h⟩

theorem move_bind_lossless {a : Parallelotope} {f : Parallelotope → Op β} (h : Lossless (f a) Q) :
    Lossless (move a >>= f) Q :=
  fun r => h { r with asked := false, left := some a, stored := r.stored.abandon }

theorem invert_lossless (f : Frame) : Lossless (invert f) fun g => f.remember = .ok g := by
  refine (lossless_lift f.remember).bind fun g => ?_
  have asked : Lossless (modify fun r : Report => { r with asked := true } : Op Unit) fun _ => True :=
    fun _ exact => ⟨exact, fun _ _ => trivial⟩
  exact asked.bind fun _ => lossless_pure fun _ => id

theorem about_lossless {k : ℕ} (hx : Lossless x P) : Lossless (about k x) P :=
  fun r exact => hx { r with asked := false } exact

theorem aside_lossless (hx : Lossless x P) : Lossless (aside x) P :=
  fun r exact => hx { exact := r.exact } exact

theorem scratch_lossless (x : Op α) : Lossless (scratch x) fun _ => True :=
  fun _ exact => ⟨exact, fun _ _ => trivial⟩

/-! ### Exact results -/

/-- A result that is returned from the start with the mark set has `P`. -/
def Exactly (x : Op α) (P : α → Prop) : Prop :=
  ∀ a report, x.start = (.ok a, report) → report.exact = true → P a

theorem Lossless.exactly (hx : Lossless x P) : x.Exactly P := by
  intro a report run exact
  have mark : (x {}).2.exact = true := by
    rw [show x {} = _ from run]
    exact exact
  exact (hx {} mark).2 a (congrArg Prod.fst run)

theorem Exactly.exists_marked (hx : x.Exactly P) (marked : x.start.1.toBool && x.start.2.exact) :
    ∃ a report, x.start = (.ok a, report) ∧ report.exact = true ∧ P a := by
  obtain ⟨ok, exact⟩ := Bool.and_eq_true_iff.mp marked
  obtain ⟨a, report, run⟩ := exists_start_eq ok
  rw [run] at exact
  exact ⟨a, report, run, exact, hx a report run exact⟩

end Op

/-! ## Values -/

/-- The interval is empty or holds a rational: no infinity stands alone. -/
def Interval.Proper (I : Interval) : Prop := I.lo ≤ I.hi → I.Filled

namespace Interval

variable {I J : Interval}

instance : DecidablePred Proper := fun I => inferInstanceAs (Decidable (I.lo ≤ I.hi → I.Filled))

theorem Filled.proper (h : I.Filled) : I.Proper := fun _ => h

theorem Proper.scale (h : I.Proper) (c : ℚ) : (I.scale .exact c).Proper := by
  by_cases ordered : I.lo ≤ I.hi
  · exact (h ordered).scale.proper
  · have empty : I.isBottom = true := by simpa [← isBottom_eq_false_iff] using ordered
    simpa only [Interval.scale, empty, if_true] using h

theorem Proper.meet (hI : I.Proper) (hJ : J.Proper) : (I.meet J).Proper := by
  by_cases disjoint : min I.hi J.hi < max I.lo J.lo
  · simp only [Interval.meet, if_pos disjoint]
    exact fun ordered => absurd ordered (by decide)
  · simp only [Interval.meet, if_neg disjoint]
    intro ordered
    have low := (filled_iff.mp (hI ((le_max_left ..).trans (ordered.trans (min_le_left ..))))).2
    have high := (filled_iff.mp (hJ ((le_max_right ..).trans (ordered.trans (min_le_right ..))))).2
    refine filled_iff.mpr ⟨ordered, ?_, ?_⟩
    · cases max_choice I.lo J.lo with
      | inl left => exact fun same => low.1 (left.symm.trans same)
      | inr right => exact fun same => high.1 (right.symm.trans same)
    · cases min_choice I.hi J.hi with
      | inl left => exact fun same => low.2 (left.symm.trans same)
      | inr right => exact fun same => high.2 (right.symm.trans same)

variable {K : Type*} [Field K] [LinearOrder K] [IsStrictOrderedRing K] {u : K}

/-- Above the lower end of an interval stand the numbers from which its members are reached by going
down. -/
theorem below_iff_exists (filled : I.Filled) :
    I.lo.Below u ↔ ∃ t : K, 0 ≤ t ∧ I.Has (u - t) := by
  obtain ⟨m, hm⟩ := filled.exists_has (K := K)
  constructor
  · intro low
    cases le_total u m with
    | inl le => exact ⟨0, le_rfl, by simpa using ⟨low, hm.2.trans_ge le⟩⟩
    | inr ge => exact ⟨u - m, sub_nonneg.mpr ge, by rwa [sub_sub_cancel]⟩
  · rintro ⟨t, nonneg, has⟩
    exact has.1.trans_le (sub_le_self u nonneg)

theorem above_iff_exists (filled : I.Filled) :
    I.hi.Above u ↔ ∃ t : K, 0 ≤ t ∧ I.Has (u + t) := by
  obtain ⟨m, hm⟩ := filled.exists_has (K := K)
  constructor
  · intro high
    cases le_total u m with
    | inl le => exact ⟨m - u, sub_nonneg.mpr le, by rwa [add_sub_cancel]⟩
    | inr ge => exact ⟨0, le_rfl, by simpa using ⟨hm.1.trans_le ge, high⟩⟩
  · rintro ⟨t, nonneg, has⟩
    exact has.2.trans_ge (le_add_of_nonneg_right nonneg)

end Interval

/-- A regular frame over real dimensions whose ranges hold a rational each. -/
structure Frame.Solid (f : Frame) (s : Space) : Prop where
  real : s.ints = 0
  regular : f.Regular s.size
  filled : f.Filled

/-- The frame of the value, unless it is empty, is solid. -/
def Parallelotope.Solid (a : Parallelotope) : Prop := ∀ f, a.frame? = some f → f.Solid a.space

section Denotations

variable {K : Type*} [Field K] [LinearOrder K]

/-- The cut has exactly the points of `S`, and a solid frame unless it is empty. -/
structure Cut.Denotes (s : Space) (S : (ℕ → K) → Prop) (c : Cut) : Prop where
  solid : c.empty = false → c.frame.Solid s
  has : ∀ x, c.Has x ↔ S x

/-- The value lives in the space, is solid and has exactly the points of `S`. -/
structure Parallelotope.Denotes (s : Space) (S : (ℕ → K) → Prop) (a : Parallelotope) : Prop where
  space : a.space = s
  solid : a.Solid
  has : ∀ x, a.Has x ↔ S x

variable {s : Space} {S T : (ℕ → K) → Prop} {f : Frame}

theorem Cut.denotes_empty (g : Frame) (none : ∀ x, ¬ S x) : Cut.Denotes s S ⟨g, true⟩ :=
  ⟨nofun, fun x => ⟨fun has => absurd has.1 (by simp), fun h => absurd h (none x)⟩⟩

theorem Cut.denotes_frame (solid : f.Solid s) (h : ∀ x, f.Has x ↔ S x) : Cut.Denotes s S ⟨f, false⟩ :=
  ⟨fun _ => solid, fun x => ⟨fun has => (h x).mp has.2, fun hS => ⟨rfl, (h x).mpr hS⟩⟩⟩

theorem Cut.Denotes.congr {c : Cut} (denotes : c.Denotes s S) (h : ∀ x, S x ↔ T x) : c.Denotes s T :=
  ⟨denotes.solid, fun x => (denotes.has x).trans (h x)⟩

theorem Cut.Denotes.toParallelotope {c : Cut} (denotes : c.Denotes s S) :
    (c.toParallelotope s).Denotes s S := by
  refine ⟨rfl, fun f hf => ?_, fun x => Cut.toParallelotope_has.trans (denotes.has x)⟩
  obtain ⟨nonempty, rfl⟩ := Cut.eq_of_toParallelotope hf
  exact denotes.solid nonempty

namespace Parallelotope

variable {a : Parallelotope}

theorem solid_mk (solid : f.Solid s) : Solid ⟨s, some f⟩ := by
  intro g hg
  obtain rfl := Option.some.inj hg
  exact solid

theorem Solid.wellFormed (solid : a.Solid) : a.WellFormed := fun f hf =>
  ⟨(solid f hf).regular, fun _ I hI => ((solid f hf).filled I hI).ordered⟩

theorem solid_of_none (hf : a.frame? = none) : a.Solid := fun f hf' => by simp [hf] at hf'

theorem Solid.has_congr (solid : a.Solid) {x y : ℕ → K} (agrees : ∀ j < a.space.size, x j = y j)
    (has : a.Has x) : a.Has y := by
  obtain ⟨f, hf, has⟩ := has
  exact ⟨f, hf, (solid f hf).regular.has_congr agrees has⟩

theorem denotes_self (solid : a.Solid) : a.Denotes a.space (a.Has : (ℕ → K) → Prop) :=
  ⟨rfl, solid, fun _ => Iff.rfl⟩

theorem denotes_none (space : a.space = s) (hf : a.frame? = none) (none : ∀ x, ¬ S x) :
    a.Denotes s S :=
  ⟨space, solid_of_none hf, fun x =>
    ⟨fun has => absurd has (not_has_of_none hf x), fun h => absurd h (none x)⟩⟩

theorem denotes_mk (solid : f.Solid s) (h : ∀ x, f.Has x ↔ S x) : Denotes s S ⟨s, some f⟩ :=
  ⟨rfl, solid_mk solid, fun x => has_mk.trans (h x)⟩

theorem Denotes.congr (denotes : a.Denotes s S) (h : ∀ x, S x ↔ T x) : a.Denotes s T :=
  ⟨denotes.space, denotes.solid, fun x => (denotes.has x).trans (h x)⟩

end Parallelotope

end Denotations

/-! ## Normalising -/

namespace Frame

variable {K : Type*} [Field K] [LinearOrder K] [IsStrictOrderedRing K] {s : Space}
  {S : (ℕ → K) → Prop} {f g : Frame} {cfg : Settings}

theorem tightenAll_of_fixed {rows : List Vec} {Is : List Interval}
    (fixed : ∀ d ∈ rows.zip Is, tighten cfg s d.1 d.2 = d.2) : (tightenAll cfg s rows Is).1 = Is := by
  induction rows generalizing Is with
  | nil => simp [tightenAll]
  | cons row rows ih =>
    cases Is with
    | nil => simp [tightenAll]
    | cons I Is =>
      obtain ⟨first, rest⟩ := List.forall_mem_cons.mp fixed
      simp only at first
      simp only [tightenAll, first]
      split
      · rfl
      · rw [ih rest]

theorem normalize_frame (fixed : ∀ d ∈ f.rows, tighten cfg s d.1 d.2 = d.2) :
    (f.normalize cfg s).frame = f := by
  simp only [normalize, tightenAll_of_fixed fixed]

theorem normalize_has_iff (fixed : ∀ d ∈ f.rows, tighten cfg s d.1 d.2 = d.2) {x : ℕ → K} :
    (f.normalize cfg s).Has x ↔ f.Has x := by
  refine ⟨has_of_normalize_has, tightenAll_has_of_keeps fun d hd has => ?_⟩
  rwa [fixed d hd]

theorem normalize_denotes (cfg : Settings) (real : s.ints = 0) (regular : g.Regular s.size)
    (proper : ∀ I ∈ g.ranges, I.Proper) (h : ∀ x, g.Has x ↔ S x) :
    (g.normalize cfg s).Denotes s S := by
  have fixed : ∀ d ∈ g.rows, tighten cfg s d.1 d.2 = d.2 := fun d _ => by simp [tighten, real]
  refine ⟨fun nonempty => ⟨real, ?_, ?_⟩, fun x => (normalize_has_iff fixed).trans (h x)⟩
  · exact (regular.normalize True nonempty).1
  · have ordered := (regular.normalize True nonempty).2 trivial
    rw [normalize_frame fixed] at ordered ⊢
    exact fun I hI => proper I hI (ordered I hI)

/-! ## One direction -/

variable {r lam : Vec} {I : Interval}

/-- Row coordinates with one entry: that row is narrowed to exactly what the direction allows. -/
theorem Solid.row_denotes (solid : f.Solid s) (exact : cfg.precision = .exact)
    (length : r.length = s.size) (coords : f.IsCoords s.size r lam) {k : ℕ}
    (single : lam.support = [k]) (proper : I.Proper) :
    ((f.setRange k ((f.ranges.getD k .top).meet
      (I.scale cfg.precision (1 / lam.getD k 0)))).normalize cfg s).Denotes s
        fun x : ℕ → K => f.Has x ∧ I.Has (r.eval x) := by
  obtain ⟨real, regular, filled⟩ := solid
  have mem : k ∈ lam.support := single ▸ List.mem_singleton.mpr rfl
  obtain ⟨inside, weight⟩ := Vec.mem_support.mp mem
  rw [coords.length] at inside
  rw [exact]
  have regular' := regular.setRanges (f.ranges.set k ((f.ranges.getD k .top).meet
    (I.scale .exact (1 / lam.getD k 0)))) (by simp [regular.ranges])
  refine normalize_denotes cfg real regular' (fun J hJ => ?_) fun x => ?_
  · cases List.mem_or_eq_of_mem_set hJ with
    | inl old => exact (filled J old).proper
    | inr new =>
      rw [new]
      exact (Interval.filled_getD filled k).proper.meet (proper.scale _)
  · refine (regular.setRange_has inside).trans (and_congr_right fun _ => ?_)
    -- The direction is a multiple of row `k`, so its interval is one for that row.
    rw [coords.image_of_support regular.axes.shape length single,
      Interval.scale_has_iff (one_div_ne_zero weight)]

theorem Solid.replace_denotes (solid : f.Solid s) (length : r.length = s.size)
    (coords : f.IsCoords s.size r lam) {k : ℕ} (inside : k < s.size) (weight : lam.getD k 0 ≠ 0)
    (free : (f.ranges.getD k .bottom).isTop) (proper : I.Proper) :
    ((f.setRow k r I).normalize cfg s).Denotes s fun x : ℕ → K => f.Has x ∧ I.Has (r.eval x) := by
  obtain ⟨real, regular, filled⟩ := solid
  have regular' := regular.setRow length coords inside weight I
  refine normalize_denotes cfg real regular' (fun J hJ => ?_) fun x =>
    regular.setRow_has inside regular' free
  cases List.mem_or_eq_of_mem_set hJ with
  | inl old => exact (filled J old).proper
  | inr new => exact new ▸ proper

/-- Several rows with weight, none of them free: nothing is lost if the direction allows all or none
of what the rows allow. -/
theorem meetSkew_lossless (cfg : Settings) (s : Space) (f : Frame) (r lam : Vec) (I : Interval) :
    Op.Lossless (f.meetSkew cfg s lam I) fun c => f.Solid s → r.length = s.size →
      f.IsCoords s.size r lam → c.Denotes s fun x : ℕ → K => f.Has x ∧ I.Has (r.eval x) := by
  -- What the rows allow the direction to be, in any precision.
  have combination : f.Solid s → r.length = s.size → f.IsCoords s.size r lam →
      ∀ x : ℕ → K, f.Has x → (cfg.precision.dot lam f.ranges).Has (r.eval x) := by
    intro solid length coords x has
    rw [← coords.eval solid.regular.axes.shape length]
    exact cfg.precision.dot_has (coords.length.trans solid.regular.ranges.symm).le
      ((has_iff solid.regular.same).mp has)
  unfold meetSkew
  dsimp only
  split
  · rename_i bottom
    refine Op.lossless_pure fun solid length coords => Cut.denotes_empty f fun x both => ?_
    have target := Interval.has_meet.mpr ⟨both.2, combination solid length coords x both.1⟩
    exact absurd bottom (by simp [target.isBottom])
  · split
    · rename_i redundant
      -- The combination lies in the interval anyway, so the direction says nothing new.
      refine Op.lossless_pure fun solid length coords => Cut.denotes_frame solid fun x => ?_
      refine ⟨fun has => ⟨has, ?_⟩, And.left⟩
      have target := combination solid length coords x has
      rw [← redundant] at target
      exact (Interval.has_meet.mp target).1
    · exact Op.inexact_lossless.bind fun _ => Op.lossless_pure False.elim

theorem meetCoords_lossless (exact : cfg.precision = .exact) (s : Space) (f : Frame) (r lam : Vec)
    (I : Interval) :
    Op.Lossless (f.meetCoords cfg s r lam I) fun c => f.Solid s → r.length = s.size → I.Proper →
      f.IsCoords s.size r lam → c.Denotes s fun x : ℕ → K => f.Has x ∧ I.Has (r.eval x) := by
  unfold meetCoords
  by_cases beyond : (lam.support.any fun k => decide (f.ranges.length ≤ k)) = true
  · simp only [if_pos beyond]
    split
    · exact Op.lossless_throw_bind _
    · exact Op.lossless_throw_bind _
  simp only [if_neg beyond]
  split
  · rename_i k single
    exact Op.lossless_pure fun solid length proper coords =>
      solid.row_denotes exact length coords single proper
  · split
    · rename_i k best
      refine Op.lossless_pure fun solid length proper coords => ?_
      -- The row was chosen among the free ones that have weight.
      obtain ⟨weight, free⟩ := List.mem_filter.mp (strongest_mem best)
      obtain ⟨inside, nonzero⟩ := Vec.mem_support.mp weight
      exact solid.replace_denotes length coords (coords.length ▸ inside) nonzero free proper
    · refine (meetSkew_lossless (K := K) cfg s f r lam I).imp fun c denotes solid length _ => ?_
      exact denotes solid length

theorem Solid.remember (solid : f.Solid s) (h : f.remember = .ok g) : g.Solid s ∧ g.rows = f.rows := by
  obtain ⟨w, remembered, inverse⟩ := solid.regular.exists_remember
  obtain rfl := Except.ok.inj (h.symm.trans remembered)
  have regular : Regular { f with inverse? := some w } s.size :=
    ⟨solid.regular.axes, solid.regular.ranges, fun v hv => Option.some.inj hv ▸ inverse⟩
  exact ⟨⟨solid.real, regular, solid.filled⟩, rfl⟩

theorem meetDirection_lossless (exact : cfg.precision = .exact) (s : Space) (f : Frame) (r : Vec)
    (I : Interval) :
    Op.Lossless (f.meetDirection cfg s r I) fun c => f.Solid s → r.length = s.size → I.Proper →
      c.Denotes s fun x : ℕ → K => f.Has x ∧ I.Has (r.eval x) := by
  unfold meetDirection
  split
  · rename_i bottom
    refine Op.lossless_pure fun _ _ _ => Cut.denotes_empty f fun x both => ?_
    exact absurd bottom (by simp [both.2.isBottom])
  split
  · rename_i top
    refine Op.lossless_pure fun solid _ _ => Cut.denotes_frame solid fun x => ?_
    exact ⟨fun has => ⟨has, Interval.has_of_isTop top⟩, And.left⟩
  split
  · rename_i zero
    -- The zero direction: the condition holds everywhere or nowhere.
    refine Op.lossless_pure fun solid _ _ => ⟨fun _ => solid, fun x => ?_⟩
    rw [Vec.eval_of_isZero zero, Interval.has_zero_iff, Cut.Has]
    simp [and_comm]
  · refine (Op.lossless_lift _).bind fun g => (Op.write_lossless s _).bind fun _ => ?_
    refine (Op.lossless_lift _).bind fun lam => (meetCoords_lossless (K := K) exact s g r lam I).imp ?_
    intro c denotes found _ remembered solid length proper
    obtain ⟨solid', same⟩ := solid.remember remembered
    obtain ⟨lam', found', coords⟩ := solid'.regular.exists_coords r
    obtain rfl := Except.ok.inj (found.symm.trans found')
    refine (denotes solid' length proper coords).congr fun x => ?_
    rw [Has, same, Has]

/-! ## Several directions -/

theorem meetAll_lossless (exact : cfg.precision = .exact) (s : Space) (dirs : List Direction)
    (f : Frame) :
    Op.Lossless (meetAll cfg s dirs f) fun c => f.Solid s →
      (∀ d ∈ dirs, d.1.length = s.size ∧ d.2.Proper) →
        c.Denotes s fun x : ℕ → K => f.Has x ∧ ∀ d ∈ dirs, d.2.Has (d.1.eval x) := by
  induction dirs generalizing f with
  | nil => exact Op.lossless_pure fun solid _ => Cut.denotes_frame solid fun x => by simp
  | cons d dirs ih =>
    obtain ⟨r, I⟩ := d
    unfold meetAll
    refine (meetDirection_lossless (K := K) exact s f r I).bind fun c => ?_
    refine (Op.write_lossless s c).bind fun _ => ?_
    simp only [List.forall_mem_cons]
    split
    · rename_i empty
      refine Op.lossless_pure fun _ denotes solid fits => ?_
      -- The walk stops here: no point satisfies the first direction.
      have first := denotes solid fits.1.1 fits.1.2
      refine ⟨fun nonempty => absurd (empty.symm.trans nonempty) (by simp), fun x => ?_⟩
      have none : ¬ c.Has x := fun has => absurd (empty.symm.trans has.1) (by simp)
      exact ⟨fun has => absurd has none, fun all => absurd ((first.has x).mpr ⟨all.1, all.2.1⟩) none⟩
    · rename_i nonempty
      refine (ih c.frame).imp fun c' later _ denotes solid fits => ?_
      have first := denotes solid fits.1.1 fits.1.2
      have left : c.empty = false := by simpa using nonempty
      refine (later (first.solid left) fits.2).congr fun x => ?_
      rw [← and_assoc, ← first.has x, Cut.Has]
      simp [left]

/-! ## Another frame -/

theorem meet_lossless (exact : cfg.precision = .exact) (s : Space) (f g : Frame) :
    Op.Lossless (f.meet cfg s g) fun c => f.Solid s → g.Solid s →
      c.Denotes s fun x : ℕ → K => f.Has x ∧ g.Has x := by
  unfold meet
  split
  · rename_i same
    refine (Op.refit_lossless (P := fun _ => True) trivial).bind fun _ => ?_
    refine Op.lossless_pure fun _ hf hg => ?_
    have regular := hf.regular.setRanges (List.zipWith Interval.meet f.ranges g.ranges)
      (by simp [hf.regular.ranges, hg.regular.ranges])
    refine normalize_denotes cfg hf.real regular (fun I hI => ?_) fun x =>
      hf.regular.zipWith_meet_has hg.regular same
    obtain ⟨i, hi, rfl⟩ := List.mem_iff_getElem.mp hI
    rw [List.getElem_zipWith]
    exact (hf.filled _ (List.getElem_mem _)).proper.meet (hg.filled _ (List.getElem_mem _)).proper
  · refine (meetAll_lossless (K := K) exact s g.rows f).imp fun c denotes hf hg => ?_
    refine denotes hf fun d hd => ?_
    obtain ⟨row, range⟩ := List.of_mem_zip hd
    exact ⟨hg.regular.axes.shape.width d.1 row, (hg.filled d.2 range).proper⟩

end Frame

/-! ## Values -/

namespace Parallelotope

variable {K : Type*} [Field K] [LinearOrder K] [IsStrictOrderedRing K] {cfg : Settings}

theorem tidy_lossless (cfg : Settings) (a : Parallelotope) :
    Op.Lossless (a.tidy cfg) fun b => a.Solid → b.Denotes a.space fun x : ℕ → K => a.Has x := by
  unfold tidy
  cases hf : a.frame? with
  | none => exact Op.lossless_pure fun _ => denotes_none rfl hf (not_has_of_none hf)
  | some f =>
    refine Op.put_lossless fun solid => Cut.Denotes.toParallelotope ?_
    obtain ⟨real, regular, filled⟩ := solid f hf
    refine Frame.normalize_denotes cfg real regular (fun I hI => (filled I hI).proper) fun x => ?_
    exact (has_iff_of_frame hf).symm

theorem meetDirection_lossless (exact : cfg.precision = .exact) (a : Parallelotope) (r : Vec)
    (I : Interval) :
    Op.Lossless (a.meetDirection cfg r I) fun b => a.Solid → r.length = a.space.size → I.Proper →
      b.Denotes a.space fun x : ℕ → K => a.Has x ∧ I.Has (r.eval x) := by
  unfold meetDirection
  cases hf : a.frame? with
  | none =>
    refine Op.lossless_pure fun _ _ _ => denotes_none rfl hf fun x both => ?_
    exact absurd both.1 (not_has_of_none hf x)
  | some f =>
    refine (Frame.meetDirection_lossless (K := K) exact a.space f r I).bind fun c => ?_
    refine Op.put_lossless fun denotes solid length proper => Cut.Denotes.toParallelotope ?_
    refine (denotes (solid f hf) length proper).congr fun x => ?_
    rw [has_iff_of_frame hf]

theorem meet_lossless (exact : cfg.precision = .exact) (a b : Parallelotope) :
    Op.Lossless (a.meet cfg b) fun c => a.Solid → b.Solid →
      c.Denotes a.space fun x : ℕ → K => a.Has x ∧ b.Has x := by
  unfold meet
  refine (Op.lossless_lift _).bind fun _ => ?_
  cases hf : a.frame? with
  | none =>
    refine Op.lossless_pure fun _ _ _ => denotes_none rfl hf fun x both => ?_
    exact absurd both.1 (not_has_of_none hf x)
  | some f =>
    cases hg : b.frame? with
    | none =>
      refine Op.move_lossless fun _ _ _ => denotes_none rfl rfl fun x both => ?_
      exact absurd both.2 (not_has_of_none hg x)
    | some g =>
      refine (Frame.meet_lossless (K := K) exact a.space f g).bind fun c => ?_
      refine Op.put_lossless fun denotes checked ha hb => Cut.Denotes.toParallelotope ?_
      have same := checkSpace_eq_ok checked
      refine (denotes (ha f hf) (same ▸ hb g hg)).congr fun x => ?_
      rw [has_iff_of_frame hf, has_iff_of_frame hg]

theorem meetArray_lossless (exact : cfg.precision = .exact) (a : Parallelotope)
    (rest : List Parallelotope) :
    Op.Lossless (meetArray cfg (a :: rest)) fun c => a.Solid → (∀ b ∈ rest, b.Solid) →
      c.Denotes a.space fun x : ℕ → K => ∀ b ∈ a :: rest, b.Has x := by
  show Op.Lossless (rest.foldlM (meet cfg) a) _
  induction rest generalizing a with
  | nil =>
    refine Op.lossless_pure fun solid _ => (denotes_self solid).congr fun x => ?_
    simp
  | cons b rest ih =>
    rw [List.foldlM_cons]
    refine (meet_lossless (K := K) exact a b).bind fun c => (ih c).imp ?_
    intro d later denotes ha hrest
    obtain ⟨hb, hrest⟩ := List.forall_mem_cons.mp hrest
    have first := denotes ha hb
    have second := later first.solid hrest
    rw [first.space] at second
    refine second.congr fun x => ?_
    simp only [List.forall_mem_cons, first.has x, and_assoc]

end Parallelotope

end SkewBox
