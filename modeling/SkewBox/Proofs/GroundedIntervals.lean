import SkewBox.Proofs.ConstraintSoundness

/-!
# Infinite ends on their own side

An interval whose lower end is not `+∞` and whose upper end is not `-∞` holds a rational as soon as its
ends are in order.  Arithmetic keeps this, rounded or not, and so does linearisation.

* `Interval.Grounded`: an infinite end stands on its own side.
* `Affine.Grounded`, `Term.Grounded`: expressions with such coefficients and constants.
* `Term.linearize_grounded`: linearisation.
-/

namespace SkewBox

/-! ## Bounds -/

namespace Bound

variable {K : Type*} [Field K] [LinearOrder K] {a b c : Bound} {x : K}

theorem max_ne (ha : a ≠ c) (hb : b ≠ c) : max a b ≠ c :=
  (max_choice a b).elim (·.trans_ne ha) (·.trans_ne hb)

theorem min_ne (ha : a ≠ c) (hb : b ≠ c) : min a b ≠ c :=
  (min_choice a b).elim (·.trans_ne ha) (·.trans_ne hb)

theorem abs_ne_negInf (a : Bound) : a.abs ≠ negInf := by
  cases a <;> exact nofun

theorem neg_ne_posInf (h : a ≠ negInf) : -a ≠ posInf := by
  cases a with
  | negInf => exact absurd rfl h
  | _ => exact nofun

theorem neg_ne_negInf (h : a ≠ posInf) : -a ≠ negInf := by
  cases a with
  | posInf => exact absurd rfl h
  | _ => exact nofun

theorem Below.ne_posInf (h : a.Below x) : a ≠ posInf := by
  rintro rfl
  exact h

theorem Above.ne_negInf (h : a.Above x) : a ≠ negInf := by
  rintro rfl
  exact h

theorem exists_below (h : a ≠ posInf) : ∃ q : ℚ, a.Below q := by
  cases a with
  | negInf => exact ⟨0, trivial⟩
  | fin q => exact ⟨q, le_rfl⟩
  | posInf => exact absurd rfl h

theorem exists_above (h : a ≠ negInf) : ∃ q : ℚ, a.Above q := by
  cases a with
  | negInf => exact absurd rfl h
  | fin q => exact ⟨q, le_rfl⟩
  | posInf => exact ⟨0, trivial⟩

end Bound

namespace Precision

variable {p : Precision} {a b : Bound}

theorem add_down_ne_posInf (ha : a ≠ .posInf) (hb : b ≠ .posInf) : p.add .down a b ≠ .posInf := by
  obtain ⟨q, hq⟩ := Bound.exists_below ha
  obtain ⟨r, hr⟩ := Bound.exists_below hb
  exact (p.add_below hq hr).ne_posInf

theorem add_up_ne_negInf (ha : a ≠ .negInf) (hb : b ≠ .negInf) : p.add .up a b ≠ .negInf := by
  obtain ⟨q, hq⟩ := Bound.exists_above ha
  obtain ⟨r, hr⟩ := Bound.exists_above hb
  exact (p.add_above hq hr).ne_negInf

theorem mul_up_ne_negInf (x y : ℚ) : p.mul .up (.fin x) (.fin y) ≠ .negInf :=
  (p.roundRat_above (x := x * y) le_rfl).ne_negInf

end Precision

/-! ## Intervals -/

namespace Interval

variable {p : Precision} {I J : Interval}

/-- An infinite end stands on its own side: the lower one is not `+∞`, the upper one not `-∞`. -/
structure Grounded (I : Interval) : Prop where
  lo : I.lo ≠ .posInf
  hi : I.hi ≠ .negInf

instance : DecidablePred Grounded := fun I =>
  decidable_of_iff (I.lo ≠ .posInf ∧ I.hi ≠ .negInf) ⟨fun h => ⟨h.1, h.2⟩, fun h => ⟨h.lo, h.hi⟩⟩

theorem Filled.grounded (h : I.Filled) : I.Grounded := ⟨(filled_iff.mp h).2.1, (filled_iff.mp h).2.2⟩

theorem Grounded.filled (h : I.Grounded) (ordered : I.isBottom = false) : I.Filled :=
  filled_iff.mpr ⟨isBottom_eq_false_iff.mp ordered, h.lo, h.hi⟩

/-- The interval is an infinity alone, which no number is. -/
def Lone (I : Interval) : Prop := I = single .posInf ∨ I = single .negInf

instance : DecidablePred Lone := fun I =>
  inferInstanceAs (Decidable (I = single .posInf ∨ I = single .negInf))

theorem Grounded.not_lone (h : I.Grounded) : ¬ I.Lone := by
  rintro (rfl | rfl)
  · exact h.lo rfl
  · exact h.hi rfl

theorem filled_iff_not_lone (ordered : I.lo ≤ I.hi) : I.Filled ↔ ¬ I.Lone := by
  obtain ⟨lo, hi⟩ := I
  rw [filled_iff, Lone, single, single]
  cases lo <;> cases hi <;> simp_all

theorem Has.grounded {q : ℚ} (h : I.Has q) : I.Grounded := Filled.grounded ⟨q, h⟩

theorem top_grounded : top.Grounded := by decide

theorem bottom_grounded : bottom.Grounded := by decide

theorem zero_grounded : zero.Grounded := by decide

theorem point_grounded (q : ℚ) : (point q).Grounded := ⟨nofun, nofun⟩

theorem sqrtAbove_ne_negInf {a b : Bound} (h : sqrtAbove a = .ok b) (nonneg : ¬ a < .fin 0) :
    b ≠ .negInf := by
  cases a with
  | negInf => exact absurd (by decide) nonneg
  | fin q =>
    simp only [sqrtAbove] at h
    split at h
    · exact Except.ok.inj h ▸ by simp
    · contradiction
  | posInf => exact Except.ok.inj h ▸ by simp

namespace Grounded

/-- A product, quotient or multiple of intervals that hold something holds something, whichever way it
is rounded. -/
theorem binary {g : Interval → Interval → Interval} {f : ℚ → ℚ → ℚ}
    (has : ∀ {x y : ℚ}, I.Has x → J.Has y → (g I J).Has (f x y))
    (empty : I.isBottom || J.isBottom → g I J = bottom) (hI : I.Grounded) (hJ : J.Grounded) :
    (g I J).Grounded := by
  cases bottom : I.isBottom || J.isBottom with
  | true => exact empty bottom ▸ bottom_grounded
  | false =>
    obtain ⟨first, second⟩ := Bool.or_eq_false_iff.mp bottom
    obtain ⟨x, hx⟩ := hI.filled first
    obtain ⟨y, hy⟩ := hJ.filled second
    exact (has hx hy).grounded

theorem neg (h : I.Grounded) : I.neg.Grounded := by
  unfold Interval.neg
  split
  · exact h
  · exact ⟨Bound.neg_ne_posInf h.hi, Bound.neg_ne_negInf h.lo⟩

theorem add (hI : I.Grounded) (hJ : J.Grounded) : (I.add p J).Grounded :=
  hI.binary (g := Interval.add p) add_has (fun empty => if_pos empty) hJ

theorem sub (hI : I.Grounded) (hJ : J.Grounded) : (I.sub p J).Grounded := hI.add hJ.neg

theorem mul (hI : I.Grounded) (hJ : J.Grounded) : (I.mul p J).Grounded :=
  hI.binary (g := Interval.mul p) mul_has (fun empty => if_pos empty) hJ

theorem div (hI : I.Grounded) (hJ : J.Grounded) : (I.div p J).Grounded :=
  hI.binary (g := Interval.div p) div_has (fun empty => if_pos empty) hJ

theorem scale (h : I.Grounded) (c : ℚ) : (I.scale p c).Grounded := by
  cases empty : I.isBottom with
  | true =>
    rw [Interval.scale, empty, if_pos rfl]
    exact h
  | false =>
    obtain ⟨x, hx⟩ := h.filled empty
    exact (scale_has c hx).grounded

theorem meet (hI : I.Grounded) (hJ : J.Grounded) : (I.meet J).Grounded := by
  unfold Interval.meet
  dsimp only
  split
  · exact bottom_grounded
  · exact ⟨Bound.max_ne hI.lo hJ.lo, Bound.min_ne hI.hi hJ.hi⟩

theorem join (hI : I.Grounded) (hJ : J.Grounded) : (I.join J).Grounded := by
  unfold Interval.join
  split
  · exact hJ
  split
  · exact hI
  · exact ⟨Bound.min_ne hI.lo hJ.lo, Bound.max_ne hI.hi hJ.hi⟩

theorem tighten (h : I.Grounded) : I.tighten.Grounded := by
  obtain ⟨lo, hi⟩ := I
  constructor
  · cases lo with
    | posInf => exact absurd rfl h.lo
    | _ => exact nofun
  · cases hi with
    | negInf => exact absurd rfl h.hi
    | _ => exact nofun

theorem cast (h : I.Grounded) : I.cast.Grounded := by
  unfold Interval.cast
  split
  · exact h
  obtain ⟨lo, hi⟩ := I
  constructor
  · cases lo with
    | posInf => exact absurd rfl h.lo
    | _ => exact nofun
  · cases hi with
    | negInf => exact absurd rfl h.hi
    | _ => exact nofun

theorem sqrt (root : I.sqrt = .ok J) : J.Grounded := by
  unfold Interval.sqrt at root
  split at root
  · exact Except.ok.inj root ▸ bottom_grounded
  rename_i nonneg
  have upper : ∀ lo : ℚ, (sqrtAbove I.hi >>= fun hi => pure ⟨.fin lo, hi⟩ : Except Error Interval) =
      .ok J → J.Grounded := by
    intro lo h
    obtain ⟨hi, above, same⟩ := bind_eq_ok.mp h
    obtain rfl := Except.ok.inj same
    exact ⟨nofun, sqrtAbove_ne_negInf above fun negative => nonneg (by simp [negative])⟩
  split at root
  · exact upper 0 root
  · obtain ⟨lo, -, rest⟩ := bind_eq_ok.mp root
    exact upper lo rest

theorem rem (h : I.Grounded) : (I.rem J).Grounded := by
  have size : J.magnitude ≠ .negInf := Bound.max_ne (Bound.abs_ne_negInf _) (Bound.abs_ne_negInf _)
  unfold Interval.rem
  split
  · exact bottom_grounded
  split
  · exact top_grounded
  dsimp only
  split
  · exact ⟨nofun, Bound.min_ne size h.hi⟩
  split
  · exact ⟨Bound.max_ne (Bound.neg_ne_posInf size) h.lo, nofun⟩
  · exact ⟨Bound.neg_ne_posInf size, size⟩

theorem power (h : I.Grounded) (k : ℕ) : (I.power k).Grounded := by
  induction k with
  | zero => exact point_grounded 1
  | succ k ih => exact ih.mul h

theorem pow (h : I.Grounded) : (I.pow J).Grounded := by
  unfold Interval.pow
  split
  · exact bottom_grounded
  split
  · exact top_grounded
  · dsimp only
    split
    · exact (h.power _).meet (by decide)
    · exact h.power _

end Grounded

theorem grounded_getD {Is : List Interval} (grounded : ∀ I ∈ Is, I.Grounded) {d : Interval}
    (hd : d.Grounded) (i : ℕ) : (Is.getD i d).Grounded := by
  rcases lt_or_ge i Is.length with inside | outside
  · rw [List.getD_eq_getElem _ _ inside]
    exact grounded _ (List.getElem_mem inside)
  · rwa [List.getD_eq_default _ _ outside]

theorem grounded_set {Is : List Interval} (grounded : ∀ I ∈ Is, I.Grounded) {J : Interval}
    (hJ : J.Grounded) (i : ℕ) : ∀ I ∈ Is.set i J, I.Grounded := by
  intro I hI
  rcases List.mem_or_eq_of_mem_set hI with old | rfl
  · exact grounded I old
  · exact hJ

theorem grounded_zipWith {α β : Type} {g : α → β → Interval} {xs : List α} {ys : List β}
    (grounded : ∀ x ∈ xs, ∀ y ∈ ys, (g x y).Grounded) : ∀ I ∈ List.zipWith g xs ys, I.Grounded := by
  induction xs generalizing ys with
  | nil => simp
  | cons x xs ih =>
    cases ys with
    | nil => simp
    | cons y ys =>
      rw [List.zipWith_cons_cons, List.forall_mem_cons]
      refine ⟨grounded x (List.mem_cons_self ..) y (List.mem_cons_self ..), ih fun x hx y hy => ?_⟩
      exact grounded x (List.mem_cons_of_mem _ hx) y (List.mem_cons_of_mem _ hy)

end Interval

theorem Precision.dot_grounded (p : Precision) (cs : Vec) {Is : List Interval}
    (grounded : ∀ I ∈ Is, I.Grounded) : (p.dot cs Is).Grounded := by
  unfold dot
  have start := Interval.zero_grounded
  generalize Interval.zero = acc at start ⊢
  induction cs generalizing Is acc with
  | nil => exact start
  | cons c cs ih =>
    cases Is with
    | nil => exact start
    | cons I Is =>
      obtain ⟨first, rest⟩ := List.forall_mem_cons.mp grounded
      simp only [List.zip_cons_cons, List.foldl_cons]
      refine ih rest _ ?_
      split
      · exact start
      · have term := first.scale (p := p) c
        exact ⟨add_down_ne_posInf start.lo term.lo, add_up_ne_negInf start.hi term.hi⟩

/-! ## Expressions -/

namespace Affine

variable {e f : Affine}

/-- The coefficients and the constant are grounded. -/
structure Grounded (e : Affine) : Prop where
  terms : ∀ t ∈ e.terms, t.2.Grounded
  const : e.const.Grounded

theorem make_grounded {terms : List (ℕ × Interval)} {const : Interval}
    (hterms : ∀ t ∈ terms, t.2.Grounded) (hconst : const.Grounded) : (make terms const).Grounded :=
  ⟨fun t ht => hterms t (mem_of_mem_make ht), hconst⟩

theorem constant_grounded {I : Interval} (h : I.Grounded) : (constant I).Grounded :=
  ⟨fun _ ht => absurd ht List.not_mem_nil, h⟩

theorem map_grounded (he : e.Grounded) {g : Interval → Interval} (hg : ∀ I, I.Grounded → (g I).Grounded) :
    (make (e.terms.map fun (d, c) => (d, g c)) (g e.const)).Grounded :=
  ⟨forall_coeff_map he.terms hg _, hg _ he.const⟩

theorem Grounded.negate (he : e.Grounded) : e.negate.Grounded := map_grounded he fun _ h => h.neg

theorem Grounded.scale (he : e.Grounded) {J : Interval} (hJ : J.Grounded) : (e.scale J).Grounded :=
  map_grounded he fun _ h => h.mul hJ

theorem Grounded.add (he : e.Grounded) (hf : f.Grounded) : (e.add f).Grounded :=
  ⟨forall_coeff_add he.terms hf.terms fun _ _ hI hJ => hI.add hJ, he.const.add hf.const⟩

theorem Grounded.sub (he : e.Grounded) (hf : f.Grounded) : (e.sub f).Grounded := he.add hf.negate

end Affine

namespace Term

/-- The constants of the term are grounded. -/
def Grounded : Term → Prop
  | const I => I.Grounded
  | var _ => True
  | un _ arg => arg.Grounded
  | bin _ left right => left.Grounded ∧ right.Grounded

variable {W : Parallelotope → Prop} {bound : Affine → Op Interval}

theorem linearize_grounded
    (hbound : ∀ e : Affine, e.Grounded → Op.Meets W W True (bound e) Interval.Grounded) {t : Term}
    (ht : t.Grounded) : Op.Meets W W True (t.linearize bound) Affine.Grounded := by
  induction t with
  | const I => exact Op.meets_pure (Affine.constant_grounded ht)
  | var d => exact Op.meets_pure (Affine.make_grounded (by simpa using Interval.point_grounded 1)
      Interval.zero_grounded)
  | un op arg ih =>
    cases op with
    | neg => exact (ih ht).bind fun e he => Op.meets_pure he.negate
    | sqrt =>
      refine (ih ht).bind fun e he => (hbound e he).bind fun I _ => ?_
      refine (lift_meets fun J root => Interval.Grounded.sqrt root).bind fun J hJ => ?_
      exact Op.meets_pure (Affine.constant_grounded hJ)
    | cast =>
      refine (ih ht).bind fun e he => (hbound e he).bind fun I hI => ?_
      exact Op.meets_pure (Affine.constant_grounded hI.cast)
  | bin op left right ihl ihr =>
    rw [linearize]
    refine (ihl ht.1).bind fun e he => (ihr ht.2).bind fun f hf => ?_
    -- Operators that are not affine go through the ranges of both sides.
    have ranges : ∀ g : Interval → Interval → Interval,
        (∀ I J, I.Grounded → J.Grounded → (g I J).Grounded) → Op.Meets W W True (do
          let I ← bound e
          let J ← bound f
          return Affine.constant (g I J)) Affine.Grounded := fun g hg =>
      (hbound e he).bind fun I hI => (hbound f hf).bind fun J hJ =>
        Op.meets_pure (Affine.constant_grounded (hg I J hI hJ))
    cases op with
    | add => exact Op.meets_pure (he.add hf)
    | sub => exact Op.meets_pure (he.sub hf)
    | mul =>
      show Op.Meets W W True (linearMul bound e f) _
      unfold linearMul
      split
      · exact Op.meets_pure (he.scale hf.const)
      · split
        · exact Op.meets_pure (hf.scale he.const)
        · exact (hbound f hf).bind fun I hI => Op.meets_pure (he.scale hI)
    | div =>
      show Op.Meets W W True (linearDiv bound e f) _
      unfold linearDiv
      split
      · exact Op.meets_pure (he.scale ((Interval.point_grounded 1).div hf.const))
      · exact ranges (Interval.div .exact) fun I J hI hJ => hI.div hJ
    | rem => exact ranges Interval.rem fun I J hI _ => hI.rem
    | pow => exact ranges Interval.pow fun I J hI _ => hI.pow

end Term

end SkewBox
