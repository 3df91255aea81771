import SkewBox.Proofs.ExactResults
import SkewBox.Proofs.ExactSubstitution
import SkewBox.Proofs.LinearTerms

/-!
# Terms that lose nothing

Linearisation never touches the mark of exactness, whatever it replaces by a range.  For terms that
stay symbolic nothing is replaced, and rational coefficients are checked behind it, so that operations
on such terms that are marked exact give what the terms ask for.

* `Parallelotope.marked_transfers_exact`: substitutions, and assignments and constraints of terms.
* `Parallelotope.unreported_losses`: terms and constants for which the mark is wrong.
-/

namespace SkewBox

variable {K : Type*} [Field K] [LinearOrder K] [IsStrictOrderedRing K]

/-! ## Linearisation -/

namespace Term

variable {t : Term} {e f : Affine} {terms : List Term} {exprs forms : List Affine}

theorem Linear.unique (he : t.Linear e) (hf : t.Linear f) : e = f := by
  have same : (pure e : Op Affine) = pure f :=
    (he.linearize_eq fun _ => pure .top).symm.trans (hf.linearize_eq fun _ => pure .top)
  exact Except.ok.inj (congrArg Prod.fst (congrFun same {}))

theorem Linear.forall₂_takes_iff (linear : List.Forall₂ Linear terms exprs)
    (scalar : ∀ e ∈ exprs, e.isScalar) {x : ℕ → K} {vs : List K} :
    List.Forall₂ (fun t v => t.Takes x v) terms vs ↔ List.Forall₂ (fun e v => e.Takes x v) exprs vs := by
  induction linear generalizing vs with
  | nil => simp
  | cons first _ ih =>
    obtain ⟨scalar, rest⟩ := List.forall_mem_cons.mp scalar
    cases vs with
    | nil => simp
    | cons v vs => rw [List.forall₂_cons, List.forall₂_cons, first.takes_iff scalar, ih rest]

theorem Linear.forall₂_eq (linear : List.Forall₂ Linear terms forms)
    (found : List.Forall₂ (fun t e => ∀ e', t.Linear e' → e = e') terms exprs) : exprs = forms := by
  induction linear generalizing exprs with
  | nil =>
    cases found
    rfl
  | cons first _ ih =>
    cases found with
    | cons same rest => rw [same _ first, ih rest]

theorem linearize_marks {bound : Affine → Op Interval} (ranges : ∀ e, Op.Lossless (bound e) fun _ => True)
    (t : Term) : Op.Lossless (t.linearize bound) fun _ => True := by
  -- The operators that are not affine ask for the ranges of both sides.
  have both : ∀ (e f : Affine) (g : Interval → Interval → Interval), Op.Lossless (do
      let I ← bound e
      let J ← bound f
      return Affine.constant (g I J)) fun _ => True := fun e f g =>
    (ranges e).bind fun _ => (ranges f).bind fun _ => Op.lossless_pure fun _ _ => trivial
  induction t with
  | const I => exact Op.lossless_pure trivial
  | var d => exact Op.lossless_pure trivial
  | un op arg ih =>
    cases op with
    | neg => exact ih.bind fun _ => Op.lossless_pure fun _ => trivial
    | sqrt =>
      refine ih.bind fun e => (ranges e).bind fun I => ?_
      cases root : I.sqrt with
      | ok J => exact Op.lossless_pure fun _ _ => trivial
      | error error => exact Op.lossless_throw_bind error
    | cast => exact ih.bind fun e => (ranges e).bind fun _ => Op.lossless_pure fun _ _ => trivial
  | bin op left right ihl ihr =>
    rw [linearize]
    refine ihl.bind fun e => ihr.bind fun f => ?_
    cases op with
    | add => exact Op.lossless_pure fun _ _ => trivial
    | sub => exact Op.lossless_pure fun _ _ => trivial
    | mul =>
      show Op.Lossless (linearMul bound e f) _
      unfold linearMul
      split
      · exact Op.lossless_pure fun _ _ => trivial
      · split
        · exact Op.lossless_pure fun _ _ => trivial
        · exact (ranges f).bind fun _ => Op.lossless_pure fun _ _ _ => trivial
    | div =>
      show Op.Lossless (linearDiv bound e f) _
      unfold linearDiv
      split
      · exact Op.lossless_pure fun _ _ => trivial
      · exact (both e f (Interval.div .exact)).imp fun _ _ _ _ => trivial
    | rem => exact (both e f Interval.rem).imp fun _ _ _ _ => trivial
    | pow => exact (both e f Interval.pow).imp fun _ _ _ _ => trivial

end Term

namespace Parallelotope

variable {cfg : Settings}

theorem boundAffine_lossless (cfg : Settings) (a : Parallelotope) (e : Affine) :
    Op.Lossless (a.boundAffine cfg e) fun _ => True := by
  unfold boundAffine
  refine (Op.lossless_lift _).bind fun _ => ?_
  cases a.frame? with
  | none => exact Op.lossless_pure fun _ => trivial
  | some f =>
    exact (Op.invert_lossless f).bind fun _ => (Op.lossless_lift _).imp fun _ _ _ _ => trivial

theorem linearize_lossless (cfg : Settings) (a : Parallelotope) (t : Term) :
    Op.Lossless (a.linearize cfg t) fun e => ∀ e', t.Linear e' → e = e' := by
  unfold linearize
  split
  · exact Op.lossless_throw _
  · by_cases symbolic : ∃ e, t.Linear e
    · obtain ⟨e, linear⟩ := symbolic
      rw [linear.linearize_eq]
      exact Op.lossless_pure fun _ => linear.unique
    · refine (Term.linearize_marks (boundAffine_lossless cfg a) t).imp fun _ _ e linear => ?_
      exact absurd ⟨e, linear⟩ symbolic

/-! ## Assignments -/

theorem assignTerm_lossless (exact : cfg.precision = .exact) (a : Parallelotope) (data : List Datum)
    (terms : List Term) (target : Target) :
    Op.Lossless (a.assignTerm cfg data terms target) fun b => a.Solid → target.WellFormed →
      target.Solid → ∀ forms, List.Forall₂ Term.Linear terms forms → ∃ dims : List ℕ,
        data = dims.map (fun d : ℕ => .int d) ∧ ∀ y : ℕ → K, b.Has y ↔
          (∃ x vs, a.Has x ∧ List.Forall₂ (fun t v => t.Takes x v) terms vs ∧
            ∀ i < a.space.size, y i = assigned x dims vs i) ∧ target.Permits y := by
  unfold assignTerm
  refine (checkTransfer_lossless a data terms _ _ target).bind fun dims => ?_
  by_cases bottom : a.isBottom
  · simp only [if_pos bottom]
    have empty : ∀ x : ℕ → K, ¬ a.Has x := not_has_of_none (by simpa [isBottom] using bottom)
    refine (finish_lossless (K := K) exact a target).imp fun b finished checked ha ht solid _ _ => ?_
    obtain ⟨named, -, -, -, space⟩ := checked ht
    refine ⟨dims, named, fun y => ?_⟩
    simp [(finished ha ht solid space).has y, empty]
  · simp only [if_neg bottom]
    refine (Op.lossless_mapM terms fun t => linearize_lossless cfg a t).bind fun exprs => ?_
    refine (assignScalar_lossless (K := K) exact a data exprs target).imp ?_
    intro b image found _ ha ht solid forms linear
    obtain rfl := Term.Linear.forall₂_eq linear found
    have proper : ∀ e ∈ exprs, e.const.Proper := by
      intro e he
      obtain ⟨t, -, linear⟩ := exists_of_mem_right linear he
      exact (linear.reflects (K := K)).filled.proper
    -- The mark stays set only for rational coefficients, where the forms take what the terms take.
    obtain ⟨scalar, dims, named, has⟩ := image ha ht solid proper
    refine ⟨dims, named, fun y => ?_⟩
    simp only [has y, Term.Linear.forall₂_takes_iff linear (scalar (by simpa using bottom))]

/-! ## Substitutions -/

theorem substituteTerm_lossless (exact : cfg.precision = .exact) (a : Parallelotope)
    (dims : List ℕ) (terms : List Term) (target : Target) :
    Op.Lossless (a.substituteTerm cfg (dims.map fun d : ℕ => .int d) terms target) fun b => a.Solid →
      target.WellFormed → target.Solid → ∀ forms, List.Forall₂ Term.Linear terms forms →
        (∀ f, a.frame? = some f → f.Separates dims forms) → ∀ x : ℕ → K, b.Has x ↔
          (∃ vs, List.Forall₂ (fun t v => t.Takes x v) terms vs ∧ a.Has (assigned x dims vs)) ∧
            target.Permits x := by
  unfold substituteTerm
  refine (checkTransfer_lossless a _ terms _ _ target).bind fun named => ?_
  split
  · rename_i trivially
    refine (finish_lossless (K := K) exact a target).imp fun b finished checked ha ht solid _ _ _ x => ?_
    obtain ⟨names, -, -, same, space⟩ := checked ht
    obtain rfl := Datum.map_int_injective names
    rw [(finished ha ht solid space).has x]
    refine and_congr_left fun _ => ?_
    cases Bool.or_eq_true_iff.mp trivially with
    | inl none =>
      obtain rfl := List.isEmpty_iff.mp none
      obtain rfl : terms = [] := List.eq_nil_of_length_eq_zero same.symm
      have unchanged : assigned x [] [] = x := rfl
      simp [unchanged]
    | inr bottom =>
      have empty : ∀ x : ℕ → K, ¬ a.Has x := not_has_of_none (by simpa [isBottom] using bottom)
      simp [empty]
  · rename_i general
    -- Linear terms ask for no ranges, so it does not matter over which value they are linearised.
    refine (before_lossless cfg a named).bind fun source => ?_
    refine (Op.aside_lossless (Op.lossless_mapM terms fun t => linearize_lossless cfg source t)).bind
      fun exprs => ?_
    refine (substituteAffine_lossless (K := K) exact a dims exprs target).imp ?_
    intro b substituted found _ checked ha ht solid forms linear separates x
    obtain rfl := Term.Linear.forall₂_eq linear found
    obtain ⟨scalar, has⟩ := substituted ha ht solid separates
    have filled : a.isBottom = false := by
      simp only [Bool.or_eq_true, not_or, Bool.not_eq_true] at general
      exact general.2
    simp only [has x, Term.Linear.forall₂_takes_iff linear (scalar filled)]

/-! ## Constraints -/

theorem linearizeConstraint_lossless (cfg : Settings) (a : Parallelotope) (c : Constraint Term) :
    Op.Lossless (a.linearizeConstraint cfg c) fun c' => ∀ e, c.expr.Linear e →
      c' = ⟨e, c.rel, c.modulus⟩ := by
  unfold linearizeConstraint
  refine (linearize_lossless cfg a c.expr).bind fun e => (Op.lossless_lift _).imp ?_
  intro c' made same e' linear
  obtain rfl := same e' linear
  unfold Constraint.make at made
  split at made
  · contradiction
  · exact (Except.ok.inj made).symm

theorem meetTerm_lossless (exact : cfg.precision = .exact) (a : Parallelotope)
    (cs : List (Constraint Term)) :
    Op.Lossless (a.meetTerm cfg cs) fun b => a.Solid →
      (∀ c ∈ cs, ∃ e, c.expr.Linear e ∧ Constraint.Sharp ⟨e, c.rel, c.modulus⟩) → ∀ x : ℕ → K,
        b.Has x ↔ a.Has x ∧ ∀ c ∈ cs, ∃ v, c.expr.Takes x v ∧ c.rel.HoldsOf c.modulus v := by
  unfold meetTerm
  by_cases bottom : a.isBottom
  · simp only [if_pos bottom]
    have empty : ∀ x : ℕ → K, ¬ a.Has x := not_has_of_none (by simpa [isBottom] using bottom)
    exact Op.lossless_pure fun _ _ x => by simp [empty]
  simp only [if_neg bottom]
  refine (Op.lossless_mapM cs fun c => linearizeConstraint_lossless cfg a c).bind fun cs' => ?_
  refine (meetSharp_lossless (K := K) exact a cs').imp fun b met found ha sharp x => ?_
  -- Each constraint was made from a linear term, so it has the form that is given for it.
  have sharp' : ∀ c' ∈ cs', c'.Sharp := by
    intro c' hc'
    obtain ⟨c, hc, same⟩ := exists_of_mem_right found hc'
    obtain ⟨e, linear, sharp⟩ := sharp c hc
    exact same e linear ▸ sharp
  obtain ⟨denotes, scalars⟩ := met ha sharp'
  rw [denotes.has x]
  constructor
  · rintro ⟨has, holds⟩
    -- Some point is left, so the coefficients are rational and the terms take no other values.
    have left : b.isBottom = false := by
      obtain ⟨f, hf, -⟩ := (denotes.has x).mpr ⟨has, holds⟩
      simp [isBottom, hf]
    refine ⟨has, fun c hc => ?_⟩
    obtain ⟨c', hc', same⟩ := exists_of_mem_right found.flip hc
    obtain ⟨e, linear, -⟩ := sharp c hc
    obtain rfl := same e linear
    obtain ⟨v, takes, relates⟩ := holds _ hc'
    exact ⟨v, (linear.takes_iff (scalars left _ hc')).mpr takes, relates⟩
  · rintro ⟨has, holds⟩
    refine ⟨has, fun c' hc' => ?_⟩
    obtain ⟨c, hc, same⟩ := exists_of_mem_right found hc'
    obtain ⟨e, linear, -⟩ := sharp c hc
    obtain rfl := same e linear
    obtain ⟨v, takes, relates⟩ := holds c hc
    exact ⟨v, linear.reflects.takes x v takes, relates⟩

/-! ## Marked results -/

/-- Without rounding, over real dimensions and ranges that hold a rational each, a result that is
returned with the mark set has exactly the points of the target that
* a substitution takes into the value, if it separates the constants of its affine expressions;
* an assignment of linear terms takes points of the value to;
* a substitution of such terms takes into the value, if it separates their constants;

and an intersection with constraints on linear terms that the mark is meant for has exactly the points
of the value that satisfy them. -/
theorem marked_transfers_exact (cfg : Settings) (exact : cfg.precision = .exact) {a : Parallelotope}
    (ha : a.Solid) {target : Target} (ht : target.WellFormed) (solid : target.Solid) (dims : List ℕ) :
    (∀ exprs : List Affine, (∀ f, a.frame? = some f → f.Separates dims exprs) →
      (a.substituteAffine cfg (dims.map fun d : ℕ => .int d) exprs target).Exactly fun b =>
        ∀ x : ℕ → K, b.Has x ↔ (∃ vs, List.Forall₂ (fun e v => e.Takes x v) exprs vs ∧
          a.Has (assigned x dims vs)) ∧ target.Permits x) ∧
    (∀ terms forms, List.Forall₂ Term.Linear terms forms →
      ((a.assignTerm cfg (dims.map fun d : ℕ => .int d) terms target).Exactly fun b =>
        ∀ y : ℕ → K, b.Has y ↔ (∃ x vs, a.Has x ∧ List.Forall₂ (fun t v => t.Takes x v) terms vs ∧
          ∀ i < a.space.size, y i = assigned x dims vs i) ∧ target.Permits y) ∧
      ((∀ f, a.frame? = some f → f.Separates dims forms) →
        (a.substituteTerm cfg (dims.map fun d : ℕ => .int d) terms target).Exactly fun b =>
          ∀ x : ℕ → K, b.Has x ↔ (∃ vs, List.Forall₂ (fun t v => t.Takes x v) terms vs ∧
            a.Has (assigned x dims vs)) ∧ target.Permits x)) ∧
    ∀ cs : List (Constraint Term),
      (∀ c ∈ cs, ∃ e, c.expr.Linear e ∧ Constraint.Sharp ⟨e, c.rel, c.modulus⟩) →
      (a.meetTerm cfg cs).Exactly fun b => ∀ x : ℕ → K, b.Has x ↔
        a.Has x ∧ ∀ c ∈ cs, ∃ v, c.expr.Takes x v ∧ c.rel.HoldsOf c.modulus v := by
  refine ⟨fun exprs separates => ?_, fun terms forms linear => ⟨?_, fun separates => ?_⟩, fun cs sharp => ?_⟩
  · exact ((substituteAffine_lossless exact a dims exprs target).imp fun b substituted =>
      (substituted ha ht solid separates).2).exactly
  · refine ((assignTerm_lossless (K := K) exact a _ terms target).imp fun b image => ?_).exactly
    obtain ⟨dims', named, has⟩ := image ha ht solid forms linear
    obtain rfl := Datum.map_int_injective named
    exact has
  · exact ((substituteTerm_lossless exact a dims terms target).imp fun b substituted =>
      substituted ha ht solid forms linear separates).exactly
  · exact ((meetTerm_lossless exact a cs).imp fun b met => met ha sharp).exactly

/-- Anything from `0` to `1`. -/
def unitSample : Interval := ⟨.fin 0, .fin 1⟩

/-- `(2 · x) / 4`, less up to one. -/
def slopeSample : Term :=
  .bin .sub (.bin .div (.bin .mul (.const (.point 2)) (.var 0)) (.const (.point 4))) (.const unitSample)

def slopeForm : Affine :=
  (((Affine.var 0 (.point 1)).scale (.point 2)).scale ((Interval.point 1).div .exact (.point 4))).sub
    (.constant unitSample)

theorem slopeSample_linear : slopeSample.Linear slopeForm := by
  have doubled : Term.Linear (.bin .mul (.const (.point 2)) (.var 0))
      ((Affine.var 0 (.point 1)).scale (.point 2)) :=
    .mulLeft (.const (by decide +kernel)) (.var 0) (by decide +kernel) rfl
  have divided : Term.Linear (.bin .div (.bin .mul (.const (.point 2)) (.var 0)) (.const (.point 4))) _ :=
    .div doubled (.const (by decide +kernel)) rfl (by decide +kernel) (by decide +kernel)
  exact .sub divided (.const (by decide +kernel))

/-- The first row of the sample is the only one that mentions `x`. -/
theorem leaningSample_separates (e : Affine) (filled : e.const.Filled) :
    ∀ f, leaningSample.frame? = some f → f.Separates [0] [e] := by
  intro f hf p hp
  obtain rfl := Option.some.inj hf
  obtain rfl : p = (0, e) := by simpa using hp
  refine ⟨filled, .inr ?_⟩
  have first : ∀ i, Frame.Restricts ⟨[[1, 1], [0, 1]], [⟨.fin 0, .fin (5 / 2)⟩, ⟨.fin (1 / 4), .posInf⟩],
      none⟩ 0 i → i = 0 := by
    rintro (_ | _ | i) ⟨mentioned, -⟩
    · rfl
    · exact absurd rfl mentioned
    · exact absurd rfl mentioned
  intro i j hi hj
  rw [first i hi, first j hj]

/-- Half of `y`, taken from anything from `0` to `1`. -/
def halfSample : Term := .bin .sub (.const unitSample) (.bin .div (.var 1) (.const (.point 2)))

def halfForm : Affine :=
  (Affine.constant unitSample).sub
    ((Affine.var 1 (.point 1)).scale ((Interval.point 1).div .exact (.point 2)))

theorem halfSample_linear : halfSample.Linear halfForm := by
  have halved : Term.Linear (.bin .div (.var 1) (.const (.point 2))) _ :=
    .div (.var 1) (.const (by decide +kernel)) rfl (by decide +kernel) (by decide +kernel)
  exact .sub (.const (by decide +kernel)) halved

/-- A constant that is no number reaches one row of the sample in the substitutions; the assignment
forgets `x` first, and the constraint cuts off a part. -/
theorem marked_transfers_exact_sample :
    leaningSample.Solid ∧ slopeSample.Linear slopeForm ∧ halfSample.Linear halfForm ∧
    (∀ f, leaningSample.frame? = some f → f.Separates [0] [slopeForm]) ∧
    (∃ b report, (leaningSample.substituteAffine {} [.int 0] [slopeForm] .none).start = (.ok b, report) ∧
      report.exact = true ∧ ∀ x : ℕ → ℚ, b.Has x ↔
        (∃ vs, List.Forall₂ (fun e v => e.Takes x v) [slopeForm] vs ∧
          leaningSample.Has (assigned x [0] vs)) ∧ Target.none.Permits x) ∧
    (∃ b report, (leaningSample.substituteTerm {} [.int 0] [slopeSample] .none).start = (.ok b, report) ∧
      report.exact = true ∧ ∀ x : ℕ → ℚ, b.Has x ↔
        (∃ vs, List.Forall₂ (fun t v => t.Takes x v) [slopeSample] vs ∧
          leaningSample.Has (assigned x [0] vs)) ∧ Target.none.Permits x) ∧
    (∃ b report, (leaningSample.assignTerm {} [.int 0] [halfSample] .none).start = (.ok b, report) ∧
      report.exact = true ∧ ∀ y : ℕ → ℚ, b.Has y ↔
        (∃ x vs, leaningSample.Has x ∧ List.Forall₂ (fun t v => t.Takes x v) [halfSample] vs ∧
          ∀ i < 2, y i = assigned x [0] vs i) ∧ Target.none.Permits y) ∧
    ∃ b report, (leaningSample.meetTerm {} [⟨halfSample, .ge, none⟩]).start = (.ok b, report) ∧
      report.exact = true ∧ ∀ x : ℕ → ℚ, b.Has x ↔ leaningSample.Has x ∧
        ∀ c ∈ [(⟨halfSample, .ge, none⟩ : Constraint Term)],
          ∃ v, c.expr.Takes x v ∧ c.rel.HoldsOf c.modulus v := by
  have separates : ∀ f, leaningSample.frame? = some f → f.Separates [0] [slopeForm] :=
    leaningSample_separates slopeForm (by decide +kernel)
  have sharp : Constraint.Sharp ⟨halfForm, .ge, none⟩ := ⟨by decide +kernel, nofun, nofun⟩
  have target : Target.none.WellFormed := trivial
  obtain ⟨affine, terms, constraints⟩ :=
    marked_transfers_exact (K := ℚ) {} rfl leaningSample_solid target trivial [0]
  have slopes := terms [slopeSample] [slopeForm] (.cons slopeSample_linear .nil)
  have halves := terms [halfSample] [halfForm] (.cons halfSample_linear .nil)
  have cuts := constraints [⟨halfSample, .ge, none⟩] (by simpa using ⟨halfForm, halfSample_linear, sharp⟩)
  refine ⟨leaningSample_solid, slopeSample_linear, halfSample_linear, separates, ?_, ?_, ?_, ?_⟩
  · exact (affine [slopeForm] separates).exists_marked (by decide +kernel)
  · exact (slopes.2 separates).exists_marked (by decide +kernel)
  · exact halves.1.exists_marked (by decide +kernel)
  · exact cuts.exists_marked (by decide +kernel)

/-- The points with `0 ≤ x ≤ 1` and `0 ≤ x + y ≤ 1`. -/
def shearSample : Parallelotope :=
  ⟨⟨0, 2⟩, some ⟨[[1, 0], [1, 1]], [unitSample, unitSample], none⟩⟩

/-- The points with `x = 0` and `0 ≤ y ≤ 4`. -/
def edgeSample : Parallelotope :=
  ⟨⟨0, 2⟩, some ⟨[[1, 0], [0, 1]], [.point 0, ⟨.fin 0, .fin 4⟩], none⟩⟩

theorem shearSample_solid : shearSample.Solid := by
  refine solid_mk ⟨rfl, Frame.regular_of_invert? ⟨rfl, by decide⟩ rfl ?_, ?_⟩
  · decide +kernel
  · decide +kernel

theorem edgeSample_solid : edgeSample.Solid := by
  refine solid_mk ⟨rfl, Frame.regular_of_invert? ⟨rfl, by decide⟩ rfl ?_, ?_⟩
  · decide +kernel
  · decide +kernel

/-- The points with `-1 ≤ x ≤ 1` and `-1 ≤ x + y ≤ 1`. -/
def widerSample : Parallelotope :=
  ⟨⟨0, 2⟩, some ⟨[[1, 0], [1, 1]], [⟨.fin (-1), .fin 1⟩, ⟨.fin (-1), .fin 1⟩], none⟩⟩

/-- The wider sample has the point `(-1, 2)`, which no value for `x` takes into the other, whatever is
substituted. -/
theorem widerSample_not_source {α : Type} (takes : α → (ℕ → ℚ) → ℚ → Prop) (e : α) :
    ¬ ∀ x : ℕ → ℚ, widerSample.Has x ↔ ∃ vs, List.Forall₂ (fun e v => takes e x v) [e] vs ∧
      shearSample.Has (assigned x [0] vs) := by
  intro source
  have inside : widerSample.Has fun d => if d = 0 then (-1 : ℚ) else 2 := by
    refine ⟨_, rfl, ?_⟩
    norm_num [Frame.Has, Frame.rows, Interval.Has]
  obtain ⟨vs, values, f, hf, has⟩ := (source _).mp inside
  obtain rfl := Option.some.inj hf
  cases values with
  | @cons _ v _ _ _ rest =>
    cases rest
    have rows : (0 ≤ v ∧ v ≤ 1) ∧ 0 ≤ v + 2 ∧ v + 2 ≤ 1 := by
      simpa [Frame.Has, Frame.rows, unitSample, Interval.Has, assigned_cons, assigned_of_not_mem] using has
    linarith [rows.1.1, rows.2.2]

/-- Results that are marked exact and have points that they should not have.  A constant that may be
several numbers is chosen for one row and again for the other; the root of `y` is replaced by a range. -/
theorem unreported_losses :
    shearSample.Solid ∧ edgeSample.Solid ∧
    (¬ (shearSample.substituteAffine {} [.int 0] [.make [(0, .point 1)] unitSample] .none).Exactly fun b =>
      ∀ x : ℕ → ℚ, b.Has x ↔ ∃ vs, List.Forall₂ (fun e v => e.Takes x v)
        [Affine.make [(0, .point 1)] unitSample] vs ∧ shearSample.Has (assigned x [0] vs)) ∧
    (¬ (shearSample.substituteTerm {} [.int 0] [.bin .add (.var 0) (.const unitSample)] .none).Exactly fun b =>
      ∀ x : ℕ → ℚ, b.Has x ↔ ∃ vs, List.Forall₂ (fun t v => t.Takes x v)
        [Term.bin .add (.var 0) (.const unitSample)] vs ∧ shearSample.Has (assigned x [0] vs)) ∧
    (¬ (edgeSample.assignTerm {} [.int 0] [.un .sqrt (.var 1)] .none).Exactly fun b =>
      ∀ y : ℕ → ℚ, b.Has y ↔ ∃ x vs, edgeSample.Has x ∧ List.Forall₂ (fun t v => t.Takes x v)
        [Term.un .sqrt (.var 1)] vs ∧ ∀ i < 2, y i = assigned x [0] vs i) ∧
    ¬ (edgeSample.meetTerm {} [⟨.bin .sub (.un .sqrt (.var 1)) (.const (.point 2)), .eq, none⟩]).Exactly
      fun b => ∀ x : ℕ → ℚ, b.Has x ↔ edgeSample.Has x ∧
        ∃ v, Term.Takes (.bin .sub (.un .sqrt (.var 1)) (.const (.point 2))) x v ∧ v = 0 := by
  refine ⟨shearSample_solid, edgeSample_solid, fun exactly => ?_, fun exactly => ?_, fun exactly => ?_,
    fun exactly => ?_⟩
  · have returns : (shearSample.substituteAffine {} [.int 0] [.make [(0, .point 1)] unitSample]
        .none).start.1 = .ok widerSample := by decide +kernel
    exact widerSample_not_source (fun (e : Affine) x v => e.Takes x v) _
      (exactly _ _ (Prod.ext returns rfl) (by decide +kernel))
  · have returns : (shearSample.substituteTerm {} [.int 0] [.bin .add (.var 0) (.const unitSample)]
        .none).start.1 = .ok widerSample := by decide +kernel
    exact widerSample_not_source (fun (t : Term) x v => t.Takes x v) _
      (exactly _ _ (Prod.ext returns rfl) (by decide +kernel))
  · have returns : (edgeSample.assignTerm {} [.int 0] [.un .sqrt (.var 1)] .none).start.1 = .ok ⟨⟨0, 2⟩,
        some ⟨[[1, 0], [0, 1]], [⟨.fin 0, .fin 2⟩, ⟨.fin 0, .fin 4⟩], some [[1, 0], [0, 1]]⟩⟩ := by
      decide +kernel
    -- The result has `(0, 4)`, but zero is not the root of four.
    obtain ⟨x, vs, -, takes, values⟩ := (exactly _ _ (Prod.ext returns rfl) (by decide +kernel)
      fun d => if d = 0 then 0 else 4).mp ⟨_, rfl, by norm_num [Frame.Has, Frame.rows, Interval.Has]⟩
    cases takes with
    | @cons _ v _ _ root rest =>
      cases rest
      obtain ⟨_, rfl, -, square⟩ := root
      have zero : 0 = v := by simpa [assigned_cons] using values 0 (by norm_num)
      have four : 4 = x 1 := by simpa [assigned_of_not_mem] using values 1 (by norm_num)
      rw [← zero, ← four] at square
      norm_num at square
  · have returns : (edgeSample.meetTerm {} [⟨.bin .sub (.un .sqrt (.var 1)) (.const (.point 2)), .eq,
        none⟩]).start.1 = .ok ⟨⟨0, 2⟩, some ⟨[[1, 0], [0, 1]], [⟨.fin 0, .fin 0⟩, ⟨.fin 0, .fin 4⟩],
          some [[1, 0], [0, 1]]⟩⟩ := by
      decide +kernel
    -- The result has the origin, where the root of `y` is not two.
    obtain ⟨-, _, ⟨root, two, ⟨_, rfl, -, square⟩, constant, rfl⟩, zero⟩ :=
      (exactly _ _ (Prod.ext returns rfl) (by decide +kernel) fun _ => 0).mp
        ⟨_, rfl, by norm_num [Frame.Has, Frame.rows, Interval.Has]⟩
    have two : two = 2 := by simpa using Interval.point_has.mp constant
    have root : root = 0 := by simpa using square
    rw [root, two] at zero
    norm_num at zero

end Parallelotope

end SkewBox
