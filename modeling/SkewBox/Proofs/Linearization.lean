import SkewBox.Proofs.Bounds
import SkewBox.Proofs.Meet

/-!
# Linearised terms

The affine expression that stands for a term over a value mentions dimensions of the term only, so
its range can be asked for, and every value of the term comes from a choice of coefficients.

* `Affine.Over`: the dimensions that an expression mentions.
* `Parallelotope.linearization_keeps_values`: linearisation and range lose no value of a term.
-/

namespace SkewBox

variable {K : Type*} [Field K] [LinearOrder K]

/-! ## Dimensions -/

/-- The keys of entries that are put one after the other, each with a value that may depend on the
entries so far. -/
theorem Entries.keys_foldl {β : Type} {step : List (ℕ × β) → ℕ × β → List (ℕ × β)}
    (puts : ∀ acc d c, ∃ c', step acc (d, c) = put acc d c') {entries acc : List (ℕ × β)} {ds : List ℕ}
    (old : acc.map (·.1) ⊆ ds) (new : entries.map (·.1) ⊆ ds) :
    (entries.foldl step acc).map (·.1) ⊆ ds := by
  induction entries generalizing acc with
  | nil => exact old
  | cons entry entries ih =>
    rw [List.map_cons, List.cons_subset] at new
    apply ih _ new.2
    intro d member
    obtain ⟨c', step_eq⟩ := puts acc entry.1 entry.2
    rw [step_eq] at member
    cases mem_keys_put.mp member with
    | inl same => exact same ▸ new.1
    | inr earlier => exact old earlier

namespace Affine

variable {e f : Affine} {ds : List ℕ}

/-- The expression mentions dimensions of the list only. -/
def Over (e : Affine) (ds : List ℕ) : Prop := e.terms.map (·.1) ⊆ ds

theorem make_over {terms : List (ℕ × Interval)} {const : Interval} (h : terms.map (·.1) ⊆ ds) :
    (make terms const).Over ds := by
  have collected : (Entries.collect terms).map (·.1) ⊆ ds :=
    Entries.keys_foldl (fun _ _ c => ⟨c, rfl⟩) (List.nil_subset ds) h
  have kept := (List.filter_sublist (p := fun t => !t.2.isZero) (l := Entries.collect terms)).map (·.1)
  exact List.Subset.trans kept.subset collected

theorem constant_over {I : Interval} : (constant I).Over ds := List.nil_subset ds

theorem negate_over (h : e.Over ds) : e.negate.Over ds := by
  apply make_over
  rw [List.map_map]
  exact h

theorem scale_over {I : Interval} (h : e.Over ds) : (e.scale I).Over ds := by
  apply make_over
  rw [List.map_map]
  exact h

theorem add_over (he : e.Over ds) (hf : f.Over ds) : (e.add f).Over ds :=
  make_over (Entries.keys_foldl (fun _ _ _ => ⟨_, rfl⟩) he hf)

theorem sub_over (he : e.Over ds) (hf : f.Over ds) : (e.sub f).Over ds :=
  add_over he (negate_over hf)

theorem Over.mono {ds' : List ℕ} (h : e.Over ds) (sub : ds ⊆ ds') : e.Over ds' :=
  List.Subset.trans h sub

end Affine

/-- A sum of terms as a sum over the whole space, where a dimension that is not mentioned has the
coefficient zero. -/
theorem TermsTake.exists_coeffs {terms : List (ℕ × Interval)} {x : ℕ → K} {v : K} {n : ℕ}
    (h : TermsTake terms x v) (distinct : (terms.map (·.1)).Nodup)
    (inside : ∀ t ∈ terms, t.1 < n) :
    ∃ c : ℕ → K, (∀ i, ((terms.lookup i).getD .zero).Has (c i)) ∧
      v = ∑ i ∈ Finset.range n, c i * x i := by
  induction terms generalizing v with
  | nil =>
    refine ⟨0, fun i => Interval.zero_has, ?_⟩
    simpa [TermsTake] using h
  | cons term terms ih =>
    obtain ⟨d, I⟩ := term
    obtain ⟨t, w, ht, hw, rfl⟩ := h
    obtain ⟨fresh, distinct⟩ := List.nodup_cons.mp distinct
    obtain ⟨first, inside⟩ := List.forall_mem_cons.mp inside
    obtain ⟨c, members, rfl⟩ := ih hw distinct inside
    -- The rest does not mention `d`, so the coefficient that it has there is zero.
    have unmentioned : terms.lookup d = none := by
      rw [List.lookup_eq_none_iff]
      intro t ht
      rw [bne_iff_ne]
      rintro rfl
      exact fresh (List.mem_map.mpr ⟨t, ht, rfl⟩)
    have zero : c d = 0 := by
      have member := members d
      rw [unmentioned] at member
      exact member.eq_zero rfl
    refine ⟨fun i => c i + if i = d then t else 0, fun i => ?_, ?_⟩
    · by_cases same : i = d
      · subst same
        simpa [zero] using ht
      · simpa [List.lookup_cons, same, beq_eq_false_iff_ne.mpr same] using members i
    · simp [add_mul, Finset.sum_add_distrib, first, add_comm]

theorem Affine.Takes.exists_coeffs {e : Affine} {x : ℕ → K} {v : K} {n : ℕ} (h : e.Takes x v)
    (inside : ∀ t ∈ e.terms, t.1 < n) :
    ∃ (c : ℕ → K) (k : K), (∀ i, (e.coeff i).Has (c i)) ∧ e.const.Has k ∧
      v = ∑ i ∈ Finset.range n, c i * x i + k := by
  obtain ⟨s, k, hs, hk, rfl⟩ := h
  obtain ⟨c, members, rfl⟩ := hs.exists_coeffs e.distinct inside
  exact ⟨c, k, members, hk, rfl⟩

namespace Term

theorem mem_dims_bin {op : BinOp} {left right : Term} {d : ℕ} :
    d ∈ (bin op left right).dims ↔ d ∈ left.dims ∨ d ∈ right.dims := by
  by_cases there : d ∈ left.dims <;> simp [dims, union, there]

theorem le_maxDim {t : Term} {d : ℕ} (h : d ∈ t.dims) : (d : ℤ) ≤ t.maxDim :=
  le_foldl_max (.inr (List.mem_map.mpr ⟨d, h, rfl⟩))

theorem maxDim_lt {t : Term} {n : ℕ} (inside : ∀ d ∈ t.dims, d < n) : t.maxDim < n := by
  apply foldl_max_lt (by omega)
  intro d member
  obtain ⟨i, hi, rfl⟩ := List.mem_map.mp member
  exact Int.ofNat_lt.mpr (inside i hi)

variable {W : Parallelotope → Prop} {bound : Affine → Op Interval}

/-- The parts of the term that a square root is taken of. -/
def roots : Term → List Term
  | const _ | var _ => []
  | un .sqrt arg => arg :: arg.roots
  | un _ arg => arg.roots
  | bin _ left right => left.roots ++ right.roots

theorem dims_of_mem_roots {t u : Term} (h : u ∈ t.roots) : u.dims ⊆ t.dims := by
  induction t with
  | const _ | var _ => simp [roots] at h
  | un op arg ih =>
    cases op with
    | sqrt =>
      rcases List.mem_cons.mp h with rfl | deeper
      · exact List.Subset.refl _
      · exact ih deeper
    | neg | cast => exact ih h
  | bin op left right ihl ihr =>
    intro d hd
    rcases List.mem_append.mp h with first | second
    · exact mem_dims_bin.mpr (.inl (ihl first hd))
    · exact mem_dims_bin.mpr (.inr (ihr second hd))

/-- Whatever ranges are given for the parts, only dimensions of the term appear.  Linearisation fails where
a range is not found, or at the root of a range. -/
theorem linearize_ends {E : Error → Prop} {ds : List ℕ}
    (hbound : ∀ e : Affine, e.Over ds → Op.Ends W W E (bound e) fun _ => True) {t : Term}
    (hroots : ∀ u ∈ t.roots, ∀ (I : Interval) (e : Error),
      (∃ r, ((u.linearize bound >>= bound) r).1 = .ok I) → I.sqrt = .error e → E e) (sub : t.dims ⊆ ds) :
    Op.Ends W W E (t.linearize bound) fun e : Affine => e.Over ds := by
  induction t with
  | const I => exact Op.ends_pure Affine.constant_over
  | var d => exact Op.ends_pure (Affine.make_over sub)
  | un op arg ih =>
    cases op with
    | neg => exact (ih hroots sub).bind fun e he => Op.ends_pure (Affine.negate_over he)
    | sqrt =>
      have inner := ih (fun u hu => hroots u (List.mem_cons_of_mem _ hu)) sub
      -- The range is the result of a run of its own, which the cause of a failure speaks of.
      have range := (inner.bind fun e he => hbound e he).ran
      rw [linearize, ← bind_assoc]
      refine range.bind fun I ran => ?_
      cases root : I.sqrt with
      | ok J => exact Op.ends_pure Affine.constant_over
      | error e => exact Op.ends_throw (hroots arg (List.mem_cons_self ..) I e ran root)
    | cast =>
      refine (ih hroots sub).bind fun e he => (hbound e he).bind fun I _ => ?_
      exact Op.ends_pure Affine.constant_over
  | bin op left right ihl ihr =>
    have first := ihl (fun u hu => hroots u (List.mem_append_left _ hu))
      fun d h => sub (mem_dims_bin.mpr (.inl h))
    have second := ihr (fun u hu => hroots u (List.mem_append_right _ hu))
      fun d h => sub (mem_dims_bin.mpr (.inr h))
    rw [linearize]
    refine first.bind fun e he => second.bind fun f hf => ?_
    -- What is not affine becomes a constant, computed from the ranges of both sides.
    have ranges : ∀ g : Interval → Interval → Interval, Op.Ends W W E (do
        let I ← bound e
        let J ← bound f
        return Affine.constant (g I J)) fun e : Affine => e.Over ds := fun g =>
      (hbound e he).bind fun I _ => (hbound f hf).bind fun J _ => Op.ends_pure Affine.constant_over
    cases op with
    | add => exact Op.ends_pure (Affine.add_over he hf)
    | sub => exact Op.ends_pure (Affine.sub_over he hf)
    | mul =>
      show Op.Ends W W E (linearMul bound e f) _
      unfold linearMul
      split
      · exact Op.ends_pure (Affine.scale_over he)
      · split
        · exact Op.ends_pure (Affine.scale_over hf)
        · exact (hbound f hf).bind fun I _ => Op.ends_pure (Affine.scale_over he)
    | div =>
      show Op.Ends W W E (linearDiv bound e f) _
      unfold linearDiv
      split
      · exact Op.ends_pure (Affine.scale_over he)
      · exact ranges (Interval.div .exact)
    | rem => exact ranges Interval.rem
    | pow => exact ranges Interval.pow

end Term

/-! ## Values -/

namespace Parallelotope

variable [IsStrictOrderedRing K] {a : Parallelotope} {cfg : Settings} {W : Parallelotope → Prop}
  {e : Affine}

theorem linearize_inside (regular : a.Shaped False) (t : Term) :
    Op.Meets W W True (a.linearize cfg t) fun e => ∀ u ∈ e.terms, u.1 < a.space.size := by
  unfold linearize
  split
  · exact Op.meets_throw _ trivial
  · rename_i fits
    have bounded : ∀ e, Op.Meets W W True (a.boundAffine cfg e) fun _ => True := fun e =>
      (boundAffine_meets (K := ℚ) regular fun _ => trivial).imp fun _ _ => trivial
    have mentions : Op.Meets W W True (t.linearize (a.boundAffine cfg)) (·.Over t.dims) :=
      Term.linearize_ends (fun e _ => bounded e) (fun _ _ _ _ _ _ => trivial) (List.Subset.refl _)
    refine mentions.imp fun e he u hu => ?_
    have bound := Term.le_maxDim (he (List.mem_map_of_mem hu))
    omega

/-- Let a term take the value `v` at a point of integers of the value, and let `form` be the term
linearised over the value.  Then some choice of its coefficients and its constant gives `v`, and the
range of the term is found and holds `v`. -/
theorem linearization_keeps_values (cfg : Settings) {a : Parallelotope} {t : Term} {form : Affine}
    {report : Report} {x : ℕ → K} {v : K} (ha : a.WellFormed) (hx : a.space.Admits x ∧ a.Has x)
    (value : t.Takes x v) (linear : (a.linearize cfg t).start = (.ok form, report)) :
    (∃ (c : ℕ → K) (k : K), (∀ i, (form.coeff i).Has (c i)) ∧ form.const.Has k ∧
      v = ∑ i ∈ Finset.range a.space.size, c i * x i + k) ∧
    (a.boundTerm cfg t).Yields (·.Has v) := by
  have regular : a.Shaped False := ha.weaken
  have inside := (linearize_inside (W := fun _ => True) regular t).of_start linear
  have takes : form.Takes x v :=
    (linearize_meets (W := fun _ => True) regular t).of_start linear x hx v value
  constructor
  · exact takes.exists_coeffs inside
  · have bounded := boundAffine_total (K := K) (W := fun _ => True) cfg regular inside
    have filled : a.isBottom = false := by
      obtain ⟨f, hf, -⟩ := hx.2
      simp [isBottom, hf]
    unfold boundTerm
    rw [filled]
    exact Op.Meets.yields_bind linear (bounded.imp fun I hI => hI x hx v takes)

/-- At the point `(1, 1)` the product of `y` with its root, and half of `y` converted to an integer,
may add up to `2`. -/
theorem linearization_keeps_values_sample :
    ∃ form report, (slantedSample.linearize {} (.bin .add (.bin .mul (.var 1) (.un .sqrt (.var 1)))
        (.un .cast (.bin .div (.var 1) (.const (.point 2)))))).start = (.ok form, report) ∧
      (∃ (c : ℕ → ℚ) (k : ℚ), (∀ i, (form.coeff i).Has (c i)) ∧ form.const.Has k ∧
        2 = ∑ i ∈ Finset.range 2, c i * 1 + k) ∧
      (slantedSample.boundTerm {} (.bin .add (.bin .mul (.var 1) (.un .sqrt (.var 1)))
        (.un .cast (.bin .div (.var 1) (.const (.point 2)))))).Yields (·.Has (2 : ℚ)) := by
  have point : slantedSample.space.Admits (fun _ => (1 : ℚ)) ∧ slantedSample.Has fun _ => (1 : ℚ) := by
    refine ⟨fun _ _ => ⟨1, by simp⟩, _, rfl, ?_⟩
    norm_num [Frame.Has, Frame.rows, Interval.Has]
  have product : Term.Takes (.bin .mul (.var 1) (.un .sqrt (.var 1))) (fun _ => (1 : ℚ)) 1 :=
    ⟨1, 1, rfl, ⟨1, rfl, by norm_num [UnOp.Takes]⟩, by norm_num [BinOp.Takes]⟩
  have converted : Term.Takes (.un .cast (.bin .div (.var 1) (.const (.point 2))))
      (fun _ => (1 : ℚ)) 1 :=
    ⟨1 / 2, ⟨1, 2, rfl, by norm_num [Term.Takes], by norm_num [BinOp.Takes]⟩, 1,
      by norm_num⟩
  obtain ⟨form, report, linear⟩ := Op.exists_start_eq (x := slantedSample.linearize {}
    (.bin .add (.bin .mul (.var 1) (.un .sqrt (.var 1)))
      (.un .cast (.bin .div (.var 1) (.const (.point 2)))))) (by decide +kernel)
  exact ⟨form, report, linear, linearization_keeps_values {} slantedSample_wellFormed point
    ⟨1, 1, product, converted, by norm_num [BinOp.Takes]⟩ linear⟩

end Parallelotope

end SkewBox
