import SkewBox.Proofs.Linearization
import SkewBox.Proofs.UnitLaws

/-!
# Terms of affine expressions

The term of an affine expression takes the variables in increasing order, leaves out the coefficient
one and the constant zero, and is read back by linearisation.  On the way every coefficient is
multiplied by one and the constant is added to zeros, which changes no interval but an empty one, and
no variable comes twice.

* `Term.LinearizesTo`: terms that are linearised without asking for a range.
* `Term.Spells`, `Term.ofAffine_spells`: the term of an expression, read from left to right.
* `Term.affine_terms_read_back`: an expression and what is read from its term.
-/

namespace SkewBox

theorem Entries.lookup_of_mem {α β : Type} [BEq α] [LawfulBEq α] {entries : List (α × β)}
    (distinct : (entries.map (·.1)).Nodup) {entry : α × β} (mem : entry ∈ entries) :
    entries.lookup entry.1 = some entry.2 := by
  obtain ⟨front, back, rfl⟩ := List.append_of_mem mem
  rw [List.lookup_eq_some_iff]
  refine ⟨front, back, rfl, fun other hother => ?_⟩
  rw [List.map_append, List.map_cons, List.nodup_append] at distinct
  have apart := distinct.2.2 other.1 (List.mem_map_of_mem hother) entry.1 (List.mem_cons_self ..)
  simpa using Ne.symm apart

/-! ## One and zero -/

namespace Interval

variable {I : Interval}

theorem eq_zero_of_isZero (zero : I.isZero) : I = .zero := by
  obtain ⟨lo, hi⟩ := I
  simpa [isZero, Interval.zero, point] using zero

theorem one_mul_exact (nonempty : I.isBottom = false) : (point 1).mul .exact I = I := by
  have product : ∀ r b, Precision.exact.mul r (.fin 1) b = b := by
    intro r b
    rw [Precision.mul_fin_one]
    cases b <;> rfl
  have one : (point 1).isBottom = false := by decide
  have one' : (point 1).isZero = false := by decide
  unfold mul
  rw [one, one', nonempty]
  by_cases zero : I.isZero
  · simpa [zero] using (eq_zero_of_isZero zero).symm
  · -- The sign of the second factor makes no difference, since the ends of the first are the same.
    simp [zero, point, product]

theorem zero_mul_exact (nonempty : I.isBottom = false) : zero.mul .exact I = zero := by
  have zero' : zero.isBottom = false := by decide
  have isZero : zero.isZero = true := by decide
  simp [mul, zero', isZero, nonempty]

theorem zero_add_exact (nonempty : I.isBottom = false) : zero.add .exact I = I := by
  have sum : ∀ r b, Precision.exact.add r (.fin 0) b = b := by
    intro r b
    cases b <;> simp [Precision.add, Precision.roundRat]
  have zero' : zero.isBottom = false := by decide
  unfold add
  rw [zero', nonempty]
  simp [zero, point, sum]

end Interval

/-! ## Expressions -/

namespace Affine

variable {e f : Affine} {terms : List (ℕ × Interval)} {d : ℕ} {I c : Interval}

theorem eq_of_parts (terms : e.terms = f.terms) (const : e.const = f.const) : e = f := by
  cases e
  cases f
  simp_all

theorem coeff_of_mem {t : ℕ × Interval} (ht : t ∈ e.terms) : e.coeff t.1 = t.2 := by
  rw [coeff, coeff?, Entries.lookup_of_mem e.distinct ht]
  rfl

theorem coeff_of_not_mem (absent : d ∉ e.terms.map (·.1)) : e.coeff d = .zero := by
  rw [coeff, coeff?, Entries.lookup_eq_none_iff.mpr absent]
  rfl

theorem terms_make_of_distinct (I : Interval) (distinct : (terms.map (·.1)).Nodup) :
    (make terms I).terms = terms.filter fun (_, c) => !c.isZero := by
  simp only [make, Entries.collect_eq distinct]

theorem terms_make (I : Interval) (distinct : (terms.map (·.1)).Nodup)
    (nonzero : ∀ t ∈ terms, t.2.isZero = false) : (make terms I).terms = terms := by
  rw [terms_make_of_distinct I distinct, List.filter_eq_self]
  intro t ht
  simp [nonzero t ht]

theorem make_terms_make (I J : Interval) (distinct : (terms.map (·.1)).Nodup) :
    (make (make terms I).terms J).terms = (make terms I).terms := by
  apply terms_make J (make terms I).distinct
  intro t ht
  rw [terms_make_of_distinct I distinct] at ht
  simpa using (List.mem_filter.mp ht).2

theorem scale_var (d : ℕ) (nonempty : c.isBottom = false) : (var d (.point 1)).scale c = var d c := by
  have terms : (var d (.point 1)).terms = [(d, .point 1)] := rfl
  rw [scale, terms]
  apply eq_of_parts
  · simp only [List.map_cons, List.map_nil, Interval.one_mul_exact nonempty]
    rfl
  · exact Interval.zero_mul_exact nonempty

theorem make_add_var (distinct : ((terms ++ [(d, c)]).map (·.1)).Nodup) :
    (make terms .zero).add (var d c) = make (terms ++ [(d, c)]) .zero := by
  have earlier : (terms.map (·.1)).Nodup := distinct.sublist ((List.sublist_append_left ..).map _)
  have last : (var d c).terms = [(d, c)].filter fun (_, c) => !c.isZero :=
    terms_make_of_distinct .zero (by simp)
  have all : (make (terms ++ [(d, c)]) .zero).terms = (make terms .zero).terms ++ (var d c).terms := by
    rw [terms_make_of_distinct _ distinct, List.filter_append, terms_make_of_distinct _ earlier, last]
  -- The dimension is new, so its term is appended and no coefficient is added up.
  have fresh : d ∉ (make terms .zero).terms.map (·.1) := by
    rw [terms_make_of_distinct _ earlier]
    intro mem
    have mem : d ∈ terms.map (·.1) := (List.filter_sublist.map _).subset mem
    rw [List.map_append, List.nodup_append] at distinct
    exact distinct.2.2 d mem d (by simp) rfl
  apply eq_of_parts
  · rw [← make_terms_make .zero (Interval.zero.add .exact .zero) distinct, all, add]
    cases zero : c.isZero with
    | true =>
      have none : (var d c).terms = [] := by simp [last, zero]
      simp [none, make]
    | false =>
      have single : (var d c).terms = [(d, c)] := by simp [last, zero]
      simp only [single, List.foldl_cons, List.foldl_nil, Entries.lookup_eq_none_iff.mpr fresh,
        Entries.put_fresh fresh]
      rfl
  · exact Interval.zero_add_exact (I := .zero) (by decide)

theorem make_add_constant (distinct : (terms.map (·.1)).Nodup) (nonempty : I.isBottom = false) :
    (make terms .zero).add (.constant I) = make terms I := by
  apply eq_of_parts
  · exact make_terms_make .zero _ distinct
  · exact Interval.zero_add_exact nonempty

/-! ### The order of the terms -/

theorem map_coeff_keys (e : Affine) : (e.terms.map (·.1)).map (fun d => (d, e.coeff d)) = e.terms := by
  rw [List.map_map]
  nth_rewrite 2 [← List.map_id e.terms]
  apply List.map_congr_left
  intro t ht
  exact Prod.ext rfl (coeff_of_mem ht)

theorem sorted_perm (e : Affine) : e.sorted.Perm e.terms := by
  have sorted := (List.mergeSort_perm (e.terms.map (·.1)) (· ≤ ·)).map fun d => (d, e.coeff d)
  rw [map_coeff_keys] at sorted
  exact sorted

theorem keys_sorted (e : Affine) : e.sorted.map (·.1) = e.dims := by
  rw [sorted, List.map_map]
  exact List.map_id e.dims

theorem nodup_keys_sorted (e : Affine) : (e.sorted.map (·.1)).Nodup :=
  (e.sorted_perm.map (·.1)).nodup_iff.mpr e.distinct

theorem coeff_make_sorted (e : Affine) (I : Interval) (d : ℕ) : (make e.sorted I).coeff d = e.coeff d := by
  have terms := terms_make_of_distinct I e.nodup_keys_sorted
  by_cases kept : d ∈ (make e.sorted I).terms.map (·.1)
  · obtain ⟨t, ht, rfl⟩ := List.mem_map.mp kept
    have mem := (List.mem_filter.mp (terms ▸ ht)).1
    rw [coeff_of_mem ht, coeff_of_mem (e.sorted_perm.subset mem)]
  · rw [coeff_of_not_mem kept]
    by_cases mentioned : d ∈ e.terms.map (·.1)
    · -- A variable that is mentioned was left out for its coefficient.
      obtain ⟨t, ht, rfl⟩ := List.mem_map.mp mentioned
      by_contra other
      have nonzero : t.2.isZero = false := by
        by_contra zero
        rw [coeff_of_mem ht] at other
        exact other (Interval.eq_zero_of_isZero (by simpa using zero)).symm
      apply kept
      rw [terms]
      exact List.mem_map_of_mem (List.mem_filter.mpr ⟨e.sorted_perm.symm.subset ht, by simp [nonzero]⟩)
    · exact (coeff_of_not_mem mentioned).symm

theorem make_sorted_same (nonzero : ∀ t ∈ e.terms, t.2.isZero = false) :
    (make e.sorted e.const).same e := by
  have terms : (make e.sorted e.const).terms = e.sorted :=
    terms_make _ e.nodup_keys_sorted fun t ht => nonzero t (e.sorted_perm.subset ht)
  have dims : (make e.sorted e.const).dims = e.dims := by
    rw [Affine.dims, terms, keys_sorted]
    exact List.mergeSort_eq_self _ (List.pairwise_mergeSort' _ _)
  have sorted : (make e.sorted e.const).sorted = e.sorted := by
    rw [Affine.sorted, dims]
    simp only [coeff_make_sorted]
    rfl
  have const : (make e.sorted e.const).const = e.const := rfl
  simp [same, sorted, const]

end Affine

/-! ## Terms -/

namespace Term

variable {t l r : Term} {e f : Affine} {terms : List (ℕ × Interval)} {d : ℕ} {I c : Interval}

/-- However ranges are computed, the term is linearised to the expression without asking for one. -/
def LinearizesTo (t : Term) (e : Affine) : Prop :=
  ∀ (m : Type → Type) [Monad m] [LawfulMonad m] [MonadExceptOf Error m] (bound : Affine → m Interval),
    t.linearize bound = pure e

theorem LinearizesTo.add (hl : l.LinearizesTo e) (hr : r.LinearizesTo f) :
    (bin .add l r).LinearizesTo (e.add f) := by
  intro m _ _ _ bound
  rw [linearize, hl, hr]
  simp only [pure_bind]

theorem linearizesTo_ofCoeff (d : ℕ) (nonempty : c.isBottom = false) :
    (ofCoeff d c).LinearizesTo (.var d c) := by
  intro m _ _ _ bound
  unfold ofCoeff
  split
  · rename_i one
    rw [one]
    rfl
  · have varies : ¬ (Affine.var d (.point 1)).isConstant := Bool.false_ne_true
    have constant : (Affine.constant c).isConstant := rfl
    simp only [linearize, pure_bind, linearMul, if_neg varies, if_pos constant]
    exact congrArg pure (Affine.scale_var d nonempty)

/-- The term is read as the sum of the terms and a constant, and has no other variables. -/
structure Spells (t : Term) (terms : List (ℕ × Interval)) (I : Interval) : Prop where
  reads : t.LinearizesTo (.make terms I)
  dims : ∀ d ∈ t.dims, d ∈ terms.map (·.1)

theorem spells_const (I : Interval) : (const I).Spells [] I where
  reads _ _ _ _ _ := rfl
  dims := by simp [Term.dims]

theorem spells_coeff (d : ℕ) (nonempty : c.isBottom = false) : (ofCoeff d c).Spells [(d, c)] .zero where
  reads := linearizesTo_ofCoeff d nonempty
  dims := by
    unfold ofCoeff
    split
    · simp [Term.dims]
    · intro d' mem
      simpa [Term.dims] using mem_dims_bin.mp mem

theorem Spells.add (h : t.Spells terms .zero) (distinct : ((terms ++ [(d, c)]).map (·.1)).Nodup)
    (nonempty : c.isBottom = false) : (bin .add t (ofCoeff d c)).Spells (terms ++ [(d, c)]) .zero := by
  have last := spells_coeff d nonempty
  constructor
  · rw [← Affine.make_add_var distinct]
    exact h.reads.add last.reads
  · intro d' mem
    rw [List.map_append, List.mem_append]
    exact (mem_dims_bin.mp mem).imp (h.dims d') (last.dims d')

theorem Spells.addAll {rest : List (ℕ × Interval)} (h : t.Spells terms .zero)
    (distinct : ((terms ++ rest).map (·.1)).Nodup) (nonempty : ∀ t ∈ rest, t.2.isBottom = false) :
    (rest.foldl (fun t (d, c) => bin .add t (ofCoeff d c)) t).Spells (terms ++ rest) .zero := by
  induction rest generalizing t terms with
  | nil => simpa using h
  | cons entry rest ih =>
    obtain ⟨d, c⟩ := entry
    obtain ⟨first, nonempty⟩ := List.forall_mem_cons.mp nonempty
    have shifted : terms ++ (d, c) :: rest = terms ++ [(d, c)] ++ rest := by simp
    rw [shifted] at distinct ⊢
    have upToHere := distinct.sublist ((List.sublist_append_left ..).map _)
    exact ih (h.add upToHere first) distinct nonempty

theorem Spells.addConst (h : t.Spells terms .zero) (distinct : (terms.map (·.1)).Nodup)
    (nonempty : I.isBottom = false) : (bin .add t (const I)).Spells terms I := by
  constructor
  · rw [← Affine.make_add_constant distinct nonempty]
    exact h.reads.add (spells_const I).reads
  · intro d mem
    exact h.dims d ((mem_dims_bin.mp mem).resolve_right (by simp [Term.dims]))

/-- The term of an expression is read as its terms in increasing order and its constant. -/
theorem ofAffine_spells (coeffs : ∀ t ∈ e.terms, t.2.isBottom = false)
    (const : e.const.isBottom = false) : (ofAffine e).Spells e.sorted e.const := by
  have distinct := e.nodup_keys_sorted
  have nonempty : ∀ t ∈ e.sorted, t.2.isBottom = false := fun t ht => coeffs t (e.sorted_perm.subset ht)
  unfold ofAffine
  cases listed : e.sorted with
  | nil => exact spells_const e.const
  | cons entry rest =>
    obtain ⟨d, c⟩ := entry
    rw [listed] at distinct nonempty
    obtain ⟨first, later⟩ := List.forall_mem_cons.mp nonempty
    have sum := (spells_coeff d first).addAll distinct later
    dsimp only
    split
    · rename_i zero
      rw [Interval.eq_zero_of_isZero zero]
      exact sum
    · exact sum.addConst distinct const

/-- Let no coefficient of an expression be empty, nor its constant; they may be infinite.  However ranges
are computed, the term of the expression is linearised without asking for one.  The result has the
coefficients and the constant of the expression, so that the two are the same up to the order of their
terms if none of these has the coefficient zero. -/
theorem affine_terms_read_back (coeffs : ∀ t ∈ e.terms, t.2.isBottom = false)
    (const : e.const.isBottom = false) :
    ∃ f : Affine, (ofAffine e).LinearizesTo f ∧ (∀ d, f.coeff d = e.coeff d) ∧ f.const = e.const ∧
      ((∀ t ∈ e.terms, t.2.isZero = false) → f.same e) :=
  ⟨.make e.sorted e.const, (ofAffine_spells coeffs const).reads, e.coeff_make_sorted e.const, rfl,
    Affine.make_sorted_same⟩

/-- `[-∞, 2] · x4 + x0 + [-∞, +∞] · x2 - 3/2 · x3 + [-1, 5] · x1 + [1/2, +∞]`, in this order. -/
def scatteredSample : Affine :=
  .make [(4, ⟨.negInf, .fin 2⟩), (0, .point 1), (2, .top), (3, .point (-3 / 2)), (1, ⟨.fin (-1), .fin 5⟩)]
    ⟨.fin (1 / 2), .posInf⟩

/-- Coefficients of every kind, not in the order of their variables. -/
theorem affine_terms_read_back_scattered :
    scatteredSample.terms.map (·.1) = [4, 0, 2, 3, 1] ∧
    (∀ t ∈ scatteredSample.terms, t.2.isBottom = false ∧ t.2.isZero = false) ∧
    scatteredSample.const.isBottom = false ∧
    ∃ f : Affine, (ofAffine scatteredSample).LinearizesTo f ∧ (∀ d, f.coeff d = scatteredSample.coeff d) ∧
      f.const = scatteredSample.const ∧ f.same scatteredSample := by
  have coeffs : ∀ t ∈ scatteredSample.terms, t.2.isBottom = false ∧ t.2.isZero = false := by
    decide +kernel
  have const : scatteredSample.const.isBottom = false := by decide +kernel
  obtain ⟨f, reads, same, same', equal⟩ := affine_terms_read_back (fun t ht => (coeffs t ht).1) const
  exact ⟨by decide +kernel, coeffs, const, f, reads, same, same', equal fun t ht => (coeffs t ht).2⟩

end Term

end SkewBox
