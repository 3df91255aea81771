import SkewBox.Proofs.Functions
import SkewBox.Term.Linearize

/-!
# Values of expressions

An affine expression takes the values that choices of members of its coefficients and its constant
give, and a term takes those that its operators allow.  Linearising a term loses no value.

* `Affine.Takes`, `Term.Takes`: the values that an expression can take at a point.
* `Term.linearize_meets`: the linearised term takes every value of the term.
-/

namespace SkewBox

variable {K : Type*} [Field K] [LinearOrder K]

/-! ## Affine expressions -/

/-- The sum of the terms takes the value `v` for some choice of the coefficients. -/
def TermsTake : List (ℕ × Interval) → (ℕ → K) → K → Prop
  | [], _, v => v = 0
  | (d, I) :: terms, x, v => ∃ c w, I.Has c ∧ TermsTake terms x w ∧ v = c * x d + w

/-- The expression takes the value `v` at `x` for some choice of its coefficients and its
constant. -/
def Affine.Takes (e : Affine) (x : ℕ → K) (v : K) : Prop :=
  ∃ s k, TermsTake e.terms x s ∧ e.const.Has k ∧ v = s + k

section Terms

variable {terms terms' : List (ℕ × Interval)} {x : ℕ → K} {v w : K}

theorem termsTake_append :
    TermsTake (terms ++ terms') x v ↔ ∃ s t, TermsTake terms x s ∧ TermsTake terms' x t ∧ v = s + t := by
  induction terms generalizing v with
  | nil => simp [TermsTake]
  | cons term terms ih =>
    obtain ⟨d, I⟩ := term
    simp only [List.cons_append, TermsTake, ih]
    constructor
    · rintro ⟨c, _, hc, ⟨s, t, hs, ht, rfl⟩, rfl⟩
      exact ⟨c * x d + s, t, ⟨c, s, hc, hs, rfl⟩, ht, by ring⟩
    · rintro ⟨_, t, ⟨c, s, hc, hs, rfl⟩, ht, rfl⟩
      exact ⟨c, s + t, hc, ⟨s, t, hs, ht, rfl⟩, by ring⟩

theorem TermsTake.congr {y : ℕ → K} (h : TermsTake terms x v)
    (agrees : ∀ t ∈ terms, y t.1 = x t.1) : TermsTake terms y v := by
  induction terms generalizing v with
  | nil => exact h
  | cons term terms ih =>
    obtain ⟨c, w, hc, hw, rfl⟩ := h
    obtain ⟨first, rest⟩ := List.forall_mem_cons.mp agrees
    exact ⟨c, w, hc, ih hw rest, by rw [first]⟩

theorem TermsTake.filter (h : TermsTake terms x v) :
    TermsTake (terms.filter fun (_, c) => !c.isZero) x v := by
  induction terms generalizing v with
  | nil => exact h
  | cons term terms ih =>
    obtain ⟨d, I⟩ := term
    obtain ⟨c, w, hc, hw, rfl⟩ := h
    by_cases zero : I.isZero
    · rw [List.filter_cons_of_neg (by simp [zero]), hc.eq_zero zero, zero_mul, zero_add]
      exact ih hw
    · rw [List.filter_cons_of_pos (by simp [zero])]
      exact ⟨c, w, hc, ih hw, rfl⟩

/-- Changing every coefficient so that its members are multiplied by `k`. -/
theorem TermsTake.map {g : Interval → Interval} {k : K} (hg : ∀ I c, I.Has c → (g I).Has (c * k))
    (h : TermsTake terms x v) : TermsTake (terms.map fun (d, c) => (d, g c)) x (v * k) := by
  induction terms generalizing v with
  | nil =>
    obtain rfl : v = 0 := h
    exact zero_mul k
  | cons term terms ih =>
    obtain ⟨d, I⟩ := term
    obtain ⟨c, w, hc, hw, rfl⟩ := h
    exact ⟨c * k, w * k, hg I c hc, ih hw, by ring⟩

variable [IsStrictOrderedRing K]

theorem TermsTake.put {d : ℕ} {J : Interval} {c : K} (h : TermsTake terms x v) (hc : J.Has c) :
    TermsTake (Entries.put terms d (match terms.lookup d with
      | some I => I.add .exact J
      | none => J)) x (v + c * x d) := by
  induction terms generalizing v with
  | nil =>
    obtain rfl : v = 0 := h
    exact ⟨c, 0, hc, rfl, by ring⟩
  | cons term terms ih =>
    obtain ⟨d', I⟩ := term
    obtain ⟨c', w, hc', hw, rfl⟩ := h
    by_cases same : d' = d
    · subst same
      -- The variable is there already: the choices for both coefficients add up.
      simp only [Entries.put, List.lookup_cons, beq_self_eq_true, if_true]
      exact ⟨c' + c, w, Interval.add_has hc' hc, hw, by ring⟩
    · have other : (d == d') = false := beq_false_of_ne (Ne.symm same)
      simp only [Entries.put, List.lookup_cons, other, if_neg same]
      exact ⟨c', w + c * x d, hc', ih hw, by ring⟩

end Terms

namespace Entries

variable {β : Type} {entries : List (ℕ × β)}

theorem put_fresh {key : ℕ} (fresh : key ∉ entries.map (·.1)) (value : β) :
    put entries key value = entries ++ [(key, value)] := by
  induction entries with
  | nil => rfl
  | cons entry entries ih =>
    rw [List.map_cons, List.mem_cons, not_or] at fresh
    rw [put, if_neg (Ne.symm fresh.1), ih fresh.2, List.cons_append]

theorem collect_eq (distinct : (entries.map (·.1)).Nodup) : collect entries = entries := by
  -- No key that comes later is in the accumulator, so every entry goes to its end.
  suffices general : ∀ acc : List (ℕ × β), ((acc ++ entries).map (·.1)).Nodup →
      entries.foldl (fun acc (key, value) => put acc key value) acc = acc ++ entries from
    general [] distinct
  clear distinct
  induction entries with
  | nil => simp
  | cons entry entries ih =>
    intro acc distinct
    obtain ⟨key, value⟩ := entry
    have fresh : key ∉ acc.map (·.1) := by
      rw [List.map_append, List.map_cons, List.nodup_append] at distinct
      intro mem
      exact distinct.2.2 _ mem _ (List.mem_cons_self ..) rfl
    simp only [List.foldl_cons]
    rw [put_fresh fresh, ih _ (by simpa using distinct), List.append_assoc]
    rfl

end Entries

namespace Affine

variable {e f : Affine} {x : ℕ → K} {v w : K}

theorem make_termsTake {terms : List (ℕ × Interval)} {const : Interval} {s : K}
    (distinct : (terms.map (·.1)).Nodup) (hs : TermsTake terms x s) :
    TermsTake (make terms const).terms x s := by
  simp only [make, Entries.collect_eq distinct]
  exact hs.filter

theorem make_takes {terms : List (ℕ × Interval)} {const : Interval} {s k : K}
    (distinct : (terms.map (·.1)).Nodup) (hs : TermsTake terms x s) (hk : const.Has k) :
    (make terms const).Takes x (s + k) :=
  ⟨s, k, make_termsTake distinct hs, hk, rfl⟩

theorem Takes.congr {y : ℕ → K} (h : e.Takes x v) (agrees : ∀ t ∈ e.terms, y t.1 = x t.1) :
    e.Takes y v := by
  obtain ⟨s, k, hs, hk, rfl⟩ := h
  exact ⟨s, k, hs.congr agrees, hk, rfl⟩

theorem constant_takes {I : Interval} (hv : I.Has v) : (constant I).Takes x v :=
  ⟨0, v, rfl, hv, (zero_add v).symm⟩

theorem Takes.const_has (h : e.Takes x v) (constant : e.isConstant) : e.const.Has v := by
  obtain ⟨s, k, hs, hk, rfl⟩ := h
  rw [isConstant, List.isEmpty_iff] at constant
  rw [constant] at hs
  obtain rfl : s = 0 := hs
  rwa [zero_add]

theorem distinct_map (e : Affine) (g : Interval → Interval) :
    ((e.terms.map fun (d, c) => (d, g c)).map (·.1)).Nodup := by
  simpa [Function.comp_def] using e.distinct

theorem var_takes (d : ℕ) (x : ℕ → K) : (var d (.point 1)).Takes x (x d) := by
  have one : TermsTake [(d, .point 1)] x (1 * x d + 0) := ⟨1, 0, by simp, rfl, rfl⟩
  simpa [var] using make_takes (by simp) one (Interval.zero_has (K := K))

variable [IsStrictOrderedRing K]

theorem negate_termsTake {s : K} (hs : TermsTake e.terms x s) : TermsTake e.negate.terms x (-s) := by
  have flipped := hs.map (g := Interval.neg) (k := -1) fun I c hc => by
    simpa using Interval.neg_has hc
  refine make_termsTake (e.distinct_map Interval.neg) ?_
  simpa using flipped

theorem negate_takes (h : e.Takes x v) : e.negate.Takes x (-v) := by
  obtain ⟨s, k, hs, hk, rfl⟩ := h
  exact ⟨-s, -k, negate_termsTake hs, Interval.neg_has hk, neg_add s k⟩

theorem scale_termsTake {J : Interval} {s : K} (hs : TermsTake e.terms x s) (hw : J.Has w) :
    TermsTake (e.scale J).terms x (s * w) :=
  make_termsTake (e.distinct_map fun c => c.mul .exact J) (hs.map fun _ _ hc => Interval.mul_has hc hw)

theorem scale_takes {J : Interval} (h : e.Takes x v) (hw : J.Has w) : (e.scale J).Takes x (v * w) := by
  obtain ⟨s, k, hs, hk, rfl⟩ := h
  exact ⟨s * w, k * w, scale_termsTake hs hw, Interval.mul_has hk hw, add_mul s k w⟩

theorem add_termsTake {s t : K} (hs : TermsTake e.terms x s) (ht : TermsTake f.terms x t) :
    TermsTake (e.add f).terms x (s + t) := by
  -- The terms of `f` are added to those of `e` one by one.
  suffices general : ∀ (terms acc : List (ℕ × Interval)) (s t : K), (acc.map (·.1)).Nodup →
      TermsTake acc x s → TermsTake terms x t →
      let sum := terms.foldl (fun acc (d, c) => Entries.put acc d (match acc.lookup d with
        | some c' => c'.add .exact c
        | none => c)) acc
      (sum.map (·.1)).Nodup ∧ TermsTake sum x (s + t) by
    obtain ⟨distinct, sum⟩ := general f.terms e.terms s t e.distinct hs ht
    exact make_termsTake distinct sum
  intro terms
  induction terms with
  | nil =>
    rintro acc s t distinct hs rfl
    exact ⟨distinct, by simpa using hs⟩
  | cons term terms ih =>
    obtain ⟨d, I⟩ := term
    rintro acc s _ distinct hs ⟨c, t, hc, ht, rfl⟩
    rw [← add_assoc]
    exact ih _ _ t (Entries.nodup_keys_put _ _ distinct) (hs.put hc) ht

theorem add_takes (he : e.Takes x v) (hf : f.Takes x w) : (e.add f).Takes x (v + w) := by
  obtain ⟨s, k, hs, hk, rfl⟩ := he
  obtain ⟨t, l, ht, hl, rfl⟩ := hf
  exact ⟨s + t, k + l, add_termsTake hs ht, Interval.add_has hk hl, by ring⟩

theorem sub_takes (he : e.Takes x v) (hf : f.Takes x w) : (e.sub f).Takes x (v - w) := by
  rw [sub_eq_add_neg]
  exact add_takes he (negate_takes hf)

end Affine

/-! ## Terms -/

/-- The values that an operator gives on `a` and `b`: a divisor is not zero, and a power is
determined by a natural exponent only. -/
def BinOp.Takes (op : BinOp) (a b v : K) : Prop :=
  match op with
  | .add => v = a + b
  | .sub => v = a - b
  | .mul => v = a * b
  | .div => b ≠ 0 ∧ v = a / b
  | .rem => b ≠ 0 ∧ IsRemainder a b v
  | .pow => ∀ k : ℕ, b = k → v = a ^ k

/-- The values that an operator gives on `a`: a root is not negative, and a conversion goes to an
integer next to `a`. -/
def UnOp.Takes (op : UnOp) (a v : K) : Prop :=
  match op with
  | .neg => v = -a
  | .sqrt => 0 ≤ v ∧ v * v = a
  | .cast => ∃ z : ℤ, v = z ∧ a - 1 < v ∧ v < a + 1

/-- The values that a term can take at a point; a constant takes any member of its interval. -/
def Term.Takes : Term → (ℕ → K) → K → Prop
  | const I, _, v => I.Has v
  | var d, x, v => v = x d
  | un op arg, x, v => ∃ a, arg.Takes x a ∧ op.Takes a v
  | bin op left right, x, v => ∃ a b, left.Takes x a ∧ right.Takes x b ∧ op.Takes a b v

/-! ## Linearisation -/

/-- The interval holds every value that the expression takes at the points with `S`. -/
def Affine.BoundedBy (e : Affine) (S : (ℕ → K) → Prop) (I : Interval) : Prop :=
  ∀ x, S x → ∀ v, e.Takes x v → I.Has v

/-- The affine expression takes every value that the term takes at the points with `S`. -/
def Term.LinearizedBy (t : Term) (S : (ℕ → K) → Prop) (e : Affine) : Prop :=
  ∀ x, S x → ∀ v, t.Takes x v → e.Takes x v

namespace Term

variable [IsStrictOrderedRing K] {W : Parallelotope → Prop} {bound : Affine → Op Interval}
  {S : (ℕ → K) → Prop} {e f : Affine}

theorem lift_meets {α : Type} {y : Except Error α} {P : α → Prop} (ok : ∀ a, y = .ok a → P a) :
    Op.Meets W W True (lift y) P := by
  cases y with
  | ok a => exact Op.meets_pure (ok a rfl)
  | error e => exact Op.meets_throw e trivial

theorem linearMul_meets (hbound : ∀ e, Op.Meets W W True (bound e) (e.BoundedBy S)) :
    Op.Meets W W True (linearMul bound e f) fun g =>
      ∀ x, S x → ∀ v w, e.Takes x v → f.Takes x w → g.Takes x (v * w) := by
  unfold linearMul
  split
  · rename_i constant
    refine Op.meets_pure fun x _ v w he hf => ?_
    exact Affine.scale_takes he (hf.const_has constant)
  · split
    · rename_i constant
      refine Op.meets_pure fun x _ v w he hf => ?_
      rw [mul_comm]
      exact Affine.scale_takes hf (he.const_has constant)
    · -- Neither factor is constant: the second is replaced by its range.
      refine (hbound f).bind fun I hI => Op.meets_pure fun x hx v w he hf => ?_
      exact Affine.scale_takes he (hI x hx w hf)

theorem linearDiv_meets (hbound : ∀ e, Op.Meets W W True (bound e) (e.BoundedBy S)) :
    Op.Meets W W True (linearDiv bound e f) fun g =>
      ∀ x, S x → ∀ v w, e.Takes x v → f.Takes x w → g.Takes x (v / w) := by
  unfold linearDiv
  split
  · rename_i constant
    rw [Bool.and_eq_true] at constant
    refine Op.meets_pure fun x _ v w he hf => ?_
    rw [div_eq_mul_one_div]
    exact Affine.scale_takes he
      (Interval.div_has (by simp) (hf.const_has constant.1))
  · refine (hbound e).bind fun I hI => (hbound f).bind fun J hJ => ?_
    refine Op.meets_pure fun x hx v w he hf => Affine.constant_takes ?_
    exact Interval.div_has (hI x hx v he) (hJ x hx w hf)

theorem linearize_meets (hbound : ∀ e, Op.Meets W W True (bound e) (e.BoundedBy S)) (t : Term) :
    Op.Meets W W True (t.linearize bound) (t.LinearizedBy S) := by
  induction t with
  | const I => exact Op.meets_pure fun x _ v hv => Affine.constant_takes hv
  | var d =>
    refine Op.meets_pure ?_
    rintro x - _ rfl
    exact Affine.var_takes d x
  | un op arg ih =>
    cases op with
    | neg =>
      refine ih.bind fun e he => Op.meets_pure ?_
      rintro x hx _ ⟨a, ha, rfl⟩
      exact Affine.negate_takes (he x hx a ha)
    | sqrt =>
      refine ih.bind fun e he => (hbound e).bind fun I hI => ?_
      refine (lift_meets (P := fun J => I.sqrt = .ok J) fun J => id).bind fun J root => ?_
      refine Op.meets_pure ?_
      rintro x hx v ⟨a, ha, nonneg, rfl⟩
      exact Affine.constant_takes (Interval.sqrt_has root (hI x hx _ (he x hx _ ha)) nonneg)
    | cast =>
      refine ih.bind fun e he => (hbound e).bind fun I hI => Op.meets_pure ?_
      rintro x hx _ ⟨a, ha, z, rfl, above, below⟩
      exact Affine.constant_takes (Interval.cast_has (hI x hx a (he x hx a ha)) above below)
  | bin op left right ihl ihr =>
    rw [linearize]
    refine ihl.bind fun e he => ihr.bind fun f hf => ?_
    -- Operators that are not affine go through the ranges of both arguments.
    have enclosed : ∀ (g : Interval → Interval → Interval), (∀ {I J : Interval} {a b v : K},
        I.Has a → J.Has b → op.Takes a b v → (g I J).Has v) →
        Op.Meets W W True (do
          let I ← bound e
          let J ← bound f
          return .constant (g I J)) ((bin op left right).LinearizedBy S) := by
      intro g hg
      refine (hbound e).bind fun I hI => (hbound f).bind fun J hJ => Op.meets_pure ?_
      rintro x hx v ⟨a, b, ha, hb, value⟩
      exact Affine.constant_takes (hg (hI x hx a (he x hx a ha)) (hJ x hx b (hf x hx b hb)) value)
    cases op with
    | add =>
      refine Op.meets_pure ?_
      rintro x hx _ ⟨a, b, ha, hb, rfl⟩
      exact Affine.add_takes (he x hx a ha) (hf x hx b hb)
    | sub =>
      refine Op.meets_pure ?_
      rintro x hx _ ⟨a, b, ha, hb, rfl⟩
      exact Affine.sub_takes (he x hx a ha) (hf x hx b hb)
    | mul =>
      refine (linearMul_meets hbound).imp fun g hg => ?_
      rintro x hx _ ⟨a, b, ha, hb, rfl⟩
      exact hg x hx a b (he x hx a ha) (hf x hx b hb)
    | div =>
      refine (linearDiv_meets hbound).imp fun g hg => ?_
      rintro x hx _ ⟨a, b, ha, hb, -, rfl⟩
      exact hg x hx a b (he x hx a ha) (hf x hx b hb)
    | rem => exact enclosed Interval.rem fun ha hb value => Interval.rem_has ha hb value.2
    | pow => exact enclosed Interval.pow fun ha hb value => Interval.pow_has ha hb value

end Term

end SkewBox
