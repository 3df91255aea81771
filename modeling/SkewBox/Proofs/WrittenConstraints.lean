import SkewBox.Proofs.ConstraintRoundTrip
import SkewBox.Proofs.LinearTerms
import SkewBox.Proofs.Spellings

/-!
# Constraints as they are written

A text `l ⋈ r` is read as a comparison of two terms, and becomes a comparison of one affine expression with
zero.  Signs that point to the left turn the difference round.  Where all constants are numbers, the expression
has one value at every point, the difference of the values of the two terms, however they were collected,
cancelled and divided on the way.

* `Affine.Rational`: expressions with rational coefficients and a rational constant.
* `Formula.Says`: what a text is read as.
* `Formula.WritesConstraint`: the texts of a comparison of two terms.
* `Formula.constraints_mean_what_is_written`: the meaning of the constraint is that of the text.
-/

namespace SkewBox

variable {K : Type*} [Field K] [LinearOrder K]

/-! ## Rational expressions -/

namespace Interval

variable {I J : Interval}

theorem isPoint_point (q : ℚ) : (point q).isPoint := by simp [isPoint, point, Bound.isFinite]

theorem isPoint_neg (hI : I.isPoint) : I.neg.isPoint := by
  rw [eq_point hI, neg_point]
  exact isPoint_point _

theorem isPoint_add (hI : I.isPoint) (hJ : J.isPoint) : (I.add .exact J).isPoint := by
  rw [eq_point hI, eq_point hJ, point_add_point]
  exact isPoint_point _

theorem isPoint_mul (hI : I.isPoint) (hJ : J.isPoint) : (I.mul .exact J).isPoint := by
  rw [eq_point hI, eq_point hJ, point_mul_point]
  exact isPoint_point _

theorem isPoint_one_div (hJ : J.isPoint) (noZero : J.hasZero = false) :
    ((point 1).div .exact J).isPoint := by
  rw [eq_point hJ] at noZero ⊢
  generalize J.midpoint = q at noZero
  have nonzero : q ≠ 0 := by
    rintro rfl
    simp [hasZero, contains, point] at noZero
  have reciprocal : (point q).recip = point (1 / q) := by
    simp [recip, point, Precision.div, Precision.roundRat, nonzero]
  have one : (point 1).Filled := ⟨1, point_has.mpr (by simp)⟩
  have divisor : (point q).Filled := ⟨q, point_has.mpr (by simp)⟩
  rw [div_eq_mul_recip one divisor noZero, reciprocal, point_mul_point]
  exact isPoint_point _

end Interval

namespace Affine

variable {e f : Affine}

/-- Rational coefficients and a rational constant. -/
structure Rational (e : Affine) : Prop where
  coeff : ∀ t ∈ e.terms, t.2.isPoint
  const : e.const.isPoint

theorem Rational.negate (he : e.Rational) : e.negate.Rational where
  coeff := forall_coeff_map (P := fun I => I.isPoint) he.coeff (fun _ hI => Interval.isPoint_neg hI) _
  const := Interval.isPoint_neg he.const

theorem Rational.scale (he : e.Rational) {J : Interval} (hJ : J.isPoint) : (e.scale J).Rational where
  coeff := forall_coeff_map (P := fun I => I.isPoint) he.coeff (fun _ hI => Interval.isPoint_mul hI hJ) _
  const := Interval.isPoint_mul he.const hJ

theorem Rational.add (he : e.Rational) (hf : f.Rational) : (e.add f).Rational where
  coeff := forall_coeff_add (P := fun I => I.isPoint) he.coeff hf.coeff fun _ _ => Interval.isPoint_add
  const := Interval.isPoint_add he.const hf.const

theorem Rational.sub (he : e.Rational) (hf : f.Rational) : (e.sub f).Rational := he.add hf.negate

/-- The expression takes the value `v` at `x`, and no other. -/
def IsValue (e : Affine) (x : ℕ → K) (v : K) : Prop := ∀ w, e.Takes x w ↔ w = v

theorem Rational.exists_isValue (he : e.Rational) (x : ℕ → K) : ∃ v, e.IsValue x v := by
  obtain ⟨s, hs⟩ := exists_termsTake he.coeff x
  refine ⟨s + (e.const.midpoint : ℚ), fun w => ⟨?_, ?_⟩⟩
  · rintro ⟨s', k, hs', hk, rfl⟩
    rw [hs'.unique he.coeff hs, hk.eq_midpoint he.const]
  · rintro rfl
    exact ⟨s, _, hs, Interval.midpoint_has he.const, rfl⟩

end Affine

/-! ## Terms whose constants are numbers -/

namespace Term

variable {t l r : Term} {e : Affine}

/-- Every constant of the term is a number. -/
def Scalar : Term → Prop
  | const I => I.isPoint
  | var _ => True
  | un _ arg => arg.Scalar
  | bin _ left right => left.Scalar ∧ right.Scalar

/-- The term takes the value `v` at `x`, and no other. -/
def IsValue (t : Term) (x : ℕ → K) (v : K) : Prop := ∀ w, t.Takes x w ↔ w = v

theorem IsValue.sub {x : ℕ → K} {a b : K} (hl : l.IsValue x a) (hr : r.IsValue x b) :
    (bin .sub l r).IsValue x (a - b) := by
  intro w
  constructor
  · rintro ⟨a', b', ha, hb, rfl⟩
    rw [(hl a').mp ha, (hr b').mp hb]
  · rintro rfl
    exact ⟨a, b, (hl a).mpr rfl, (hr b).mpr rfl, rfl⟩

theorem linear_of_linearMul {e f g : Affine} (hl : l.Linear e ∧ e.Rational) (hr : r.Linear f ∧ f.Rational)
    (h : linearMul (fun _ => Except.error Error.notLinear) e f = .ok g) :
    (bin .mul l r).Linear g ∧ g.Rational := by
  unfold linearMul at h
  split at h
  · rename_i constant
    obtain rfl := Except.ok.inj h
    exact ⟨.mulRight hl.1 hr.1 constant, hl.2.scale hr.2.const⟩
  · rename_i varies
    split at h
    · rename_i constant
      obtain rfl := Except.ok.inj h
      exact ⟨.mulLeft hl.1 hr.1 varies constant, hr.2.scale hl.2.const⟩
    · contradiction

theorem linear_of_linearDiv {e f g : Affine} (hl : l.Linear e ∧ e.Rational) (hr : r.Linear f ∧ f.Rational)
    (h : linearDiv (fun _ => Except.error Error.notLinear) e f = .ok g) :
    (bin .div l r).Linear g ∧ g.Rational := by
  unfold linearDiv at h
  split at h
  · rename_i constant
    simp only [Bool.and_eq_true, Bool.not_eq_true'] at constant
    obtain ⟨constant, noZero⟩ := constant
    obtain rfl := Except.ok.inj h
    have bounded : f.const.isBounded := by
      rw [Interval.eq_point hr.2.const]
      rfl
    exact ⟨.div hl.1 hr.1 constant noZero bounded, hl.2.scale (Interval.isPoint_one_div hr.2.const noZero)⟩
  · contradiction

/-- What is accepted as linear was built by the operations that stay symbolic alone. -/
theorem Scalar.linear (scalar : t.Scalar) (h : Formula.linear t = .ok e) : t.Linear e ∧ e.Rational := by
  -- Every other operation asks for a range, which is refused.
  unfold Formula.linear at h
  induction t generalizing e with
  | const I =>
    obtain rfl := Except.ok.inj h
    exact ⟨.const ⟨I.midpoint, Interval.midpoint_has scalar⟩, by simp [Affine.constant], scalar⟩
  | var d =>
    obtain rfl := Except.ok.inj h
    exact ⟨.var d, fun t ht => by
      obtain rfl := List.mem_singleton.mp (Affine.mem_of_mem_make ht)
      exact Interval.isPoint_point 1, Interval.isPoint_point 0⟩
  | un op arg ih =>
    cases op with
    | neg =>
      obtain ⟨f, hf, rest⟩ := bind_eq_ok.mp h
      obtain rfl := Except.ok.inj rest
      obtain ⟨linear, rational⟩ := ih scalar hf
      exact ⟨.neg linear, rational.negate⟩
    | cast =>
      obtain ⟨f, hf, rest⟩ := bind_eq_ok.mp h
      contradiction
    | sqrt =>
      obtain ⟨f, hf, rest⟩ := bind_eq_ok.mp h
      contradiction
  | bin op left right ihl ihr =>
    obtain ⟨f, hf, rest⟩ := bind_eq_ok.mp h
    obtain ⟨g, hg, rest⟩ := bind_eq_ok.mp rest
    have hl := ihl scalar.1 hf
    have hr := ihr scalar.2 hg
    cases op with
    | add =>
      obtain rfl := Except.ok.inj rest
      exact ⟨.add hl.1 hr.1, hl.2.add hr.2⟩
    | sub =>
      obtain rfl := Except.ok.inj rest
      exact ⟨.sub hl.1 hr.1, hl.2.sub hr.2⟩
    | mul => exact linear_of_linearMul hl hr rest
    | div => exact linear_of_linearDiv hl hr rest
    | rem => contradiction
    | pow => contradiction

variable [IsStrictOrderedRing K]

/-- A term that is accepted as linear has one value at every point, and its expression has the same. -/
theorem Scalar.exists_isValue (scalar : t.Scalar) (h : Formula.linear t = .ok e) (x : ℕ → K) :
    ∃ v, t.IsValue x v ∧ e.IsValue x v := by
  obtain ⟨linear, rational⟩ := scalar.linear h
  obtain ⟨v, value⟩ := rational.exists_isValue x
  have scalar' : e.isScalar := by simpa [Affine.isScalar] using rational.coeff
  exact ⟨v, fun w => (linear.takes_iff scalar').trans (value w), value⟩

end Term

namespace Formula

open Reader

variable {names : Option (List String)} {text : String} {l r : Term} {cmp : Comparison} {modulus : Option ℚ}
variable {e : Affine} {c : Constraint Affine} {x : ℕ → K} {a b : K}

/-! ## What a text is read as -/

/-- The text is read as `l ⋈ r`, with the number after `mod`, if there is one. -/
def Says (names : Option (List String)) (text : String) (l : Term) (cmp : Comparison) (r : Term)
    (modulus : Option ℚ) : Prop :=
  ∃ (ns : Names) (s : Sentence), Names.make names = .ok ns ∧ readAll Sentence.reader text = .ok s ∧
    s.left.toTerm ns = .ok l ∧ s.comparison = cmp ∧ s.right.toTerm ns = .ok r ∧
      s.modulus.mapM numberOf = .ok modulus

/-- The difference that a comparison is about: the left side less the right one, or the other way round. -/
def Comparison.difference (cmp : Comparison) (l r : Term) : Term :=
  if cmp.relation.1 then .bin .sub r l else .bin .sub l r

/-- How the difference compares with zero. -/
def Comparison.relationWith (cmp : Comparison) (modulus : Option ℚ) : Relation :=
  if modulus = none then cmp.relation.2 else .congr

/-- The constraint on a term that a text says; a modulus stands with an equation only. -/
theorem parseTermConstraint_eq (said : Says names text l cmp r modulus) :
    parseTermConstraint names text = if modulus = none ∨ cmp = .eq
      then .ok ⟨cmp.difference l r, cmp.relationWith modulus, modulus⟩
      else .error .modulusWithoutEquality := by
  obtain ⟨ns, s, made, read, left, rfl, right, number⟩ := said
  rw [parseTermConstraint, made, ok_bind, read, ok_bind, left, ok_bind, right, ok_bind, number, ok_bind]
  cases s.comparison <;> cases modulus <;> rfl

theorem exists_said (accepted : parseAffineConstraint names text = .ok c) :
    ∃ l cmp r modulus, Says names text l cmp r modulus := by
  obtain ⟨c, parsed, -⟩ := bind_eq_ok.mp accepted
  obtain ⟨ns, made, rest⟩ := bind_eq_ok.mp parsed
  obtain ⟨s, read, rest⟩ := bind_eq_ok.mp rest
  obtain ⟨l, left, rest⟩ := bind_eq_ok.mp rest
  obtain ⟨r, right, rest⟩ := bind_eq_ok.mp rest
  obtain ⟨modulus, number, -⟩ := bind_eq_ok.mp rest
  exact ⟨l, s.comparison, r, modulus, ns, s, made, read, left, rfl, right, number⟩

theorem Says.accepted (said : Says names text l cmp r modulus)
    (accepted : parseAffineConstraint names text = .ok c) :
    (modulus = none ∨ cmp = .eq) ∧ linear (cmp.difference l r) = .ok c.expr ∧
      c.rel = cmp.relationWith modulus ∧ c.modulus = modulus := by
  rw [parseAffineConstraint, parseTermConstraint_eq said] at accepted
  split_ifs at accepted with allowed
  · rw [ok_bind] at accepted
    obtain ⟨e, expr, rest⟩ := bind_eq_ok.mp accepted
    obtain rfl := Except.ok.inj rest
    exact ⟨allowed, expr, rfl, rfl⟩
  · contradiction

/-! ## What a comparison means -/

/-- The comparison holds between `a` and `b`: with a modulus, their difference is a multiple of it. -/
def Comparison.Relates (cmp : Comparison) (modulus : Option ℚ) (a b : K) : Prop :=
  match cmp, modulus with
  | .le, _ => a ≤ b
  | .lt, _ => a < b
  | .ge, _ => b ≤ a
  | .gt, _ => b < a
  | .ne, _ => a ≠ b
  | .eq, none => a = b
  | .eq, some m => ∃ z : ℤ, a - b = z * (m : K)

/-- The difference stands to zero as the sides stand to each other. -/
theorem Comparison.holdsOf_iff [IsStrictOrderedRing K] (allowed : modulus = none ∨ cmp = .eq) (a b : K) :
    (cmp.relationWith modulus).HoldsOf modulus (if cmp.relation.1 then b - a else a - b) ↔
      cmp.Relates modulus a b := by
  cases modulus with
  | none =>
    cases cmp with
    | le | ge => exact sub_nonneg
    | lt | gt => exact sub_pos
    | eq => exact sub_eq_zero
    | ne => exact sub_ne_zero
  | some m =>
    obtain rfl : cmp = .eq := by simpa using allowed
    simp [relationWith, relation, Relation.HoldsOf, Relates]

theorem isValue_difference (hl : l.IsValue x a) (hr : r.IsValue x b) :
    (cmp.difference l r).IsValue x (if cmp.relation.1 then b - a else a - b) := by
  unfold Comparison.difference
  split_ifs
  · exact hr.sub hl
  · exact hl.sub hr

theorem linear_of_difference (h : linear (cmp.difference l r) = .ok e) :
    ∃ f g, linear l = .ok f ∧ linear r = .ok g := by
  unfold Comparison.difference at h
  split_ifs at h
  · obtain ⟨g, right, rest⟩ := bind_eq_ok.mp h
    obtain ⟨f, left, -⟩ := bind_eq_ok.mp rest
    exact ⟨f, g, left, right⟩
  · obtain ⟨f, left, rest⟩ := bind_eq_ok.mp h
    obtain ⟨g, right, -⟩ := bind_eq_ok.mp rest
    exact ⟨f, g, left, right⟩

theorem scalar_difference (hl : l.Scalar) (hr : r.Scalar) : (cmp.difference l r).Scalar := by
  unfold Comparison.difference
  split_ifs
  · exact ⟨hr, hl⟩
  · exact ⟨hl, hr⟩

/-- The accepted constraint holds where the values of the sides compare as written. -/
theorem Says.holdsAt_iff [IsStrictOrderedRing K] (said : Says names text l cmp r modulus) (hl : l.Scalar)
    (hr : r.Scalar) (accepted : parseAffineConstraint names text = .ok c) (x : ℕ → K) :
    ∃ a b, l.IsValue x a ∧ r.IsValue x b ∧ (c.HoldsAt x ↔ cmp.Relates modulus a b) := by
  obtain ⟨allowed, linear, rel, mod⟩ := said.accepted accepted
  obtain ⟨f, g, left, right⟩ := linear_of_difference linear
  obtain ⟨a, ha, -⟩ := hl.exists_isValue left x
  obtain ⟨b, hb, -⟩ := hr.exists_isValue right x
  obtain ⟨v, hv, expr⟩ := (scalar_difference hl hr).exists_isValue linear x
  have value : v = if cmp.relation.1 then b - a else a - b :=
    (isValue_difference ha hb v).mp ((hv v).mpr rfl)
  have holds : c.HoldsAt x ↔ c.rel.HoldsOf c.modulus v := by
    constructor
    · rintro ⟨w, takes, holds⟩
      rwa [(expr w).mp takes] at holds
    · exact fun holds => ⟨v, (expr v).mpr rfl, holds⟩
  refine ⟨a, b, ha, hb, ?_⟩
  rw [holds, rel, mod, value, Comparison.holdsOf_iff allowed]

/-! ## Texts of comparisons -/

/-- The signs of the comparisons, in the order in which they are tried. -/
def Comparison.signs : List (String × Comparison) :=
  [("<=", .le), (">=", .ge), ("==", .eq), ("!=", .ne), ("=", .eq), ("<", .lt), (">", .gt)]

/-- The end of a constraint: white space, or the number after `mod`. -/
inductive WritesModulus : Option ℚ → List Char → Prop where
  | absent {w : List Char} (b : Blank w) : WritesModulus none w
  | given {cs w₁ w₂ w₃ : List Char} {q : ℚ} (spells : Numeral.Spells cs q) (s₁ : Spaced w₁) (b₂ : Blank w₂)
      (b₃ : Blank w₃) : WritesModulus (some q) (w₁ ++ ("mod".toList ++ (w₂ ++ (cs ++ w₃))))

/-- The texts of `l ⋈ r`, with white space around the sign. -/
inductive WritesConstraint (l : Term) (cmp : Comparison) (r : Term) (modulus : Option ℚ) :
    List Char → Prop where
  | intro {t t' tail w₁ w₂ w₃ : List Char} {sign : String} (left : Writes .sum l t)
      (mem : (sign, cmp) ∈ Comparison.signs) (right : Writes .sum r t') (b₁ : Blank w₁) (s₂ : Spaced w₂)
      (s₃ : Spaced w₃) (last : WritesModulus modulus tail) :
      WritesConstraint l cmp r modulus (w₁ ++ (t ++ (w₂ ++ (sign.toList ++ (w₃ ++ (t' ++ tail))))))

/-! ## Reading comparisons -/

/-- A sign is not found where another text stands, unless it is its start: no sign goes on behind it, since
there is white space. -/
theorem misses_sign_of_spaced {α : Type} {text : String} (solid : text.toList.all (!Text.isSpace ·))
    {v w : List Char} (differs : ¬ text.toList <+: v) (spaced : Spaced w) (a : α) (rest : List Char) :
    Misses (sign text a) (v ++ (w ++ rest)) := by
  have missing : text.toList.isPrefixOf? (v ++ (w ++ rest)) = none := by
    rw [Option.eq_none_iff_forall_ne_some]
    intro tail found
    have split := List.isPrefixOf?_eq_some_iff_append_eq.mp found
    rcases List.append_eq_append_iff.mp split with ⟨u, rfl, -⟩ | ⟨u, whole, rest'⟩
    · exact differs ⟨u, rfl⟩
    · obtain ⟨nonempty, blank⟩ := spaced
      cases u with
      | nil => exact differs ⟨[], by simpa using whole⟩
      | cons c u =>
        cases w with
        | nil => exact absurd rfl nonempty
        | cons d w =>
          obtain ⟨rfl, -⟩ := List.cons.inj rest'
          have space := blank d (List.mem_cons_self ..)
          have printed := List.all_eq_true.mp solid d (by simp [whole])
          simp [space] at printed
  exact Misses.bind fun least => ⟨least, by rw [literal, missing]⟩

/-- The first sign that fits is read, if no sign starts with an earlier one. -/
theorem gives_firstOf_sign {α : Type} {text : String} {a : α} {pairs : List (String × α)}
    (mem : (text, a) ∈ pairs) (solid : ∀ p ∈ pairs, p.1.toList.all (!Text.isSpace ·))
    (order : pairs.Pairwise fun p q => ¬ p.1.toList <+: q.1.toList) {w : List Char} (spaced : Spaced w)
    (rest : List Char) :
    Gives (firstOf (pairs.map fun p => sign p.1 p.2)) (text.toList ++ (w ++ rest)) a (w ++ rest) := by
  induction pairs with
  | nil => cases mem
  | cons pair pairs ih =>
    obtain ⟨before, order⟩ := List.pairwise_cons.mp order
    obtain ⟨here, solid⟩ := List.forall_mem_cons.mp solid
    cases List.mem_cons.mp mem with
    | inl first =>
      subst first
      exact (gives_sign text a _).orElse _
    | inr later =>
      have missed := misses_sign_of_spaced here (before _ later) spaced pair.2 rest
      exact missed.orElse_gives (ih later solid order)

theorem gives_comparison {sign : String} (mem : (sign, cmp) ∈ Comparison.signs) {w : List Char}
    (spaced : Spaced w) (rest : List Char) : Gives comparison (sign.toList ++ (w ++ rest)) cmp (w ++ rest) :=
  (gives_firstOf_sign mem (by decide) (by decide) spaced rest).rule

theorem exists_sign_cons {sign : String} (mem : (sign, cmp) ∈ Comparison.signs) :
    ∃ c tail, sign.toList = c :: tail ∧ Text.isSpace c = false ∧ c ∉ ['^', '*', '/', '%', '+', '-'] := by
  simp only [Comparison.signs, List.mem_cons, Prod.mk.injEq, List.not_mem_nil, or_false] at mem
  rcases mem with ⟨rfl, -⟩ | ⟨rfl, -⟩ | ⟨rfl, -⟩ | ⟨rfl, -⟩ | ⟨rfl, -⟩ | ⟨rfl, -⟩ | ⟨rfl, -⟩
  all_goals exact ⟨_, _, rfl, by decide, by decide⟩

theorem WritesModulus.exists_gives {tail : List Char} (writes : WritesModulus modulus tail) :
    ∃ digits : Option (List Char), digits.mapM numberOf = .ok modulus ∧
      ∃ rest rest', Gives blanks tail () rest ∧ Gives (optional Reader.modulus) rest digits rest' ∧
        Gives blanks rest' () [] := by
  cases writes with
  | absent b =>
    have nothing : Gives (optional Reader.modulus) [] none [] := gives_optional_none (absurd rfl ·)
    exact ⟨none, rfl, [], [], gives_blanks_end b, nothing, gives_blanks_end (by simp [Blank])⟩
  | @given cs w₁ w₂ w₃ q spells s₁ b₂ b₃ =>
    have number : numberOf cs = .ok q := by simp [numberOf, Numeral.read?_of_spells spells]
    have begins : Begins cs := by
      obtain ⟨c, tail, rfl, digit⟩ := spells.exists_cons
      exact ⟨c, tail, rfl, not_isSpace_of_isNamePart (isNamePart_of_isDigit digit)⟩
    have read : Gives Reader.modulus ("mod".toList ++ (w₂ ++ (cs ++ w₃))) cs w₃ :=
      Gives.rule ((gives_literal _ _).bind ((gives_blanks b₂ (begins.head w₃)).bind
        (gives_number spells (closes_of_blank b₃))))
    refine ⟨some cs, ?_, _, w₃, gives_blanks s₁.blank (head_not (by decide) _),
      gives_optional_some (by simp) read, gives_blanks_end b₃⟩
    simp [number]

theorem WritesModulus.closes {tail : List Char} (writes : WritesModulus modulus tail) :
    Closes tail ∧ Next ['^', '*', '/', '%', '+', '-'] tail := by
  cases writes with
  | absent b => exact ⟨closes_of_blank b, next_of_blank b _⟩
  | given spells s₁ b₂ b₃ => exact ⟨s₁.closes _, next_append s₁.blank (by decide) (by decide) _⟩

theorem WritesConstraint.said {text : List Char} (writes : WritesConstraint l cmp r modulus text) :
    Says none (String.ofList text) l cmp r modulus := by
  obtain ⟨left, mem, right, b₁, s₂, s₃, last⟩ := writes
  rename_i t t' tail w₁ w₂ w₃ sign
  obtain ⟨s, term, chained⟩ := left.exists_surface
  obtain ⟨s', term', chained'⟩ := right.exists_surface
  obtain ⟨digits, number, rest, rest', blank, found, finished⟩ := last.exists_gives
  obtain ⟨closes, next⟩ := last.closes
  refine ⟨.numbered, ⟨s, cmp, s', digits⟩, rfl, readAll_of_gives ?_, term, rfl, term', number⟩
  -- The fuel is kept abstract: only that it exceeds the length of the text is used.
  generalize fuel_eq : 8 * (List.length _ + 1) = fuel
  simp only [List.length_append] at fuel_eq
  have sign_begins : Begins sign.toList ∧ Next ['^', '*', '/', '%', '+', '-']
      (w₂ ++ (sign.toList ++ (w₃ ++ (t' ++ tail)))) := by
    obtain ⟨c, more, split, space, mark⟩ := exists_sign_cons mem
    rw [split]
    exact ⟨⟨c, more, rfl, space⟩, next_append s₂.blank space mark _⟩
  have leftRead := reads_sum chained left.ne_nil fuel _ (by omega) (s₂.closes _) sign_begins.2
  have rightRead := reads_sum chained' right.ne_nil fuel tail (by omega) closes next
  -- The parts are read in the order in which they are written.
  refine Gives.rule ((gives_blanks b₁ (left.begins.head _)).bind (leftRead.bind ?_))
  refine (gives_blanks s₂.blank (sign_begins.1.head _)).bind ((gives_comparison mem s₃ _).bind ?_)
  refine (gives_blanks s₃.blank (right.begins.head tail)).bind (rightRead.bind ?_)
  exact blank.bind (found.bind (finished.bind (gives_pure _ _)))

variable (K) in
/-- **Constraints mean what is written.** The texts of a comparison of two terms are read as that comparison.
Whatever an accepted text is read as, if all constants are numbers, the constraint holds at the points where
the values of the two sides compare as written; and an accepted expression has the value of its term. -/
theorem constraints_mean_what_is_written [IsStrictOrderedRing K] :
    (∀ l cmp r modulus text, WritesConstraint l cmp r modulus text →
      Says none (String.ofList text) l cmp r modulus) ∧
    (∀ names text c, parseAffineConstraint names text = .ok c →
      (∃ l cmp r modulus, Says names text l cmp r modulus) ∧
      ∀ l cmp r modulus, Says names text l cmp r modulus → l.Scalar → r.Scalar → ∀ x : ℕ → K,
        ∃ a b, l.IsValue x a ∧ r.IsValue x b ∧ (c.HoldsAt x ↔ cmp.Relates modulus a b)) ∧
    ∀ names text t e, parseTerm names text = .ok t → parseAffine names text = .ok e → t.Scalar →
      ∀ x : ℕ → K, ∃ v, t.IsValue x v ∧ e.IsValue x v := by
  refine ⟨?_, ?_, ?_⟩
  · intro l cmp r modulus text writes
    exact writes.said
  · intro names text c accepted
    refine ⟨exists_said accepted, ?_⟩
    intro l cmp r modulus said hl hr x
    exact said.holdsAt_iff hl hr accepted x
  · intro names text t e parsed accepted scalar x
    rw [parseAffine, parsed, ok_bind] at accepted
    exact scalar.exists_isValue accepted x

/-- A factor that cancels but for its constant, and a quotient. -/
def cancellingSample : Term :=
  .bin .div (.bin .mul (.var 0) (.bin .add (.bin .sub (.var 1) (.var 1)) (.const (.point 3))))
    (.const (.point 4))

def remainingSample : Term := .bin .sub (.const (.point (1 / 2))) (.var 2)

def cancellingText : List Char := "x0 * (x1 - x1 + 3) / 4".toList

/-- The two terms are congruent. -/
def congruenceText : List Char := cancellingText ++ " == 1/2 - x2 mod 5".toList

theorem congruenceText_writes :
    WritesConstraint cancellingSample .eq remainingSample (some 5) congruenceText := by
  have blank : Blank [] := by simp [Blank]
  have spaced : Spaced [' '] := ⟨by simp, by decide⟩
  have digit : ∀ c ∈ ['0', '1', '2', '3', '4', '5'], Numeral.IsDigits [c] := by
    have digits : ∀ c ∈ ['0', '1', '2', '3', '4', '5'], c.isDigit := by simp
    exact fun c hc => ⟨by simp, by simpa using digits c hc⟩
  have zero := Writes.var (digit '0' (by decide))
  have one := Writes.ofSigned (.ofAtom (.var (digit '1' (by decide))))
  have two := Writes.ofSigned (.ofAtom (.var (digit '2' (by decide))))
  have three := Writes.ofSigned (.ofAtom (.point (.whole (digit '3' (by decide)))))
  have four := Writes.ofAtom (.point (.whole (digit '4' (by decide))))
  have half := Numeral.Spells.ratio (digit '1' (by decide)) (digit '2' (by decide)) (by decide)
  have sum : Writes .sum (.bin .add (.bin .sub (.var 1) (.var 1)) (.const (.point 3))) "x1 - x1 + 3".toList :=
    .add (by decide) (.add (by decide) (.ofProduct one) one spaced spaced) three spaced spaced
  have product : Writes .product _ "x0 * (x1 - x1 + 3)".toList :=
    .mul (show BinOp.mul ∈ _ by decide) (.ofSigned (.ofAtom zero)) (.ofAtom (.group sum blank blank)) spaced
      spaced
  have left : Writes .sum cancellingSample cancellingText :=
    .ofProduct (.mul (by decide) product four spaced spaced)
  have right : Writes .sum remainingSample "1/2 - x2".toList :=
    .add (by decide) (.ofProduct (.ofSigned (.ofAtom (.point half)))) two spaced spaced
  have sign : ("==", Comparison.eq) ∈ Comparison.signs := by decide
  have modulus : WritesModulus (some 5) " mod 5".toList :=
    .given (.whole (digit '5' (by decide))) spaced spaced.blank blank
  exact .intro left sign right blank spaced spaced modulus

theorem constraints_mean_what_is_written_congruence :
    WritesConstraint cancellingSample .eq remainingSample (some 5) congruenceText ∧
    cancellingSample.Scalar ∧ remainingSample.Scalar ∧
    (∃ c, parseAffineConstraint none (String.ofList congruenceText) = .ok c ∧ ∀ x : ℕ → ℚ,
      ∃ a b, cancellingSample.IsValue x a ∧ remainingSample.IsValue x b ∧
        (c.HoldsAt x ↔ Comparison.eq.Relates (some 5) a b)) ∧
    parseTerm none (String.ofList cancellingText) = .ok cancellingSample ∧
    ∃ e, parseAffine none (String.ofList cancellingText) = .ok e ∧ ∀ x : ℕ → ℚ,
      ∃ v, cancellingSample.IsValue x v ∧ e.IsValue x v := by
  have left : cancellingSample.Scalar := by simp [cancellingSample, Term.Scalar, Interval.isPoint_point]
  have right : remainingSample.Scalar := by simp [remainingSample, Term.Scalar, Interval.isPoint_point]
  have accepted : parseAffineConstraint none (String.ofList congruenceText) =
      .ok ⟨.make [(0, .point (3 / 4)), (2, .point 1)] (.point (-(1 / 2))), .congr, some 5⟩ := by
    decide +kernel
  have parsed : parseTerm none (String.ofList cancellingText) = .ok cancellingSample := by decide +kernel
  have linear : parseAffine none (String.ofList cancellingText) =
      .ok (.make [(0, .point (3 / 4))] (.point 0)) := by decide +kernel
  obtain ⟨read, constraints, expressions⟩ := constraints_mean_what_is_written ℚ
  have said := read _ _ _ _ _ congruenceText_writes
  exact ⟨congruenceText_writes, left, right,
    ⟨_, accepted, (constraints _ _ _ accepted).2 _ _ _ _ said left right⟩, parsed,
    _, linear, expressions _ _ _ _ parsed linear left⟩

end Formula

end SkewBox
