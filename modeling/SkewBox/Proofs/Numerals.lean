import Mathlib.Data.Bool.AllAny
import SkewBox.Bound.Read
import SkewBox.Proofs.Binary64

/-!
# Numerals as written

Digits of ASCII spell a number, and a numeral is a run of digits, perhaps with a denominator after a
slash or a decimal part after a point.  Every such numeral is read back as the number it spells, with a
sign before it or not.

* `Numeral.Spells`: the numerals of a non-negative rational.
* `Bound.Size`, `Bound.Sign`, `Bound.ofText?_of_spells`: signed numerals and infinities are read as
  what they spell.
-/

namespace SkewBox

/-! ## Digits -/

namespace Text

variable {c : Char}

theorem bounds_of_isDigit (h : c.isDigit) : 48 ≤ c.toNat ∧ c.toNat ≤ 57 :=
  Char.isDigit_iff_toNat.mp h

theorem digitValue?_of_isDigit (h : c.isDigit) : digitValue? c = some (c.toNat - 48) := by
  obtain ⟨low, high⟩ := bounds_of_isDigit h
  have first : (decide (0x30 ≤ c.toNat) && decide (c.toNat < 0x30 + 10)) = true := by
    simp only [Bool.and_eq_true, decide_eq_true_eq]
    omega
  have found : zeros.find? (fun z => z ≤ c.toNat && c.toNat < z + 10) = some 0x30 :=
    List.find?_cons_of_pos first
  rw [digitValue?, found]
  rfl

theorem isDigit_of_isDigit (h : c.isDigit) : isDigit c := by
  rw [isDigit, digitValue?_of_isDigit h]
  rfl

theorem ne_of_isDigit (h : c.isDigit) {d : Char} (other : d.isDigit = false) : c ≠ d := by
  rintro rfl
  simp [h] at other

theorem not_isBlank_of_isDigit (h : c.isDigit) : isBlank c = false := by
  obtain ⟨low, high⟩ := bounds_of_isDigit h
  simp [isBlank, isSpace]
  omega

theorem toLower_of_isDigit (h : c.isDigit) : c.toLower = c := by
  obtain ⟨low, high⟩ := bounds_of_isDigit h
  unfold Char.toLower
  split
  · rename_i upper
    have above : 65 ≤ c.toNat := UInt32.le_iff_toNat_le.mp upper.1
    omega
  · rfl

theorem span_append {p : Char → Bool} {w rest : List Char} (all : ∀ c ∈ w, p c)
    (stops : ∀ c ∈ rest.head?, p c = false) :
    (w ++ rest).takeWhile p = w ∧ (w ++ rest).dropWhile p = rest := by
  have none : rest.takeWhile p = [] ∧ rest.dropWhile p = rest := by
    cases rest with
    | nil => exact ⟨rfl, rfl⟩
    | cons c rest => simp [stops c rfl]
  rw [List.takeWhile_append_of_pos all, List.dropWhile_append_of_pos all, none.1, none.2]
  simp

end Text

namespace Numeral

/-- At least one character, and digits of ASCII only. -/
structure IsDigits (ds : List Char) : Prop where
  nonempty : ds ≠ []
  digits : ∀ c ∈ ds, c.isDigit

/-- The number that digits of ASCII spell. -/
abbrev natural (ds : List Char) : ℕ := Nat.ofDigitChars 10 ds 0

theorem isDigits_toDigits (n : ℕ) : IsDigits (Nat.toDigits 10 n) :=
  ⟨Nat.toDigits_ne_nil, fun _ => Nat.isDigit_of_mem_toDigits (by norm_num) (by norm_num)⟩

/-- No digit follows, nor an underscore. -/
def Ends (rest : List Char) : Prop :=
  ∀ c tail, rest = c :: tail → c ≠ '_' ∧ Text.digitValue? c = none

variable {ds es rest : List Char}

theorem ends_nil : Ends [] := by simp [Ends]

theorem moreDigits_append (digits : ∀ c ∈ ds, c.isDigit) (ends : Ends rest) :
    moreDigits (ds ++ rest) = (ds.map (·.toNat - 48), rest) := by
  induction ds with
  | nil =>
    cases rest with
    | nil => rfl
    | cons c tail =>
      obtain ⟨other, none⟩ := ends c tail rfl
      rw [List.nil_append, moreDigits, none]
      · rfl
      · exact fun _ _ same => absurd same other
  | cons c ds ih =>
    obtain ⟨first, digits⟩ := List.forall_mem_cons.mp digits
    rw [List.cons_append, moreDigits, Text.digitValue?_of_isDigit first, ih digits]
    · rfl
    · exact fun _ _ same => absurd same (Text.ne_of_isDigit first (by decide))

theorem digitGroup_append (digits : IsDigits ds) (ends : Ends rest) :
    digitGroup (ds ++ rest) = (ds.map (·.toNat - 48), rest) := by
  obtain ⟨nonempty, digits⟩ := digits
  cases ds with
  | nil => exact absurd rfl nonempty
  | cons c ds =>
    obtain ⟨first, digits⟩ := List.forall_mem_cons.mp digits
    rw [List.cons_append, digitGroup, Text.digitValue?_of_isDigit first, moreDigits_append digits ends]
    rfl

theorem digitGroup_self (digits : IsDigits ds) : digitGroup ds = (ds.map (·.toNat - 48), []) := by
  simpa using digitGroup_append digits ends_nil

theorem valueOf_map (ds : List Char) : valueOf (ds.map (·.toNat - 48)) = natural ds := by
  rw [valueOf, List.foldl_map, natural, Nat.ofDigitChars_eq_foldl]
  rfl

/-! ## Unsigned numerals -/

/-- The characters are a numeral of the rational: digits, a fraction or a decimal number. -/
inductive Spells : List Char → ℚ → Prop where
  | whole {ds : List Char} (digits : IsDigits ds) : Spells ds (natural ds)
  | ratio {ds es : List Char} (digits : IsDigits ds) (denominator : IsDigits es)
      (nonzero : natural es ≠ 0) : Spells (ds ++ '/' :: es) (natural ds / natural es)
  | decimal {ds es : List Char} (digits : IsDigits ds) (fraction : IsDigits es) :
      Spells (ds ++ '.' :: es) (natural ds + natural es / 10 ^ es.length)

variable {cs : List Char} {q : ℚ}

theorem Spells.exists_cons (spells : Spells cs q) : ∃ c rest, cs = c :: rest ∧ c.isDigit := by
  have first : ∀ {ds}, IsDigits ds → ∃ c rest, ds = c :: rest ∧ c.isDigit := by
    rintro (_ | ⟨c, rest⟩) ⟨nonempty, digits⟩
    · exact absurd rfl nonempty
    · exact ⟨c, rest, rfl, digits c (List.mem_cons_self ..)⟩
  cases spells with
  | whole digits => exact first digits
  | ratio digits _ _ =>
    obtain ⟨c, rest, rfl, digit⟩ := first digits
    exact ⟨c, _, rfl, digit⟩
  | decimal digits _ =>
    obtain ⟨c, rest, rfl, digit⟩ := first digits
    exact ⟨c, _, rfl, digit⟩

theorem ends_of_mark {mark : Char} (other : mark ≠ '_') (none : Text.digitValue? mark = .none) :
    Ends (mark :: es) := by
  intro c tail same
  obtain ⟨rfl, -⟩ := List.cons.inj same
  exact ⟨other, none⟩

theorem map_ne_nil (digits : IsDigits ds) : ds.map (·.toNat - 48) ≠ [] := by
  simpa using digits.nonempty

theorem Spells.finish? (spells : Spells cs q) :
    Numeral.finish? (digitGroup cs).1 (digitGroup cs).2 = some q := by
  cases spells with
  | whole digits =>
    rw [digitGroup_self digits]
    simp [Numeral.finish?, exponent?, valueOf_map]
  | @ratio ds es digits denominator nonzero =>
    rw [digitGroup_append digits (ends_of_mark (by decide) (by decide))]
    simp only [Numeral.finish?, digitGroup_self denominator]
    cases values : es.map (·.toNat - 48) with
    | nil => exact absurd values (map_ne_nil denominator)
    | cons d rest =>
      have value : valueOf (d :: rest) = natural es := by rw [← values, valueOf_map]
      simp [value, nonzero, valueOf_map, Rat.mkRat_eq_div]
  | @decimal ds es digits fraction =>
    rw [digitGroup_append digits (ends_of_mark (by decide) (by decide))]
    simp only [Numeral.finish?, digitGroup_self fraction, exponent?, Option.map_some, ← List.map_append,
      valueOf_map, List.length_map, zero_sub, zpow_neg, zpow_natCast, natural, Nat.ofDigitChars_append]
    -- The digits on both sides of the point make one number, scaled down by the decimals.
    rw [Nat.ofDigitChars_eq_ofDigitChars_zero]
    push_cast
    have power : (10 : ℚ) ^ es.length ≠ 0 := by positivity
    rw [add_mul, mul_right_comm, mul_inv_cancel₀ power, one_mul, div_eq_mul_inv]

theorem Spells.startsNumber (spells : Spells cs q) : Numeral.startsNumber cs := by
  obtain ⟨c, rest, rfl, digit⟩ := spells.exists_cons
  rw [Numeral.startsNumber]
  · exact Text.isDigit_of_isDigit digit
  · exact fun _ _ same => absurd same (Text.ne_of_isDigit digit (by decide))

theorem Spells.sign (spells : Spells cs q) : Numeral.sign cs = (false, cs) := by
  obtain ⟨c, rest, rfl, digit⟩ := spells.exists_cons
  unfold Numeral.sign
  split
  · rename_i same
    exact absurd (List.cons.inj same).1 (Text.ne_of_isDigit digit (by decide))
  · rename_i same
    exact absurd (List.cons.inj same).1 (Text.ne_of_isDigit digit (by decide))
  · rfl

theorem read?_of_spells (spells : Spells cs q) : read? cs = some q := by
  simp [read?, spells.sign, spells.startsNumber, spells.finish?]

theorem read?_plus_of_spells (spells : Spells cs q) : read? ('+' :: cs) = some q := by
  simp [read?, Numeral.sign, spells.startsNumber, spells.finish?]

theorem read?_minus_of_spells (spells : Spells cs q) : read? ('-' :: cs) = some (-q) := by
  simp [read?, Numeral.sign, spells.startsNumber, spells.finish?]

theorem Spells.mem (spells : Spells cs q) : ∀ c ∈ cs, c.isDigit ∨ c = '/' ∨ c = '.' := by
  cases spells with
  | whole digits => exact fun c hc => .inl (digits.digits c hc)
  | ratio digits denominator _ =>
    intro c hc
    simp only [List.mem_append, List.mem_cons] at hc
    rcases hc with hc | rfl | hc
    · exact .inl (digits.digits c hc)
    · exact .inr (.inl rfl)
    · exact .inl (denominator.digits c hc)
  | decimal digits fraction =>
    intro c hc
    simp only [List.mem_append, List.mem_cons] at hc
    rcases hc with hc | rfl | hc
    · exact .inl (digits.digits c hc)
    · exact .inr (.inr rfl)
    · exact .inl (fraction.digits c hc)

theorem spells_num_den {q : ℚ} (nonneg : 0 ≤ q) :
    Spells (Nat.toDigits 10 q.num.toNat ++ '/' :: Nat.toDigits 10 q.den) q := by
  have spells := Spells.ratio (isDigits_toDigits q.num.toNat) (isDigits_toDigits q.den)
    (by rw [natural, Nat.ofDigitChars_ten_toDigits]; exact q.den_nz)
  simp only [natural, Nat.ofDigitChars_ten_toDigits] at spells
  rwa [Binary64.num_div_den_of_nonneg nonneg] at spells

end Numeral

/-! ## Signed numerals and infinities -/

namespace Bound

/-- The characters spell a bound that has no sign. -/
inductive Size : List Char → Bound → Prop where
  | number {cs : List Char} {q : ℚ} (spells : Numeral.Spells cs q) : Size cs (.fin q)
  | inf : Size ['i', 'n', 'f'] .posInf
  | oo : Size ['o', 'o'] .posInf

/-- The characters are a sign, or nothing, and turn one bound into the other. -/
inductive Sign : List Char → Bound → Bound → Prop where
  | none (b : Bound) : Sign [] b b
  | plus (b : Bound) : Sign ['+'] b b
  | minus (b : Bound) : Sign ['-'] b (-b)

/-- The numerator and the denominator of a rational, with a slash between them, spell it. -/
theorem exists_sign_size (q : ℚ) : ∃ sign cs size, Sign sign size (.fin q) ∧ Size cs size ∧
    sign ++ cs = (toString q.num).toList ++ '/' :: (toString q.den).toList := by
  -- Only the numerator has a sign, so the size of a negative number is that of its opposite.
  rcases le_or_gt 0 q with nonneg | negative
  · refine ⟨[], _, .fin q, .none _, .number (Numeral.spells_num_den nonneg), ?_⟩
    have sign : 0 ≤ q.num := Rat.num_nonneg.mpr nonneg
    simp [toString, Int.repr_eq_if, sign]
  · have size := Numeral.spells_num_den (neg_nonneg.mpr negative.le)
    refine ⟨['-'], _, .fin (-q), ?_, .number size, ?_⟩
    · have signed := Sign.minus (.fin (-q))
      rwa [show -Bound.fin (-q) = .fin q from congrArg Bound.fin (neg_neg q)] at signed
    · have sign : ¬ 0 ≤ q.num := not_le.mpr (Rat.num_neg.mpr negative)
      simp [toString, Int.repr_eq_if, sign]

end Bound

theorem Text.trim_of_forall {cs : List Char} (h : ∀ c ∈ cs, isBlank c = false) : trim cs = cs := by
  have front : ∀ {l : List Char}, (∀ c ∈ l, isBlank c = false) → l.dropWhile isBlank = l := by
    intro l none
    cases l with
    | nil => rfl
    | cons c l => rw [List.dropWhile_cons_of_neg (by simp [none c (List.mem_cons_self ..)])]
  rw [trim, front h, front (fun c hc => h c (List.mem_reverse.mp hc)), List.reverse_reverse]

namespace Bound

theorem infinity?_of_digit {cs : List Char} {c : Char} (mem : c ∈ cs) (digit : c.isDigit) :
    infinity? (String.ofList cs) = none := by
  have letters : ∀ w ∈ ["inf", "+inf", "oo", "+oo", "infinity", "+infinity", "-inf", "-oo", "-infinity"],
      ∀ c ∈ w.toList, c.isDigit = false := by simp
  have other : ∀ w ∈ ["inf", "+inf", "oo", "+oo", "infinity", "+infinity", "-inf", "-oo", "-infinity"],
      String.ofList cs ≠ w := by
    rintro w hw rfl
    have := letters _ hw c (by rwa [String.toList_ofList])
    simp [digit] at this
  simp only [List.forall_mem_cons] at other
  simp [infinity?, other]

theorem ofText?_of_number {cs : List Char} {q : ℚ}
    (marks : ∀ c ∈ cs, c.isDigit ∨ c ∈ ['/', '.', '+', '-']) {c : Char} (mem : c ∈ cs)
    (digit : c.isDigit) (read : Numeral.read? cs = some q) :
    ofText? (String.ofList cs) = some (.fin q) := by
  have plain : ∀ c ∈ ['/', '.', '+', '-'], Text.isBlank c = false ∧ c.toLower = c :=
    List.all_iff_forall_prop.mp (by decide)
  have blank : ∀ c ∈ cs, Text.isBlank c = false := fun c hc =>
    (marks c hc).elim Text.not_isBlank_of_isDigit fun mark => (plain c mark).1
  have lower : cs.map Char.toLower = cs.map id := List.map_congr_left fun c hc =>
    (marks c hc).elim Text.toLower_of_isDigit fun mark => (plain c mark).2
  rw [ofText?, String.toList_ofList, Text.trim_of_forall blank, lower, List.map_id]
  simp [infinity?_of_digit mem digit, read]

theorem ofText?_of_spells {sign cs : List Char} {size b : Bound} (signed : Sign sign size b)
    (spells : Size cs size) : ofText? (String.ofList (sign ++ cs)) = some b := by
  cases spells with
  | inf => cases signed <;> decide
  | oo => cases signed <;> decide
  | @number _ q spells =>
    obtain ⟨c, rest, rfl, digit⟩ := spells.exists_cons
    -- Digits and marks are neither blanks nor capitals, so the text is read as it stands.
    have marks : ∀ d ∈ c :: rest, d.isDigit ∨ d ∈ ['/', '.', '+', '-'] := by
      intro d hd
      rcases spells.mem d hd with digit | rfl | rfl
      · exact .inl digit
      · exact .inr (by decide)
      · exact .inr (by decide)
    cases signed with
    | none =>
      exact ofText?_of_number marks (List.mem_cons_self ..) digit (Numeral.read?_of_spells spells)
    | plus =>
      exact ofText?_of_number (List.forall_mem_cons.mpr ⟨.inr (by decide), marks⟩)
        (List.mem_cons_of_mem _ (List.mem_cons_self ..)) digit (Numeral.read?_plus_of_spells spells)
    | minus =>
      exact ofText?_of_number (List.forall_mem_cons.mpr ⟨.inr (by decide), marks⟩)
        (List.mem_cons_of_mem _ (List.mem_cons_self ..)) digit (Numeral.read?_minus_of_spells spells)

end Bound

end SkewBox
