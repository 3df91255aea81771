import SkewBox.Formula.Surface
import SkewBox.Proofs.Numerals

/-!
# Readers at work

What a reader gives or that it fails, whatever the furthest failure so far, with one rule for each way
to compose readers, and from these what the readers of single tokens do.

* `Reader.Gives`, `Reader.Misses`: the two outcomes.
* `Gives.bind`, `Gives.rule`, `gives_optional`, `gives_many_cons`, …: rules of composition.
* `WritesBound`: the texts of the ends of an interval.
* `gives_blanks`, `gives_number`, `WritesBound.exists_gives`, `gives_interval`, `gives_name`: tokens.
-/

namespace SkewBox.Formula.Reader

variable {α β : Type} {r s : Reader α} {f : α → Reader β} {a : α} {b : β} {cs rest rest' : List Char}

/-- Reading the text gives a result and leaves a rest. -/
def Gives (r : Reader α) (cs : List Char) (a : α) (rest : List Char) : Prop :=
  ∀ least, ∃ least', r cs least = (some (a, rest), least')

/-- Reading the text fails. -/
def Misses (r : Reader α) (cs : List Char) : Prop := ∀ least, ∃ least', r cs least = (none, least')

/-! ## Sequences -/

theorem gives_pure (a : α) (cs : List Char) : Gives (pure a) cs a cs := fun least => ⟨least, rfl⟩

theorem misses_fail (cs : List Char) : Misses (fail : Reader α) cs := fun least => ⟨least, rfl⟩

theorem bind_run (r : Reader α) (f : α → Reader β) (cs : List Char) (least : ℕ) :
    (r >>= f) cs least = match r cs least with
      | (some (a, rest), least) => f a rest least
      | (none, least) => (none, least) := rfl

theorem Gives.bind (first : Gives r cs a rest) (next : Gives (f a) rest b rest') :
    Gives (r >>= f) cs b rest' := by
  intro least
  obtain ⟨least₁, read⟩ := first least
  obtain ⟨least₂, read'⟩ := next least₁
  exact ⟨least₂, by rw [bind_run, read]; exact read'⟩

theorem Misses.bind (first : Misses r cs) : Misses (r >>= f) cs := by
  intro least
  obtain ⟨least₁, read⟩ := first least
  exact ⟨least₁, by rw [bind_run, read]⟩

theorem Gives.bind_misses (first : Gives r cs a rest) (next : Misses (f a) rest) :
    Misses (r >>= f) cs := by
  intro least
  obtain ⟨least₁, read⟩ := first least
  obtain ⟨least₂, read'⟩ := next least₁
  exact ⟨least₂, by rw [bind_run, read]; exact read'⟩

theorem Gives.map (g : α → β) (read : Gives r cs a rest) : Gives (g <$> r) cs (g a) rest :=
  read.bind (gives_pure _ _)

theorem Misses.map (g : α → β) (read : Misses r cs) : Misses (g <$> r) cs := read.bind

theorem Gives.rule (read : Gives r cs a rest) : Gives (rule r) cs a rest := by
  intro least
  obtain ⟨least', read⟩ := read least
  exact ⟨least', by rw [Reader.rule, read]⟩

theorem Misses.rule (read : Misses r cs) : Misses (rule r) cs := by
  intro least
  obtain ⟨least', read⟩ := read least
  exact ⟨_, by rw [Reader.rule, read]⟩

/-! ## Choices -/

theorem Gives.orElse (read : Gives r cs a rest) (s : Reader α) : Gives (orElse r s) cs a rest := by
  intro least
  obtain ⟨least', read⟩ := read least
  exact ⟨least', by rw [Reader.orElse, read]⟩

theorem Misses.orElse_gives (missed : Misses r cs) (read : Gives s cs a rest) :
    Gives (orElse r s) cs a rest := by
  intro least
  obtain ⟨least₁, missed⟩ := missed least
  obtain ⟨least₂, read⟩ := read least₁
  exact ⟨least₂, by rw [Reader.orElse, missed]; exact read⟩

theorem Misses.orElse (missed : Misses r cs) (missed' : Misses s cs) : Misses (orElse r s) cs := by
  intro least
  obtain ⟨least₁, missed⟩ := missed least
  obtain ⟨least₂, missed'⟩ := missed' least₁
  exact ⟨least₂, by rw [Reader.orElse, missed]; exact missed'⟩

theorem misses_firstOf {rs : List (Reader α)} (missed : ∀ r ∈ rs, Misses r cs) :
    Misses (firstOf rs) cs := by
  induction rs with
  | nil => exact misses_fail cs
  | cons r rs ih =>
    obtain ⟨first, missed⟩ := List.forall_mem_cons.mp missed
    exact first.orElse (ih missed)

theorem gives_optional_some (nonempty : cs ≠ []) (read : Gives r cs a rest) :
    Gives (optional r) cs (some a) rest := by
  cases cs with
  | nil => exact absurd rfl nonempty
  | cons c cs => exact (read.map some).orElse _

theorem gives_optional_none (missed : cs ≠ [] → Misses r cs) : Gives (optional r) cs none cs := by
  cases cs with
  | nil => exact fun least => ⟨least, rfl⟩
  | cons c cs => exact ((missed (by simp)).map some).orElse_gives (gives_pure _ _)

theorem gives_many_nil (missed : cs ≠ [] → Misses r cs) (n : ℕ) : Gives (many r n) cs [] cs := by
  cases n with
  | zero => exact gives_pure _ _
  | succ n => exact (gives_optional_none missed).bind (gives_pure _ _)

theorem gives_many_cons {as : List α} {n : ℕ} (nonempty : cs ≠ []) (read : Gives r cs a rest)
    (later : Gives (many r n) rest as rest') : Gives (many r (n + 1)) cs (a :: as) rest' :=
  (gives_optional_some nonempty read).bind (later.bind (gives_pure _ _))

/-! ## Characters -/

theorem gives_literal (text rest : List Char) : Gives (literal text) (text ++ rest) () rest := by
  have found : text.isPrefixOf? (text ++ rest) = some rest :=
    List.isPrefixOf?_eq_some_iff_append_eq.mpr rfl
  exact fun least => ⟨least, by rw [literal, found]⟩

theorem head_ne {c d : Char} (h : c ≠ d) (tail : List Char) : ∀ e ∈ (c :: tail).head?, e ≠ d := by
  simpa using h

theorem head_notMem {c : Char} {bad : List Char} (h : c ∉ bad) (tail : List Char) :
    ∀ d ∈ (c :: tail).head?, d ∉ bad := by simpa using h

theorem head_not {p : Char → Bool} {c : Char} (h : p c = false) (tail : List Char) :
    ∀ e ∈ (c :: tail).head?, p e = false := by simpa using h

theorem misses_literal {c : Char} (text : List Char) (other : ∀ d ∈ cs.head?, d ≠ c) :
    Misses (literal (c :: text)) cs := by
  have missing : (c :: text).isPrefixOf? cs = none := by
    cases cs with
    | nil => rfl
    | cons d cs =>
      have different : (c == d) = false := by simpa using (other d rfl).symm
      simp [List.isPrefixOf?, different]
  exact fun least => ⟨least, by rw [literal, missing]⟩

theorem gives_run {p : Char → Bool} {w : List Char} (all : ∀ c ∈ w, p c)
    (stops : ∀ c ∈ rest.head?, p c = false) : Gives (run p) (w ++ rest) w rest := by
  obtain ⟨front, back⟩ := Text.span_append all stops
  exact fun least => ⟨least, by rw [run, front, back]⟩

theorem gives_run1 {p : Char → Bool} {w : List Char} (nonempty : w ≠ []) (all : ∀ c ∈ w, p c)
    (stops : ∀ c ∈ rest.head?, p c = false) : Gives (run1 p) (w ++ rest) w rest := by
  refine (gives_run all stops).bind ?_
  cases w with
  | nil => exact absurd rfl nonempty
  | cons c w => exact gives_pure _ _

theorem misses_run1 {p : Char → Bool} (stops : ∀ c ∈ cs.head?, p c = false) : Misses (run1 p) cs :=
  (gives_run (w := []) (by simp) stops).bind_misses (misses_fail _)

/-- White space only. -/
def Blank (w : List Char) : Prop := ∀ c ∈ w, Text.isSpace c

instance : DecidablePred Blank := List.decidableBAll _

theorem gives_blanks {w : List Char} (blank : Blank w)
    (stops : ∀ c ∈ rest.head?, Text.isSpace c = false) : Gives blanks (w ++ rest) () rest :=
  (gives_run blank stops).bind (gives_pure _ _)

/-- The text is not empty and does not start with white space. -/
def Begins (t : List Char) : Prop := ∃ c tail, t = c :: tail ∧ Text.isSpace c = false

theorem Begins.head {t : List Char} (begins : Begins t) (rest : List Char) :
    ∀ c ∈ (t ++ rest).head?, Text.isSpace c = false := by
  obtain ⟨c, tail, rfl, space⟩ := begins
  exact head_not space _

theorem gives_sign (text : String) (a : α) (rest : List Char) :
    Gives (sign text a) (text.toList ++ rest) a rest := (gives_literal _ _).bind (gives_pure _ _)

/-! ## Tokens -/

/-- The text is at its end, or goes on with white space, a closing bracket or a comma. -/
def Closes (rest : List Char) : Prop := ∀ c ∈ rest.head?, Text.isSpace c ∨ c ∈ [')', ',', ']']

theorem closes_append {w : List Char} {c : Char} (blank : Blank w) (mark : c ∈ [')', ',', ']'])
    (rest : List Char) : Closes (w ++ c :: rest) := by
  cases w with
  | nil =>
    rintro d ⟨⟩
    exact .inr mark
  | cons d w =>
    rintro e ⟨⟩
    exact .inl (blank d (List.mem_cons_self ..))

theorem not_isSpace_of_isNamePart {c : Char} (part : isNamePart c) : Text.isSpace c = false := by
  -- No white space lies between the digit zero and the letter z.
  have bounds : 48 ≤ c.toNat ∧ c.toNat ≤ 122 := by
    have order : ∀ {a b : Char}, a ≤ b → a.toNat ≤ b.toNat := UInt32.le_iff_toNat_le.mp
    simp only [isNamePart, isNameStart, isAsciiDigit, Bool.or_eq_true, Bool.and_eq_true,
      decide_eq_true_eq, beq_iff_eq] at part
    rcases part with ((⟨low, high⟩ | ⟨low, high⟩) | rfl) | ⟨low, high⟩
    · exact ⟨le_trans (by decide) (order low), le_trans (order high) (by decide)⟩
    · exact ⟨le_trans (by decide) (order low), order high⟩
    · decide
    · exact ⟨order low, le_trans (order high) (by decide)⟩
  simp [Text.isSpace]
  omega

theorem Closes.head (closes : Closes rest) {c : Char} (hc : c ∈ rest.head?) :
    isNamePart c = false ∧ c ≠ '.' ∧ c ≠ '/' := by
  rcases closes c hc with space | mark
  · refine ⟨?_, ?_, ?_⟩
    · by_contra part
      simp [not_isSpace_of_isNamePart (Bool.of_not_eq_false part)] at space
    · rintro rfl
      exact absurd space (by decide)
    · rintro rfl
      exact absurd space (by decide)
  · have marks : ∀ c ∈ [')', ',', ']'], isNamePart c = false ∧ c ≠ '.' ∧ c ≠ '/' :=
      List.all_iff_forall_prop.mp (by decide)
    exact marks c mark

theorem isNamePart_of_isDigit {c : Char} (digit : isAsciiDigit c) : isNamePart c := by
  simp [isNamePart, digit]

theorem Closes.not_digit (closes : Closes rest) : ∀ c ∈ rest.head?, isAsciiDigit c = false := by
  intro c hc
  by_contra digit
  have part := isNamePart_of_isDigit (Bool.of_not_eq_false digit)
  simp [(closes.head hc).1] at part

theorem gives_fraction {mark : Char} {es : List Char} (digits : Numeral.IsDigits es)
    (closes : Closes rest) : Gives (fraction mark) (mark :: es ++ rest) (mark :: es) rest :=
  (gives_literal [mark] _).bind
    ((gives_run1 digits.nonempty digits.digits closes.not_digit).bind (gives_pure _ _))

theorem misses_fraction {mark : Char} (other : ∀ c ∈ cs.head?, c ≠ mark) : Misses (fraction mark) cs :=
  (misses_literal [] other).bind

theorem gives_digits_of_tail {ds : List Char} {tail : Option (List Char)} (whole : Numeral.IsDigits ds)
    (stops : ∀ c ∈ cs.head?, isAsciiDigit c = false)
    (read : Gives (optional (orElse (fraction '.') (fraction '/'))) cs tail rest) :
    Gives digits (ds ++ cs) (ds ++ tail.getD []) rest :=
  (gives_run1 whole.nonempty whole.digits stops).bind (read.bind (gives_pure _ _))

theorem gives_digits {q : ℚ} (spells : Numeral.Spells cs q) (closes : Closes rest) :
    Gives digits (cs ++ rest) cs rest := by
  cases spells with
  | whole whole =>
    have missed : Misses (orElse (fraction '.') (fraction '/')) rest :=
      (misses_fraction fun c hc => (closes.head hc).2.1).orElse
        (misses_fraction fun c hc => (closes.head hc).2.2)
    simpa using gives_digits_of_tail whole closes.not_digit (gives_optional_none fun _ => missed)
  | @ratio ds es whole denominator _ =>
    -- The decimal point is tried before the slash.
    have point : Misses (fraction '.') ('/' :: es ++ rest) := misses_fraction (head_ne (by decide) _)
    have read := point.orElse_gives (gives_fraction denominator closes)
    simpa using gives_digits_of_tail whole (head_not (by decide) _) (gives_optional_some (by simp) read)
  | @decimal ds es whole decimals =>
    have read : Gives (orElse (fraction '.') (fraction '/')) ('.' :: es ++ rest) ('.' :: es) rest :=
      (gives_fraction decimals closes).orElse _
    simpa using gives_digits_of_tail whole (head_not (by decide) _) (gives_optional_some (by simp) read)

theorem gives_number {q : ℚ} (spells : Numeral.Spells cs q) (closes : Closes rest) :
    Gives number (cs ++ rest) cs rest := (gives_digits spells closes).rule

theorem misses_number (other : ∀ c ∈ cs.head?, isAsciiDigit c = false) : Misses number cs :=
  (misses_run1 other).bind.rule

theorem gives_keep (text rest : List Char) : Gives (keep text) (text ++ rest) text rest :=
  (gives_literal _ _).bind (gives_pure _ _)

theorem misses_keep {c : Char} {text : List Char} (other : ∀ d ∈ cs.head?, d ≠ c) :
    Misses (keep (c :: text)) cs := (misses_literal text other).bind

theorem exists_cons_of_size {b : Bound} (spells : Bound.Size cs b) :
    ∃ c tail, cs = c :: tail ∧ isNamePart c := by
  cases spells with
  | inf => exact ⟨'i', _, rfl, by decide⟩
  | oo => exact ⟨'o', _, rfl, by decide⟩
  | number spells =>
    obtain ⟨c, tail, rfl, digit⟩ := spells.exists_cons
    exact ⟨c, tail, rfl, isNamePart_of_isDigit digit⟩

theorem gives_size {b : Bound} (spells : Bound.Size cs b) (closes : Closes rest) :
    Gives (firstOf [keep "inf".toList, keep "oo".toList, digits]) (cs ++ rest) cs rest := by
  cases spells with
  | inf => exact (gives_keep "inf".toList rest).orElse _
  | oo =>
    have letter : Misses (keep "inf".toList) ("oo".toList ++ rest) :=
      misses_keep (head_ne (by decide) _)
    exact letter.orElse_gives ((gives_keep "oo".toList rest).orElse _)
  | number spells =>
    have read := gives_digits spells closes
    obtain ⟨c, tail, rfl, digit⟩ := spells.exists_cons
    have other : ∀ d : Char, d.isDigit = false → ∀ e ∈ (c :: tail ++ rest).head?, e ≠ d :=
      fun d letter => head_ne (Text.ne_of_isDigit digit letter) _
    exact (misses_keep (other 'i' (by decide))).orElse_gives
      ((misses_keep (other 'o' (by decide))).orElse_gives (read.orElse _))

/-- The text of an end of an interval: a size, perhaps with a sign and white space before it. -/
inductive WritesBound : List Char → Bound → Prop where
  | unsigned {cs : List Char} {b : Bound} (spells : Bound.Size cs b) : WritesBound cs b
  | signed {c : Char} {w cs : List Char} {size b : Bound} (sign : Bound.Sign [c] size b)
      (blank : Blank w) (spells : Bound.Size cs size) : WritesBound (c :: (w ++ cs)) b

theorem WritesBound.begins {t : List Char} {b : Bound} (writes : WritesBound t b) : Begins t := by
  cases writes with
  | unsigned spells =>
    obtain ⟨c, tail, rfl, part⟩ := exists_cons_of_size spells
    exact ⟨c, tail, rfl, not_isSpace_of_isNamePart part⟩
  | @signed c w cs _ _ sign _ _ =>
    refine ⟨c, w ++ cs, rfl, ?_⟩
    cases sign <;> decide

theorem WritesBound.exists_gives {t : List Char} {b : Bound} (writes : WritesBound t b) :
    ∃ cs, Bound.ofText? (String.ofList cs) = some b ∧
      ∀ rest, Closes rest → Gives bound (t ++ rest) cs rest := by
  cases writes with
  | unsigned spells =>
    have text := Bound.ofText?_of_spells (.none b) spells
    rw [List.nil_append] at text
    refine ⟨t, text, fun rest closes => ?_⟩
    have size := gives_size spells closes
    obtain ⟨c, tail, rfl, part⟩ := exists_cons_of_size spells
    -- Neither the sign nor the white space behind it has to be there.
    have noSign : Misses (orElse (keep ['+']) (keep ['-'])) (c :: tail ++ rest) := by
      have other : ∀ d : Char, isNamePart d = false → c ≠ d := by
        rintro d no rfl
        simp [no] at part
      exact (misses_keep (head_ne (other '+' (by decide)) _)).orElse
        (misses_keep (head_ne (other '-' (by decide)) _))
    have noBlanks : Gives blanks (c :: tail ++ rest) () (c :: tail ++ rest) :=
      gives_blanks (w := []) (by simp [Blank]) (head_not (not_isSpace_of_isNamePart part) _)
    exact ((gives_optional_none fun _ => noSign).bind
      (noBlanks.bind (size.bind (gives_pure _ _)))).rule
  | @signed c w cs size _ sign blank spells =>
    refine ⟨[c] ++ cs, Bound.ofText?_of_spells sign spells, fun rest closes => ?_⟩
    have signRead : Gives (orElse (keep ['+']) (keep ['-'])) (c :: (w ++ (cs ++ rest))) [c]
        (w ++ (cs ++ rest)) := by
      cases sign with
      | plus => exact (gives_keep ['+'] _).orElse _
      | minus => exact (misses_keep (head_ne (by decide) _)).orElse_gives (gives_keep ['-'] _)
    have blanksRead : Gives blanks (w ++ (cs ++ rest)) () (cs ++ rest) := by
      obtain ⟨d, tail, rfl, part⟩ := exists_cons_of_size spells
      exact gives_blanks blank (head_not (not_isSpace_of_isNamePart part) _)
    rw [List.cons_append, List.append_assoc]
    refine Gives.rule ((gives_optional_some (by simp) signRead).bind (blanksRead.bind ?_))
    exact (gives_size spells closes).bind (gives_pure _ _)

theorem gives_interval {l h cs ds w₁ w₂ w₃ w₄ : List Char}
    (low : ∀ rest, Closes rest → Gives bound (l ++ rest) cs rest)
    (high : ∀ rest, Closes rest → Gives bound (h ++ rest) ds rest)
    (lowBegins : Begins l) (highBegins : Begins h)
    (b₁ : Blank w₁) (b₂ : Blank w₂) (b₃ : Blank w₃) (b₄ : Blank w₄) (rest : List Char) :
    Gives interval ('[' :: (w₁ ++ (l ++ (w₂ ++ ',' :: (w₃ ++ (h ++ (w₄ ++ ']' :: rest)))))))
      (.interval cs ds) rest := by
  have lowRead := low (w₂ ++ ',' :: (w₃ ++ (h ++ (w₄ ++ ']' :: rest)))) (closes_append b₂ (by decide) _)
  have highRead := high (w₄ ++ ']' :: rest) (closes_append b₄ (by decide) _)
  refine Gives.rule ((gives_literal ['['] _).bind ?_)
  refine (gives_blanks b₁ (lowBegins.head _)).bind (lowRead.bind ?_)
  refine (gives_blanks b₂ (head_not (by decide) _)).bind ((gives_literal [','] _).bind ?_)
  refine (gives_blanks b₃ (highBegins.head _)).bind (highRead.bind ?_)
  exact (gives_blanks b₄ (head_not (by decide) _)).bind ((gives_literal [']'] _).bind (gives_pure _ _))

theorem misses_interval (other : ∀ c ∈ cs.head?, c ≠ '[') : Misses interval cs :=
  (misses_literal [] other).bind.rule

theorem gives_name {c : Char} {ds : List Char} (letter : isNameStart c) (digits : ∀ d ∈ ds, d.isDigit)
    (closes : Closes rest) : Gives name (c :: ds ++ rest) (c :: ds) rest := by
  have parts : ∀ d ∈ c :: ds, isNamePart d := List.forall_mem_cons.mpr
    ⟨by simp [isNamePart, letter], fun d hd => isNamePart_of_isDigit (digits d hd)⟩
  have read := gives_run parts fun d hd => (closes.head hd).1
  refine Gives.rule fun least => ?_
  obtain ⟨least', read⟩ := read least
  exact ⟨least', by simpa [letter] using read⟩

theorem misses_name (other : ∀ c ∈ cs.head?, isNameStart c = false) : Misses name cs := by
  refine Misses.rule fun least => ⟨least, ?_⟩
  cases cs with
  | nil => rfl
  | cons c cs => simp [other c rfl]

theorem misses_sign {c : Char} {text : String} (first : text.toList.head? = some c) (a : α)
    (other : ∀ d ∈ cs.head?, d ≠ c) : Misses (sign text a) cs := by
  obtain ⟨tail, split⟩ := List.head?_eq_some_iff.mp first
  rw [sign, split]
  exact (misses_literal tail other).bind

end SkewBox.Formula.Reader
