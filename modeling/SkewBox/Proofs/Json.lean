import SkewBox.Payload.Json
import SkewBox.Proofs.Numerals
import SkewBox.Proofs.Outcome

/-!
# JSON texts as written

A text without blanks, in ASCII, is read back as its datum, whatever comes behind it.  There is one
rule for each kind of datum that values are written with, and one for each way to compose them.  An
integer is read if its digits are few enough, and a text if its lists and records may be opened.

* `Limits.Allows`: the number of lists and records that may be open at once.
* `Json.Written`: a text that is read as a datum.
* `Json.written_text`, `written_nat`, `written_true`, `written_false`: single data.
* `Json.written_list`, `Json.written_record`: lists and records of written data.
* `Json.Written.read_eq`: a whole text is read.
-/

namespace SkewBox

/-- So many lists and records may be open at once. -/
def Limits.Allows (limits : Limits) (levels : ℕ) : Prop := ∀ most ∈ limits.depth, levels ≤ most

theorem Limits.Allows.mono {limits : Limits} {m n : ℕ} (allows : limits.Allows n) (le : m ≤ n) :
    limits.Allows m := fun most found => le.trans (allows most found)

theorem Limits.Allows.opens {limits : Limits} {level : ℕ} (allows : limits.Allows (level + 1)) :
    limits.opens level = true := by
  unfold Limits.opens
  cases found : limits.depth with
  | none => rfl
  | some most => simpa using allows most found

namespace Json

variable {limits : Limits} {levels level : ℕ}

/-! ## What may follow -/

/-- The text is at its end, or goes on with a comma or a closing bracket. -/
def Follows (rest : List Char) : Prop := ∀ c tail, rest = c :: tail → c ∈ [',', ']', '\x7d']

theorem follows_nil : Follows [] := by simp [Follows]

theorem follows_cons {c : Char} (mem : c ∈ [',', ']', '\x7d']) (tail : List Char) :
    Follows (c :: tail) := by
  intro d rest same
  obtain ⟨rfl, -⟩ := List.cons.inj same
  exact mem

theorem Follows.head {c : Char} {tail : List Char} (follows : Follows (c :: tail)) :
    isDigit c = false ∧ c ≠ '.' ∧ c ≠ 'e' ∧ c ≠ 'E' := by
  have marks : ∀ c ∈ [',', ']', '\x7d'], isDigit c = false ∧ c ≠ '.' ∧ c ≠ 'e' ∧ c ≠ 'E' :=
    List.all_iff_forall_prop.mp (by decide)
  exact marks c (follows c tail rfl)

/-- A text in ASCII without blanks in front that is read as a datum, if its end can be seen and its
lists and records may be open inside the others. -/
structure Written (limits : Limits) (levels : ℕ) (t : List Char) (d : Datum) : Prop where
  ascii : ∀ c ∈ t, c.toNat < 0x80
  starts : ∃ c rest, t = c :: rest ∧ isSpace c = false ∧ c ≠ ']'
  read : ∀ fuel level rest, t.length ≤ fuel → limits.Allows (level + levels) → Follows rest →
    value limits fuel level (t ++ rest) = .ok (d, rest)

variable {t : List Char} {d : Datum}

theorem skip_cons {c : Char} (h : isSpace c = false) (rest : List Char) :
    skip (c :: rest) = c :: rest :=
  List.dropWhile_cons_of_neg (by simp [h])

theorem Written.skip (written : Written limits levels t d) (rest : List Char) :
    Json.skip (t ++ rest) = t ++ rest := by
  obtain ⟨c, tail, rfl, space, -⟩ := written.starts
  exact skip_cons space _

theorem Written.mono (written : Written limits levels t d) {more : ℕ} (le : levels ≤ more) :
    Written limits more t d where
  ascii := written.ascii
  starts := written.starts
  read fuel level rest enough allows :=
    written.read fuel level rest enough (allows.mono (Nat.add_le_add_left le level))

theorem Written.read_eq (written : Written limits levels t d) (allows : limits.Allows levels) :
    Json.read limits t = .ok d := by
  have skipped : Json.skip t = t := by simpa using written.skip []
  have value : value limits (2 * t.length + 2) 0 t = .ok (d, []) := by
    simpa using written.read (2 * t.length + 2) 0 [] (by omega) (by rwa [Nat.zero_add]) follows_nil
  rw [Json.read, skipped, value]
  rfl

/-! ## Texts -/

/-- The characters stand for themselves between quotes. -/
def Plain (s : List Char) : Prop := ∀ c ∈ s, c ≠ '"' ∧ c ≠ '\\' ∧ 0x20 ≤ c.toNat ∧ c.toNat < 0x80

instance : DecidablePred Plain := List.decidableBAll _

theorem text?_append {s : List Char} (plain : Plain s) {fuel : ℕ} (enough : s.length < fuel)
    (rest : List Char) : text? fuel (s ++ '"' :: rest) = some (s, rest) := by
  induction s generalizing fuel with
  | nil =>
    obtain ⟨fuel, rfl⟩ := Nat.exists_eq_add_one_of_ne_zero (Nat.ne_of_gt enough)
    rfl
  | cons c s ih =>
    obtain ⟨fuel, rfl⟩ := Nat.exists_eq_add_one_of_ne_zero (Nat.ne_of_gt (Nat.zero_lt_of_lt enough))
    obtain ⟨⟨quote, backslash, control, -⟩, plain⟩ := List.forall_mem_cons.mp plain
    have later := ih plain (Nat.lt_of_succ_lt_succ enough)
    simp [text?, quote, backslash, not_lt.mpr control, later]

theorem written_text {s : List Char} (plain : Plain s) :
    Written limits 0 ('"' :: s ++ ['"']) (.text (String.ofList s)) where
  ascii := by
    simp only [List.cons_append, List.mem_cons, List.mem_append, List.not_mem_nil, or_false]
    rintro c (rfl | hc | rfl)
    · decide
    · exact (plain c hc).2.2.2
    · decide
  starts := ⟨'"', s ++ ['"'], rfl, by decide, by decide⟩
  read fuel level rest enough _ _ := by
    simp only [List.length_append, List.length_cons, List.length_nil] at enough
    obtain ⟨fuel, rfl⟩ := Nat.exists_eq_add_one_of_ne_zero (show fuel ≠ 0 by omega)
    have read := text?_append plain (show s.length < fuel by omega) rest
    simp [value, read]
    rfl

/-! ## Numbers and truth values -/

theorem value_of_other {c : Char} (other : c ∉ ['"', '[', '\x7b']) (fuel : ℕ) (rest : List Char) :
    value limits (fuel + 1) level (c :: rest) =
      (constant? (c :: rest)).elim (numeric limits (c :: rest)) .ok := by
  simp only [List.mem_cons, List.not_mem_nil, or_false, not_or] at other
  unfold value
  split
  · exact absurd (List.cons.inj ‹_›).1 other.1
  · exact absurd (List.cons.inj ‹_›).1 other.2.1
  · exact absurd (List.cons.inj ‹_›).1 other.2.2
  · rfl

theorem constant?_of_digit {c : Char} (digit : c.isDigit) (rest : List Char) :
    constant? (c :: rest) = none := by
  have other : ∀ d ∈ ['n', 't', 'f', 'N', 'I'], (d == c) = false := by
    intro d hd
    have letters : ∀ d ∈ ['n', 't', 'f', 'N', 'I'], d.isDigit = false := by simp
    simpa using (Text.ne_of_isDigit digit (letters d hd)).symm
  simp only [List.forall_mem_cons] at other
  simp [constant?, word?, List.isPrefixOf?, other]

theorem eq_nil_of_toDigits {n : ℕ} {rest : List Char} (h : Nat.toDigits 10 n = '0' :: rest) :
    rest = [] := by
  induction n using Nat.strong_induction_on generalizing rest with
  | _ n ih =>
    by_cases small : n < 10
    · rw [Nat.toDigits_of_lt_base small] at h
      exact (List.cons.inj h).2.symm
    · rw [Nat.toDigits_of_base_le (by norm_num) (not_lt.mp small)] at h
      -- The quotient would start with a zero, too, and so be zero.
      cases quotient : Nat.toDigits 10 (n / 10) with
      | nil => exact absurd quotient Nat.toDigits_ne_nil
      | cons c tail =>
        rw [quotient] at h
        obtain ⟨rfl, -⟩ := List.cons.inj h
        obtain rfl := ih (n / 10) (by omega) quotient
        have zero : n / 10 = 0 := by
          rw [← Nat.ofDigitChars_ten_toDigits (n := n / 10), quotient]
          rfl
        omega

theorem span_toDigits (n : ℕ) {rest : List Char} (follows : Follows rest) :
    (Nat.toDigits 10 n ++ rest).takeWhile isDigit = Nat.toDigits 10 n ∧
      (Nat.toDigits 10 n ++ rest).dropWhile isDigit = rest := by
  refine Text.span_append (Numeral.isDigits_toDigits n).digits fun c hc => ?_
  obtain ⟨tail, rfl⟩ := List.head?_eq_some_iff.mp hc
  exact follows.head.1

theorem whole?_toDigits (n : ℕ) {rest : List Char} (follows : Follows rest) :
    whole? (Nat.toDigits 10 n ++ rest) = some (Nat.toDigits 10 n, rest) := by
  obtain ⟨front, back⟩ := span_toDigits n follows
  unfold whole?
  split
  -- After a leading zero the reader stops, and no more digits are there.
  · rename_i tail same
    cases digits : Nat.toDigits 10 n with
    | nil => exact absurd digits Nat.toDigits_ne_nil
    | cons c more =>
      rw [digits] at same
      obtain ⟨rfl, rfl⟩ := List.cons.inj same
      rw [eq_nil_of_toDigits digits]
      rfl
  · rw [front, back]
    cases digits : Nat.toDigits 10 n with
    | nil => exact absurd digits Nat.toDigits_ne_nil
    | cons c more => rfl

theorem natOf_toDigits (n : ℕ) : natOf (Nat.toDigits 10 n) = n := by
  have value := Nat.ofDigitChars_ten_toDigits (n := n)
  rwa [Nat.ofDigitChars_eq_foldl] at value

theorem number_toDigits {n : ℕ} (few : limits.spells (Nat.toDigits 10 n).length = true)
    {rest : List Char} (follows : Follows rest) :
    number limits false (Nat.toDigits 10 n ++ rest) = .ok (.int n, rest) := by
  have fraction : fraction? rest = none := by
    unfold fraction?
    split
    · exact absurd rfl follows.head.2.1
    · rfl
  have exponent : exponent? rest = none := by
    unfold exponent?
    split
    · exact if_neg (not_or.mpr ⟨follows.head.2.2.1, follows.head.2.2.2⟩)
    · rfl
  simp [number, whole?_toDigits n follows, fraction, exponent, natOf_toDigits, few]
  rfl

theorem numeric_of_digit {c : Char} (digit : c.isDigit) (rest : List Char) :
    numeric limits (c :: rest) = number limits false (c :: rest) := by
  unfold numeric
  split
  · exact absurd (List.cons.inj ‹_›).1 (Text.ne_of_isDigit digit (by decide))
  · rfl

theorem written_nat {n : ℕ} (few : limits.spells (Nat.toDigits 10 n).length = true) :
    Written limits 0 (Nat.toDigits 10 n) (.int n) := by
  have digits := (Numeral.isDigits_toDigits n).digits
  have number := fun rest (follows : Follows rest) => number_toDigits few follows
  cases text : Nat.toDigits 10 n with
  | nil => exact absurd text Nat.toDigits_ne_nil
  | cons c tail =>
    rw [text] at digits number
    have first : c.isDigit := digits c (List.mem_cons_self ..)
    have marks : ∀ d ∈ [' ', '\t', '\n', '\r', ']', '"', '[', '\x7b'], d.isDigit = false := by simp
    have apart : ∀ d ∈ [' ', '\t', '\n', '\r', ']', '"', '[', '\x7b'], c ≠ d := fun d hd =>
      Text.ne_of_isDigit first (marks d hd)
    simp only [List.forall_mem_cons] at apart
    refine ⟨fun c hc => ?_, ⟨c, tail, rfl, by simp [isSpace, apart], apart.2.2.2.2.1⟩, ?_⟩
    · have := Text.bounds_of_isDigit (digits c hc)
      omega
    · intro fuel level rest enough _ follows
      obtain ⟨fuel, rfl⟩ := Nat.exists_eq_add_of_le' (Nat.le_trans (Nat.le_add_left 1 _) enough)
      rw [List.cons_append, value_of_other (by simp [apart]), constant?_of_digit first, Option.elim_none,
        numeric_of_digit first]
      exact number rest follows

theorem written_true : Written limits 0 ['t', 'r', 'u', 'e'] (.bool true) where
  ascii := by simp
  starts := ⟨'t', _, rfl, by decide, by decide⟩
  read fuel level rest enough _ _ := by
    obtain ⟨fuel, rfl⟩ := Nat.exists_eq_add_of_le' (Nat.le_trans (Nat.le_add_left 1 _) enough)
    rfl

theorem written_false : Written limits 0 ['f', 'a', 'l', 's', 'e'] (.bool false) where
  ascii := by simp
  starts := ⟨'f', _, rfl, by decide, by decide⟩
  read fuel level rest enough _ _ := by
    obtain ⟨fuel, rfl⟩ := Nat.exists_eq_add_of_le' (Nat.le_trans (Nat.le_add_left 1 _) enough)
    rfl

/-! ## Lists -/

theorem exists_intercalate_cons (t : List Char) (ts : List (List Char)) :
    ∃ more, [','].intercalate (t :: ts) = t ++ more := by
  cases ts with
  | nil => exact ⟨[], by rw [List.intercalate_singleton, List.append_nil]⟩
  | cons t' ts => exact ⟨[','] ++ [','].intercalate (t' :: ts), by
      rw [List.intercalate_cons_cons, List.append_assoc]⟩

theorem forall_mem_intercalate {P : Char → Prop} {ts : List (List Char)} (comma : P ',')
    (each : ∀ t ∈ ts, ∀ c ∈ t, P c) : ∀ c ∈ [','].intercalate ts, P c := by
  induction ts with
  | nil => simp
  | cons t ts ih =>
    obtain ⟨first, others⟩ := List.forall_mem_cons.mp each
    cases ts with
    | nil => rwa [List.intercalate_singleton]
    | cons t' ts =>
      rw [List.intercalate_cons_cons]
      simp only [List.mem_append, List.mem_singleton]
      rintro c ((hc | rfl) | hc)
      · exact first c hc
      · exact comma
      · exact ih others c hc

theorem skip_comma (rest : List Char) : skip (',' :: rest) = ',' :: rest := skip_cons (by decide) rest

theorem items_intercalate {t : List Char} {d : Datum} {ts : List (List Char)} {ds : List Datum}
    (first : Written limits levels t d) (others : List.Forall₂ (Written limits levels) ts ds)
    (allows : limits.Allows (level + levels)) {fuel : ℕ}
    (enough : ([','].intercalate (t :: ts)).length < fuel) (rest : List Char) :
    items limits fuel level ([','].intercalate (t :: ts) ++ ']' :: rest) = .ok (d :: ds, rest) := by
  induction others generalizing t d fuel with
  | nil =>
    obtain ⟨fuel, rfl⟩ := Nat.exists_eq_add_of_le' (Nat.lt_of_le_of_lt (Nat.zero_le _) enough)
    rw [List.intercalate_singleton] at enough ⊢
    have read := first.read fuel level (']' :: rest) (by omega) allows (follows_cons (by decide) rest)
    simp [items, read, skip_cons (show isSpace ']' = false by decide)]
    rfl
  | @cons t' d' ts ds second others ih =>
    obtain ⟨fuel, rfl⟩ := Nat.exists_eq_add_of_le' (Nat.lt_of_le_of_lt (Nat.zero_le _) enough)
    rw [List.intercalate_cons_cons] at enough ⊢
    simp only [List.length_append, List.length_cons, List.length_nil] at enough
    -- The items behind the comma are a shorter text, for which the remaining fuel is enough.
    have tail := ih second (show ([','].intercalate (t' :: ts)).length < fuel by omega)
    obtain ⟨more, split⟩ := exists_intercalate_cons t' ts
    have skipped : skip ([','].intercalate (t' :: ts) ++ ']' :: rest) =
        [','].intercalate (t' :: ts) ++ ']' :: rest := by
      rw [split, List.append_assoc]
      exact second.skip _
    have read := first.read fuel level (',' :: ([','].intercalate (t' :: ts) ++ ']' :: rest)) (by omega)
      allows (follows_cons (by decide) _)
    simp only [List.append_assoc, List.singleton_append]
    simp [items, read, skip_comma, skipped, tail]

theorem exists_written_of_mem {ts : List (List Char)} {ds : List Datum}
    (each : List.Forall₂ (Written limits levels) ts ds) {t : List Char} (mem : t ∈ ts) :
    ∃ d, Written limits levels t d := by
  induction each with
  | nil => simp at mem
  | @cons t' d ts ds first others ih =>
    rcases List.mem_cons.mp mem with rfl | mem
    · exact ⟨d, first⟩
    · exact ih mem

theorem value_list {c : Char} (space : isSpace c = false) (bracket : c ≠ ']')
    (opens : limits.opens level = true) (fuel : ℕ) (rest : List Char) :
    value limits (fuel + 1) level ('[' :: c :: rest) = (do
      let found ← items limits fuel (level + 1) (c :: rest)
      return (.list found.1, found.2)) := by
  simp only [value, opens, Bool.not_true, Bool.false_eq_true, if_false, skip_cons space]
  split
  · exact absurd (List.cons.inj ‹_›).1 bracket
  · rfl

theorem written_list {ts : List (List Char)} {ds : List Datum}
    (each : List.Forall₂ (Written limits levels) ts ds) :
    Written limits (levels + 1) ('[' :: [','].intercalate ts ++ [']']) (.list ds) where
  ascii := by
    have items : ∀ c ∈ [','].intercalate ts, c.toNat < 0x80 :=
      forall_mem_intercalate (by decide) fun t ht =>
        (exists_written_of_mem each ht).elim fun _ written => written.ascii
    simp only [List.cons_append, List.mem_cons, List.mem_append, List.not_mem_nil, or_false]
    rintro c (rfl | hc | rfl)
    · decide
    · exact items c hc
    · decide
  starts := ⟨'[', _, rfl, by decide, by decide⟩
  read fuel level rest enough allows _ := by
    simp only [List.length_append, List.length_cons, List.length_nil] at enough
    obtain ⟨fuel, rfl⟩ := Nat.exists_eq_add_of_le' (show 1 ≤ fuel by omega)
    have opens : limits.opens level = true := (allows.mono (by omega)).opens
    -- A closing bracket ends an empty list; any other character begins the first item.
    cases each with
    | nil =>
      simp [value, opens, skip_cons (show isSpace ']' = false by decide)]
      rfl
    | @cons t d ts ds first others =>
      have inside : limits.Allows (level + 1 + levels) := allows.mono (by omega)
      have items := items_intercalate first others inside (show _ < fuel by omega) rest
      obtain ⟨more, split⟩ := exists_intercalate_cons t ts
      obtain ⟨c, tail, rfl, space, bracket⟩ := first.starts
      simp only [split, List.cons_append, List.append_assoc, List.nil_append] at items ⊢
      rw [value_list space bracket opens, items]
      rfl

/-! ## Records -/

/-- A key, the text of its datum, and the datum. -/
structure Field where
  key : List Char
  text : List Char
  datum : Datum

namespace Field

def written (f : Field) : List Char := '"' :: f.key ++ '"' :: ':' :: f.text

def entry (f : Field) : String × Datum := (String.ofList f.key, f.datum)

/-- The key needs no escapes, and the text is read as the datum. -/
structure Proper (limits : Limits) (levels : ℕ) (f : Field) : Prop where
  key : Plain f.key
  text : Written limits levels f.text f.datum

theorem Proper.ascii {f : Field} (proper : f.Proper limits levels) : ∀ c ∈ f.written, c.toNat < 0x80 := by
  simp only [written, List.cons_append, List.mem_cons, List.mem_append]
  rintro c (rfl | hc | rfl | rfl | hc)
  · decide
  · exact (proper.key c hc).2.2.2
  · decide
  · decide
  · exact proper.text.ascii c hc

end Field

theorem put_of_not_mem {found : List (String × Datum)} {key : String} (fresh : key ∉ found.map (·.1))
    (d : Datum) : Entries.put found key d = found ++ [(key, d)] := by
  induction found with
  | nil => rfl
  | cons entry found ih =>
    simp only [List.map_cons, List.mem_cons, not_or] at fresh
    rw [Entries.put, if_neg (Ne.symm fresh.1), ih fresh.2]
    rfl

theorem not_mem_of_nodup {f : Field} {fs : List Field} {found : List (String × Datum)}
    (distinct : ((found ++ (f :: fs).map Field.entry).map (·.1)).Nodup) :
    f.entry.1 ∉ found.map (·.1) := by
  rw [List.map_append, List.nodup_append] at distinct
  exact fun mem => distinct.2.2 _ mem _ (List.mem_cons_self ..) rfl

theorem fields_written {f : Field} (proper : f.Proper limits levels)
    (allows : limits.Allows (level + levels)) {found : List (String × Datum)}
    (fresh : f.entry.1 ∉ found.map (·.1)) {fuel : ℕ} (enough : f.written.length ≤ fuel)
    (rest : List Char) :
    fields limits (fuel + 1) level found (f.written ++ '\x7d' :: rest) =
        .ok (found ++ [f.entry], rest) ∧
      fields limits (fuel + 1) level found (f.written ++ ',' :: rest) =
        fields limits fuel level (found ++ [f.entry]) (skip rest) := by
  simp only [Field.written, List.length_cons, List.length_append] at enough
  have key := text?_append proper.key (show f.key.length < fuel by omega)
  have colon := skip_cons (show isSpace ':' = false by decide)
  have put : Entries.put found (String.ofList f.key) f.datum = found ++ [f.entry] :=
    put_of_not_mem fresh _
  constructor
  · have brace := skip_cons (show isSpace '\x7d' = false by decide)
    have read := proper.text.read fuel level ('\x7d' :: rest) (by omega) allows
      (follows_cons (by decide) rest)
    simp [fields, Field.written, key, colon, proper.text.skip, read, brace, put]
    rfl
  · have read := proper.text.read fuel level (',' :: rest) (by omega) allows
      (follows_cons (by decide) rest)
    simp [fields, Field.written, key, colon, proper.text.skip, read, skip_comma, put]

theorem fields_intercalate {f : Field} {fs : List Field} (first : f.Proper limits levels)
    (others : ∀ f ∈ fs, f.Proper limits levels) (allows : limits.Allows (level + levels))
    {found : List (String × Datum)}
    (distinct : ((found ++ (f :: fs).map Field.entry).map (·.1)).Nodup) {fuel : ℕ}
    (enough : ([','].intercalate ((f :: fs).map Field.written)).length < fuel) (rest : List Char) :
    fields limits fuel level found ([','].intercalate ((f :: fs).map Field.written) ++ '\x7d' :: rest) =
      .ok (found ++ (f :: fs).map Field.entry, rest) := by
  induction fs generalizing f found fuel with
  | nil =>
    obtain ⟨fuel, rfl⟩ := Nat.exists_eq_add_of_le' (Nat.lt_of_le_of_lt (Nat.zero_le _) enough)
    simp only [List.map_cons, List.map_nil, List.intercalate_singleton] at enough ⊢
    exact (fields_written first allows (not_mem_of_nodup distinct) (by omega) rest).1
  | cons f' fs ih =>
    obtain ⟨fuel, rfl⟩ := Nat.exists_eq_add_of_le' (Nat.lt_of_le_of_lt (Nat.zero_le _) enough)
    obtain ⟨second, others⟩ := List.forall_mem_cons.mp others
    -- The fields found so far grow by one, and their keys stay different.
    have appended : found ++ (f :: f' :: fs).map Field.entry =
        (found ++ [f.entry]) ++ (f' :: fs).map Field.entry := by simp
    rw [List.map_cons, List.map_cons, List.intercalate_cons_cons, ← List.map_cons] at enough ⊢
    simp only [List.length_append, List.length_cons, List.length_nil] at enough
    have step := (fields_written first allows (not_mem_of_nodup distinct) (show _ ≤ fuel by omega)
      ([','].intercalate ((f' :: fs).map Field.written) ++ '\x7d' :: rest)).2
    have tail := ih second others (appended ▸ distinct) (show _ < fuel by omega)
    have skipped : skip ([','].intercalate ((f' :: fs).map Field.written) ++ '\x7d' :: rest) =
        [','].intercalate ((f' :: fs).map Field.written) ++ '\x7d' :: rest := by
      obtain ⟨more, split⟩ := exists_intercalate_cons f'.written (fs.map Field.written)
      rw [List.map_cons, split]
      exact skip_cons (by decide) _
    rw [List.append_assoc, List.append_assoc, List.singleton_append, step, skipped, tail, appended]

theorem value_record {c : Char} (space : isSpace c = false) (brace : c ≠ '\x7d')
    (opens : limits.opens level = true) (fuel : ℕ) (rest : List Char) :
    value limits (fuel + 1) level ('\x7b' :: c :: rest) = (do
      let found ← fields limits fuel (level + 1) [] (c :: rest)
      return (.record found.1, found.2)) := by
  simp only [value, opens, Bool.not_true, Bool.false_eq_true, if_false, skip_cons space]
  split
  · exact absurd (List.cons.inj ‹_›).1 brace
  · rfl

theorem written_record {f : Field} {fs : List Field} (first : f.Proper limits levels)
    (others : ∀ f ∈ fs, f.Proper limits levels)
    (distinct : (((f :: fs).map Field.entry).map (·.1)).Nodup) :
    Written limits (levels + 1) ('\x7b' :: [','].intercalate ((f :: fs).map Field.written) ++ ['\x7d'])
      (.record ((f :: fs).map Field.entry)) where
  ascii := by
    have each : ∀ t ∈ (f :: fs).map Field.written, ∀ c ∈ t, c.toNat < 0x80 := by
      intro t ht
      obtain ⟨g, hg, rfl⟩ := List.mem_map.mp ht
      exact (List.forall_mem_cons.mpr ⟨first, others⟩ g hg).ascii
    have fields := forall_mem_intercalate (by decide) each
    simp only [List.cons_append, List.mem_cons, List.mem_append, List.not_mem_nil, or_false]
    rintro c (rfl | hc | rfl)
    · decide
    · exact fields c hc
    · decide
  starts := ⟨'\x7b', _, rfl, by decide, by decide⟩
  read fuel level rest enough allows _ := by
    simp only [List.length_append, List.length_cons, List.length_nil] at enough
    obtain ⟨fuel, rfl⟩ := Nat.exists_eq_add_of_le' (show 1 ≤ fuel by omega)
    have inside : limits.Allows (level + 1 + levels) := allows.mono (by omega)
    have fields := fields_intercalate first others inside
      (show ((([] : List (String × Datum)) ++ (f :: fs).map Field.entry).map (·.1)).Nodup from
        distinct)
      (show _ < fuel by omega) rest
    obtain ⟨more, split⟩ := exists_intercalate_cons f.written (fs.map Field.written)
    rw [← List.map_cons] at split
    simp only [split, Field.written, List.cons_append, List.append_assoc, List.nil_append] at fields ⊢
    rw [value_record (by decide) (by decide) (allows.mono (by omega)).opens, fields]
    rfl

end Json

end SkewBox
