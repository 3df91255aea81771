import SkewBox.Proofs.Inclusion
import SkewBox.Proofs.Json
import SkewBox.Proofs.Payload
import SkewBox.Proofs.Rank

/-!
# Payloads read back

The bytes of a well-formed value, with any bytes behind them, are read back as that value.  The body is
a record of ASCII in which every number is a text that the reader of numerals accepts, and the checks on
loading pass because the rows are independent and the ranges in order.  There are no such bytes when one
of the numbers has more digits than can be written.

* `Payload.numbers`: the numbers that the bytes of a value spell out.
* `Payload.Spelled`: computations that fail exactly when a number has too many digits.
* `Payload.Stores`: a text that is read back as a value.
* `Payload.Storable`: the values whose bytes pass the checks.
* `Payload.decode_encode_append`: the bytes of a value, read back.
-/

namespace SkewBox.Payload

open Json (Written)

variable {limits : Limits} {levels : ℕ}

/-! ## Numbers that can be written -/

/-- The numbers in the text of a bound. -/
def numbersOf : Bound → List ℕ
  | .fin q => [q.num.natAbs, q.den]
  | _ => []

/-- The numbers in the bytes of a value. -/
def numbers (a : Parallelotope) : List ℕ :=
  a.space.ints :: a.space.reals :: a.frame?.elim [] fun f =>
    f.axes.flatMap (fun row => row.flatMap fun c => numbersOf (.fin c)) ++
      f.ranges.flatMap fun I => numbersOf I.lo ++ numbersOf I.hi

/-- The computation returns if all the numbers can be written, and fails if one of them cannot. -/
structure Spelled {α : Type} (limits : Limits) (x : Except Error α) (ns : List ℕ) : Prop where
  ok : (∀ n ∈ ns, limits.spells (Nat.toDigits 10 n).length = true) → ∃ a, x = .ok a
  error : (∃ n ∈ ns, limits.spells (Nat.toDigits 10 n).length = false) → x = .error (.fault .value)

theorem spelled_ok {α : Type} (a : α) : Spelled limits (.ok a) [] := ⟨fun _ => ⟨a, rfl⟩, by simp⟩

theorem spelled_numeral (i : ℤ) : Spelled limits (numeral limits i) [i.natAbs] := by
  constructor
  · intro few
    exact ⟨_, if_pos (few _ (List.mem_cons_self ..))⟩
  · rintro ⟨n, mem, many⟩
    obtain rfl := List.mem_singleton.mp mem
    exact if_neg (by simp [many])

theorem Spelled.bind {α β : Type} {x : Except Error α} {f : α → Except Error β} {ns ms : List ℕ}
    (first : Spelled limits x ns) (next : ∀ a, Spelled limits (f a) ms) :
    Spelled limits (x >>= f) (ns ++ ms) := by
  by_cases few : ∀ n ∈ ns, limits.spells (Nat.toDigits 10 n).length = true
  · obtain ⟨a, rfl⟩ := first.ok few
    refine ⟨fun all => (next a).ok fun n hn => all n (List.mem_append_right _ hn), ?_⟩
    rintro ⟨n, mem, many⟩
    rcases List.mem_append.mp mem with mem | mem
    · simp [few n mem] at many
    · exact (next a).error ⟨n, mem, many⟩
  · obtain ⟨n, mem, many⟩ : ∃ n ∈ ns, limits.spells (Nat.toDigits 10 n).length = false := by
      simpa using few
    refine ⟨fun all => ?_, fun _ => by rw [first.error ⟨n, mem, many⟩, error_bind]⟩
    simp [all n (List.mem_append_left _ mem)] at many

theorem Spelled.map {α β : Type} {x : Except Error α} {f : α → β} {ns : List ℕ}
    (spelled : Spelled limits x ns) : Spelled limits (x >>= fun a => .ok (f a)) ns := by
  simpa using spelled.bind fun a => spelled_ok (f a)

theorem spelled_mapM {α β : Type} {f : α → Except Error β} {ns : α → List ℕ} (items : List α)
    (each : ∀ x, Spelled limits (f x) (ns x)) : Spelled limits (items.mapM f) (items.flatMap ns) := by
  induction items with
  | nil => exact spelled_ok []
  | cons x items ih =>
    rw [List.mapM_cons, List.flatMap_cons]
    exact (each x).bind fun y => ih.map

theorem spelled_boundText (b : Bound) : Spelled limits (boundText limits b) (numbersOf b) := by
  cases b with
  | negInf => exact spelled_ok _
  | posInf => exact spelled_ok _
  | fin q => exact (spelled_numeral q.num).bind fun _ => (spelled_numeral q.den).map

theorem spelled_body (a : Parallelotope) : Spelled limits (body limits a) (numbers a) := by
  obtain ⟨s, frame?⟩ := a
  refine (spelled_numeral s.ints).bind fun ints => (spelled_numeral s.reals).bind fun reals => ?_
  cases frame? with
  | none => exact spelled_ok _
  | some f =>
    refine Spelled.bind (spelled_mapM f.axes fun row => ?_) fun axes => ?_
    · exact (spelled_mapM row fun c => spelled_boundText (.fin c)).map
    · refine Spelled.map (spelled_mapM f.ranges fun I => ?_)
      exact (spelled_boundText I.lo).bind fun lo => (spelled_boundText I.hi).map

/-! ## Numbers and lists -/

/-- The text spells a datum that is read as the value. -/
def Stores {α : Type} (limits : Limits) (levels : ℕ) (read : Datum → Except Error α) (t : String)
    (x : α) : Prop :=
  ∃ d, Written limits levels t.toList d ∧ read d = .ok x

theorem toList_toString (i : ℤ) :
    (toString i).toList = (if 0 ≤ i then [] else ['-']) ++ Nat.toDigits 10 i.natAbs := by
  by_cases nonneg : 0 ≤ i
  · obtain ⟨n, rfl⟩ := Int.eq_ofNat_of_zero_le nonneg
    simp [toString, Int.repr_eq_if]
  · have opposite : (-i).toNat = i.natAbs := by omega
    simp [toString, Int.repr_eq_if, nonneg, opposite]

@[simp] theorem toList_repr_natCast (n : ℕ) : (n : ℤ).repr.toList = Nat.toDigits 10 n :=
  toList_toString n

theorem numeral_eq_ok {i : ℤ} {t : String} (written : numeral limits i = .ok t) :
    t = toString i ∧ limits.spells (Nat.toDigits 10 i.natAbs).length = true := by
  unfold numeral at written
  split at written
  · exact ⟨(Except.ok.inj written).symm, ‹_›⟩
  · cases written

theorem spells_mono {m n : ℕ} (few : limits.spells n = true) (le : m ≤ n) : limits.spells m = true := by
  unfold Limits.spells at few ⊢
  cases found : limits.digits with
  | none => rfl
  | some most =>
    have bound : n ≤ most := by simpa [found] using few
    simpa using le.trans bound

theorem groupsFit_digits {ds rest : List Char} {run : ℕ} (digits : ∀ c ∈ ds, c.isDigit)
    (few : limits.spells (run + ds.length) = true) :
    groupsFit limits run (ds ++ rest) = groupsFit limits (run + ds.length) rest := by
  induction ds generalizing run with
  | nil => rfl
  | cons c ds ih =>
    obtain ⟨first, others⟩ := List.forall_mem_cons.mp digits
    have length : run + 1 + ds.length = run + (c :: ds).length := by
      rw [List.length_cons]
      omega
    have one : limits.spells (run + 1) = true := spells_mono few (by rw [← length]; omega)
    rw [List.cons_append, groupsFit, if_pos (Text.isDigit_of_isDigit first), one, Bool.true_and,
      ih others (length ▸ few), length]

/-- A number of few digits between marks is short enough. -/
theorem groupsFit_toString {i : ℤ} (few : limits.spells (Nat.toDigits 10 i.natAbs).length = true)
    {rest : List Char} (ends : groupsFit limits (Nat.toDigits 10 i.natAbs).length rest = true) :
    groupsFit limits 0 ((toString i).toList ++ rest) = true := by
  have digits := (Numeral.isDigits_toDigits i.natAbs).digits
  have group : groupsFit limits 0 (Nat.toDigits 10 i.natAbs ++ rest) = true := by
    rw [groupsFit_digits digits (by rwa [Nat.zero_add]), Nat.zero_add, ends]
  rw [toList_toString]
  split
  · exact group
  · exact group

/-- The text of a bound between its quotes, as a sign and a size with short groups of digits. -/
theorem exists_boundText {b : Bound} {t : String} (written : boundText limits b = .ok t) :
    ∃ sign cs size, Bound.Sign sign size b ∧ Bound.Size cs size ∧
      t.toList = '"' :: (sign ++ cs) ++ ['"'] ∧ groupsFit limits 0 (sign ++ cs) = true := by
  cases b with
  | negInf =>
    obtain rfl := Except.ok.inj written
    exact ⟨['-'], ['i', 'n', 'f'], .posInf, .minus _, .inf, rfl, rfl⟩
  | posInf =>
    obtain rfl := Except.ok.inj written
    exact ⟨['+'], ['i', 'n', 'f'], .posInf, .plus _, .inf, rfl, rfl⟩
  | fin q =>
    obtain ⟨top, first, written⟩ := bind_eq_ok.mp written
    obtain ⟨bottom, second, written⟩ := bind_eq_ok.mp written
    obtain rfl := Except.ok.inj written
    obtain ⟨rfl, fewTop⟩ := numeral_eq_ok first
    obtain ⟨rfl, fewBottom⟩ := numeral_eq_ok second
    obtain ⟨sign, cs, size, signed, spells, text⟩ := Bound.exists_sign_size q
    refine ⟨sign, cs, size, signed, spells, by simp [text, toString], ?_⟩
    rw [text]
    refine groupsFit_toString fewTop ?_
    have slash : Text.isDigit '/' = false := by decide
    have bottom : groupsFit limits 0 ((toString (q.den : ℤ)).toList ++ []) = true :=
      groupsFit_toString fewBottom rfl
    rw [groupsFit, if_neg (by simp [slash])]
    simpa using bottom

theorem plain_of_spells {sign cs : List Char} {size b : Bound} (signed : Bound.Sign sign size b)
    (spells : Bound.Size cs size) : Json.Plain (sign ++ cs) := by
  refine List.forall_mem_append.mpr ⟨(?_ : Json.Plain sign), (?_ : Json.Plain cs)⟩
  · cases signed <;> decide
  · cases spells with
    | inf => decide
    | oo => decide
    | number spells =>
      intro c hc
      rcases spells.mem c hc with digit | rfl | rfl
      · have bounds := Text.bounds_of_isDigit digit
        exact ⟨Text.ne_of_isDigit digit (by decide), Text.ne_of_isDigit digit (by decide), by omega,
          by omega⟩
      · decide
      · decide

theorem stores_bound {b : Bound} {t : String} (written : boundText limits b = .ok t) :
    Stores limits 0 (bound limits) t b := by
  obtain ⟨sign, cs, size, signed, spells, text, fit⟩ := exists_boundText written
  refine ⟨.text (String.ofList (sign ++ cs)), ?_, ?_⟩
  · rw [text]
    exact Json.written_text (plain_of_spells signed spells)
  · have fits : groupsFit limits 0 (String.ofList (sign ++ cs)).toList = true := by
      rwa [String.toList_ofList]
    simp only [bound, Bound.ofText?_of_spells signed spells, Option.filter, fits, if_true]

theorem toList_listText (items : List String) :
    (listText items).toList = '[' :: [','].intercalate (items.map String.toList) ++ [']'] := by
  simp [listText, String.toList_intercalate]

theorem stores_list {α β : Type} {read : Datum → Except Error α} {value : β → α} {items : List β}
    {ts : List String}
    (each : List.Forall₂ (fun x t => Stores limits levels read t (value x)) items ts) :
    Stores limits (levels + 1) (fun d => do (← parts d).mapM read) (listText ts) (items.map value) := by
  obtain ⟨ds, written, values⟩ :
      ∃ ds, List.Forall₂ (Written limits levels) (ts.map String.toList) ds ∧
        List.Forall₂ (fun d x => read d = .ok x) ds (items.map value) := by
    induction each with
    | nil => exact ⟨[], .nil, .nil⟩
    | cons first _ ih =>
      obtain ⟨d, written, value⟩ := first
      obtain ⟨ds, others, values⟩ := ih
      exact ⟨d :: ds, .cons written others, .cons value values⟩
  refine ⟨.list ds, ?_, mapM_eq_ok.mpr values⟩
  rw [toList_listText]
  exact Json.written_list written

theorem stores_axis {row : Vec} {t : String} (written : axisText limits row = .ok t) :
    Stores limits 1 (fun d => do (← parts d).mapM (bound limits)) t (row.map Bound.fin) := by
  obtain ⟨ts, texts, same⟩ := bind_eq_ok.mp written
  obtain rfl := Except.ok.inj same
  exact stores_list ((mapM_eq_ok.mp texts).imp fun _ _ => stores_bound)

theorem stores_interval {I : Interval} {t : String} (written : rangeText limits I = .ok t) :
    Stores limits 1 (interval limits) t I := by
  obtain ⟨lo, first, written⟩ := bind_eq_ok.mp written
  obtain ⟨hi, second, same⟩ := bind_eq_ok.mp written
  obtain rfl := Except.ok.inj same
  obtain ⟨lo', writtenLo, readLo⟩ := stores_bound first
  obtain ⟨hi', writtenHi, readHi⟩ := stores_bound second
  refine ⟨.list [lo', hi'], ?_, ?_⟩
  · rw [toList_listText]
    exact Json.written_list (.cons writtenLo (.cons writtenHi .nil))
  · simp [interval, parts, readLo, readHi]

/-! ## The body -/

/-- The fields of a body: version and counts, and what depends on the kind of value. -/
def fieldsOf (s : Space) (more : List Json.Field) : List Json.Field :=
  ⟨"v".toList, ['1'], .int 1⟩ :: ⟨"intdim".toList, Nat.toDigits 10 s.ints, .int s.ints⟩ ::
    ⟨"realdim".toList, Nat.toDigits 10 s.reals, .int s.reals⟩ :: more

theorem plain_key : ∀ key ∈ ["v", "intdim", "realdim", "bottom", "basis", "bounds"],
    Json.Plain key.toList := by
  decide

/-- The fields form a record if the last ones do. -/
theorem written_fieldsOf {s : Space} {more : List Json.Field}
    (ints : limits.spells (Nat.toDigits 10 s.ints).length = true)
    (reals : limits.spells (Nat.toDigits 10 s.reals).length = true)
    (proper : ∀ f ∈ more, f.Proper limits levels)
    (distinct : (["v", "intdim", "realdim"] ++ (more.map Json.Field.entry).map (·.1)).Nodup) :
    Written limits (levels + 1)
      ('\x7b' :: [','].intercalate ((fieldsOf s more).map Json.Field.written) ++ ['\x7d'])
      (.record ((fieldsOf s more).map Json.Field.entry)) := by
  -- A count has one digit at least, so a one can be written, too.
  have one : Written limits 0 ['1'] (.int 1) :=
    Json.written_nat (n := 1) (spells_mono ints Nat.length_toDigits_pos)
  refine Json.written_record ⟨plain_key _ (by decide), one.mono (Nat.zero_le _)⟩ ?_ ?_
  · simp only [List.forall_mem_cons]
    exact ⟨⟨plain_key _ (by decide), (Json.written_nat ints).mono (Nat.zero_le _)⟩,
      ⟨plain_key _ (by decide), (Json.written_nat reals).mono (Nat.zero_le _)⟩, proper⟩
  · simpa [Json.Field.entry] using distinct

theorem space_fieldsOf (s : Space) (more : List Json.Field) :
    space limits ((fieldsOf s more).map Json.Field.entry) = .ok s := by
  have counts : Space.ofCounts s.ints s.reals = .ok s := by
    rw [Space.ofCounts, if_neg (by omega)]
    rfl
  -- The two counts stand in front, whatever comes behind them.
  simp [space, fieldsOf, Json.Field.entry, field, List.lookup_cons, integer, counts]
  rfl

theorem stores_body_bottom {s : Space} {t : String} (written : body limits (.bottom s) = .ok t) :
    Stores limits 1 (valueOf limits) t (.bottom s) := by
  obtain ⟨_, ints, written⟩ := bind_eq_ok.mp written
  obtain ⟨_, reals, same⟩ := bind_eq_ok.mp written
  obtain ⟨rfl, fewInts⟩ := numeral_eq_ok ints
  obtain ⟨rfl, fewReals⟩ := numeral_eq_ok reals
  let bottom : Json.Field := ⟨"bottom".toList, "true".toList, .bool true⟩
  refine ⟨.record ((fieldsOf s [bottom]).map Json.Field.entry), ?_, ?_⟩
  · have text : t.toList =
        '\x7b' :: [','].intercalate ((fieldsOf s [bottom]).map Json.Field.written) ++ ['\x7d'] := by
      rw [← Except.ok.inj same]
      simp [bottom, fieldsOf, Json.Field.written, Parallelotope.bottom, toString]
    have proper : bottom.Proper limits 0 := ⟨plain_key _ (by decide), Json.written_true⟩
    rw [text]
    exact written_fieldsOf fewInts fewReals (List.forall_mem_singleton.mpr proper) (by decide)
  · have space := @space_fieldsOf limits s [bottom]
    have truth : field ((fieldsOf s [bottom]).map Json.Field.entry) "bottom" = .ok (.bool true) := rfl
    have version : (((fieldsOf s [bottom]).map Json.Field.entry).lookup "v").any isOne = true := rfl
    simp [valueOf, space, truth, version, truthy]

theorem mapM_map_of_inverse {α β : Type} {f : β → Option α} {g : α → β}
    (inverse : ∀ x, f (g x) = some x) (xs : List α) : (xs.map g).mapM f = some xs := by
  induction xs with
  | nil => rfl
  | cons x xs ih => simp [inverse, ih]

theorem toRat?_fin (q : ℚ) : (Bound.fin q).toRat? = some q := rfl

theorem assemble_of_regular {s : Space} {axes : Mat} {ranges : List Interval}
    (regular : axes.Regular s.size) (length : ranges.length = s.size)
    (ordered : ∀ I ∈ ranges, I.lo ≤ I.hi) :
    assemble s (axes.map (·.map Bound.fin)) ranges = .ok ⟨s, some ⟨axes, ranges, none⟩⟩ := by
  have finite : (axes.map (·.map Bound.fin)).mapM (fun row => row.mapM Bound.toRat?) = some axes :=
    mapM_map_of_inverse (mapM_map_of_inverse toRat?_fin) axes
  obtain ⟨b, tested, invertible⟩ := regular.shape.exists_isInvertible
  obtain rfl := invertible.mpr regular
  have full : ranges.any (·.isBottom) = false := by
    simpa [Interval.isBottom_eq_false_iff] using ordered
  have square : axes.length = s.size ∧ ranges.length = s.size ∧ ∀ row ∈ axes, row.length = s.size :=
    ⟨regular.shape.length, length, regular.shape.width⟩
  simp only [assemble, finite, eq_true square, tested, full, decide_true, ok_bind]
  rfl

theorem stores_body_frame {s : Space} {f : Frame} {t : String}
    (written : body limits ⟨s, some f⟩ = .ok t) (regular : f.axes.Regular s.size)
    (length : f.ranges.length = s.size) (ordered : ∀ I ∈ f.ranges, I.lo ≤ I.hi) :
    Stores limits 3 (valueOf limits) t ⟨s, some ⟨f.axes, f.ranges, none⟩⟩ := by
  obtain ⟨_, ints, written⟩ := bind_eq_ok.mp written
  obtain ⟨_, reals, written⟩ := bind_eq_ok.mp written
  obtain ⟨rfl, fewInts⟩ := numeral_eq_ok ints
  obtain ⟨rfl, fewReals⟩ := numeral_eq_ok reals
  obtain ⟨axes, axesTexts, written⟩ := bind_eq_ok.mp written
  obtain ⟨ranges, rangesTexts, same⟩ := bind_eq_ok.mp written
  obtain ⟨basis, writtenBasis, readBasis⟩ :=
    stores_list ((mapM_eq_ok.mp axesTexts).imp fun _ _ => stores_axis)
  obtain ⟨bounds, writtenBounds, readBounds⟩ : Stores limits 2
      (fun d => do (← parts d).mapM (interval limits)) (listText ranges) (f.ranges.map id) :=
    stores_list ((mapM_eq_ok.mp rangesTexts).imp fun _ _ => stores_interval)
  -- What is read from the two lists, taken apart as the reader of the record does it.
  obtain ⟨rows, partsBasis, readBasis⟩ := bind_eq_ok.mp readBasis
  obtain ⟨pairs, partsBounds, readBounds⟩ := bind_eq_ok.mp readBounds
  rw [List.map_id] at readBounds
  let more : List Json.Field := [⟨"bottom".toList, "false".toList, .bool false⟩,
    ⟨"basis".toList, (listText axes).toList, basis⟩, ⟨"bounds".toList, (listText ranges).toList, bounds⟩]
  refine ⟨.record ((fieldsOf s more).map Json.Field.entry), ?_, ?_⟩
  · have text : t.toList =
        '\x7b' :: [','].intercalate ((fieldsOf s more).map Json.Field.written) ++ ['\x7d'] := by
      rw [← Except.ok.inj same]
      simp [more, fieldsOf, Json.Field.written, toString]
    rw [text]
    refine written_fieldsOf fewInts fewReals ?_ ?_
    · simp only [more, List.forall_mem_cons]
      exact ⟨⟨plain_key _ (by decide), Json.written_false.mono (Nat.zero_le _)⟩,
        ⟨plain_key _ (by decide), writtenBasis⟩, ⟨plain_key _ (by decide), writtenBounds⟩, by simp⟩
    · simp [more, Json.Field.entry]
  · have space := @space_fieldsOf limits s more
    have truth : field ((fieldsOf s more).map Json.Field.entry) "bottom" = .ok (.bool false) := rfl
    have version : (((fieldsOf s more).map Json.Field.entry).lookup "v").any isOne = true := rfl
    have basisField : field ((fieldsOf s more).map Json.Field.entry) "basis" = .ok basis := rfl
    have boundsField : field ((fieldsOf s more).map Json.Field.entry) "bounds" = .ok bounds := rfl
    simp [valueOf, space, truth, version, truthy, basisField, boundsField, partsBasis, partsBounds,
      readBasis, readBounds, assemble_of_regular regular length ordered]

/-! ## The bytes -/

theorem decodeUtf8_ascii {cs : List Char} (ascii : ∀ c ∈ cs, c.toNat < 0x80) :
    Text.decodeUtf8 (cs.map fun c => UInt8.ofNat c.toNat) = some cs := by
  induction cs with
  | nil => rfl
  | cons c cs ih =>
    obtain ⟨first, others⟩ := List.forall_mem_cons.mp ascii
    have byte : (UInt8.ofNat c.toNat).toNat = c.toNat := UInt8.toNat_ofNat_of_lt' (by
      change c.toNat < 256
      omega)
    rw [List.map_cons, Text.decodeUtf8.eq_def]
    simp [byte, first, ih others]

theorem number32_word32 {n : ℕ} (small : n < 2 ^ 32) : number32 (word32 n) = n := by
  simp [number32, word32]
  omega

/-- Bytes behind their length are read as a body, and bytes behind them are left. -/
theorem decode_append {bytes : List UInt8} (short : bytes.length < 2 ^ 32) {text : List Char} {d : Datum}
    (utf8 : Text.decodeUtf8 bytes = some text) (read : Json.read limits text = .ok d)
    (t : List UInt8) :
    decode limits (magic ++ word32 bytes.length ++ bytes ++ t) =
      (do return (← valueOf limits d, 8 + bytes.length)) := by
  have parts : magic ++ word32 bytes.length ++ bytes ++ t =
      magic ++ (word32 bytes.length ++ (bytes ++ t)) := by simp
  have word : (word32 bytes.length).length = 4 := rfl
  have front : (magic ++ (word32 bytes.length ++ (bytes ++ t))).take 4 = magic := rfl
  have length : ((magic ++ (word32 bytes.length ++ (bytes ++ t))).drop 4).take 4 =
      word32 bytes.length := rfl
  have body : ((magic ++ (word32 bytes.length ++ (bytes ++ t))).drop 8).take bytes.length = bytes :=
    List.take_left' rfl
  have all : (magic ++ (word32 bytes.length ++ (bytes ++ t))).length = 8 + bytes.length + t.length := by
    simp [magic, word]
    omega
  rw [parts]
  simp only [decode, front, length, number32_word32 short, body, utf8, all]
  rw [if_neg (by omega), if_neg (by simp), if_neg (by omega), Option.getDM_some, pure_bind, read]
  rfl

/-- The value is empty, or has independent axes and as many ranges in order. -/
def Storable (a : Parallelotope) : Prop :=
  ∀ f, a.frame? = some f → f.axes.Regular a.space.size ∧ f.ranges.length = a.space.size ∧
    ∀ I ∈ f.ranges, I.lo ≤ I.hi

theorem storable_of_wellFormed {a : Parallelotope} (wellFormed : a.WellFormed) : Storable a :=
  fun f hf => ⟨(wellFormed f hf).1.axes, (wellFormed f hf).1.ranges, (wellFormed f hf).2 trivial⟩

theorem exists_stores_body {a : Parallelotope} (storable : Storable a) {text : String}
    (written : body limits a = .ok text) :
    ∃ b, Stores limits 3 (valueOf limits) text b ∧ b.space = a.space ∧ b.isBottom = a.isBottom ∧
      b.frame?.map (·.axes) = a.frame?.map (·.axes) ∧
      b.frame?.map (·.ranges) = a.frame?.map (·.ranges) := by
  obtain ⟨s, frame?⟩ := a
  cases frame? with
  | none =>
    obtain ⟨d, written, value⟩ := stores_body_bottom written
    exact ⟨.bottom s, ⟨d, written.mono (by omega), value⟩, rfl, rfl, rfl, rfl⟩
  | some f =>
    obtain ⟨regular, length, ordered⟩ := storable f rfl
    exact ⟨_, stores_body_frame written regular length ordered, rfl, rfl, rfl, rfl⟩

theorem encode_of_body {a : Parallelotope} {text : String} (written : body limits a = .ok text) :
    encode limits a =
      if 0x100000000 ≤ text.length then .error (.fault .width)
      else .ok (magic ++ word32 text.length ++ text.toList.map fun c => UInt8.ofNat c.toNat) := by
  simp only [encode, written, ok_bind, List.length_map, String.length_toList]
  rfl

/-- **Round trip.** The bytes of a value in shape cannot be written exactly when one of its numbers has
more digits than the limits allow.  Otherwise there is a body.  If its length fits the four bytes for it
and three lists and records may be open at once, then the bytes, with any bytes behind them, are read
back as a value with the same space, emptiness, axes and ranges, and as many bytes are taken as were
written. -/
theorem decode_encode_append (limits : Limits) {a : Parallelotope} (storable : Storable a)
    (t : List UInt8) :
    (encode limits a = .error (.fault .value) ↔
      ∃ n ∈ numbers a, limits.spells (Nat.toDigits 10 n).length = false) ∧
    ((∀ n ∈ numbers a, limits.spells (Nat.toDigits 10 n).length = true) →
      ∃ text, body limits a = .ok text ∧
        (2 ^ 32 ≤ text.length → encode limits a = .error (.fault .width)) ∧
        (text.length < 2 ^ 32 → limits.Allows 3 → ∃ bytes b, encode limits a = .ok bytes ∧
          decode limits (bytes ++ t) = .ok (b, bytes.length) ∧ b.space = a.space ∧
          b.isBottom = a.isBottom ∧ b.frame?.map (·.axes) = a.frame?.map (·.axes) ∧
          b.frame?.map (·.ranges) = a.frame?.map (·.ranges))) := by
  have spelled := @spelled_body limits a
  refine ⟨⟨fun failed => ?_, fun many => ?_⟩, fun few => ?_⟩
  · by_contra none
    obtain ⟨text, written⟩ := spelled.ok (by simpa using none)
    rw [encode_of_body written] at failed
    split at failed <;> simp at failed
  · rw [encode, spelled.error many, error_bind]
  · obtain ⟨text, written⟩ := spelled.ok few
    refine ⟨text, written, fun long => ?_, fun short levels => ?_⟩
    · rw [encode_of_body written, if_pos (by omega)]
    obtain ⟨b, ⟨d, json, value⟩, same⟩ := exists_stores_body storable written
    have total : (magic ++ word32 text.length ++
        text.toList.map fun c => UInt8.ofNat c.toNat).length = 8 + text.length := by
      rw [List.length_append, List.length_map, String.length_toList]
      rfl
    refine ⟨_, b, (encode_of_body written).trans (if_neg (by omega)), ?_, same⟩
    -- The body is ASCII, so it has as many bytes as characters.
    have count : (text.toList.map fun c => UInt8.ofNat c.toNat).length = text.length := by
      rw [List.length_map, String.length_toList]
    have decoded := decode_append (count ▸ short) (decodeUtf8_ascii json.ascii) (json.read_eq levels) t
    rw [count, value] at decoded
    rw [total]
    exact decoded

/-- Skewed rows with fractions, an integer dimension and open ends. -/
def openSample : Parallelotope :=
  ⟨⟨1, 1⟩, some ⟨[[1, -1 / 3], [0, 2]], [⟨.negInf, .fin (-5 / 2)⟩, ⟨.fin 0, .posInf⟩], none⟩⟩

theorem storable_openSample : Storable openSample := by
  refine storable_of_wellFormed
    (Parallelotope.shaped_mk (Frame.regular_of_invert? ⟨rfl, by decide⟩ rfl ?_) fun _ => ?_)
  · decide +kernel
  · decide +kernel

theorem decode_encode_openSample : Storable openSample ∧
    (∀ n ∈ numbers openSample, ({} : Limits).spells (Nat.toDigits 10 n).length = true) ∧
    ∃ bytes b, encode {} openSample = .ok bytes ∧
      decode {} (bytes ++ [0x50, 0]) = .ok (b, bytes.length) ∧ b.space = openSample.space ∧
      b.isBottom = openSample.isBottom ∧
      b.frame?.map (·.axes) = openSample.frame?.map (·.axes) ∧
      b.frame?.map (·.ranges) = openSample.frame?.map (·.ranges) := by
  have few : ∀ n ∈ numbers openSample, ({} : Limits).spells (Nat.toDigits 10 n).length = true := by
    decide +kernel
  obtain ⟨text, written, -, returned⟩ :=
    (decode_encode_append {} storable_openSample [0x50, 0]).2 few
  have short : text.length < 2 ^ 32 := by
    have length : (body {} openSample).toOption.map String.length = some 126 := by decide +kernel
    rw [written] at length
    have exact : text.length = 126 := Option.some.inj length
    omega
  exact ⟨storable_openSample, few, returned short fun _ absurd => nomatch absurd⟩

/-- The points from zero to a natural number. -/
def segment (n : ℕ) : Parallelotope := ⟨⟨0, 1⟩, some ⟨[[1]], [⟨.fin 0, .fin n⟩], none⟩⟩

theorem storable_segment (n : ℕ) : Storable (segment n) := by
  refine storable_of_wellFormed
    (Parallelotope.shaped_mk (Frame.regular_of_invert? ⟨rfl, by decide⟩ rfl ?_) fun _ => ?_)
  · decide +kernel
  · intro I mem
    obtain rfl := List.mem_singleton.mp mem
    exact (Nat.cast_nonneg n : (0 : ℚ) ≤ n)

theorem exists_body_segment (n : ℕ) : ∃ text, body { digits := none } (segment n) = .ok text ∧
    text.length = 87 + (Nat.toDigits 10 n).length := by
  refine ⟨_, rfl, ?_⟩
  have zero : (Int.repr 0).toList.length = 1 := rfl
  have one : (Int.repr 1).toList.length = 1 := rfl
  rw [← String.length_toList]
  simp [listText, segment, toString]
  omega

theorem mem_numbers_segment (n : ℕ) : n ∈ numbers (segment n) := by
  simp [numbers, segment, numbersOf]

theorem length_toDigits_pow {k : ℕ} (pos : 0 < k) : (Nat.toDigits 10 (10 ^ k)).length = k + 1 := by
  refine Nat.le_antisymm ?_ (Nat.lt_of_not_le fun le => ?_)
  · exact (Nat.length_toDigits_le_iff (by decide) (by omega)).mpr
      (Nat.pow_lt_pow_right (by decide) (Nat.lt_succ_self k))
  · exact Nat.lt_irrefl _ ((Nat.length_toDigits_le_iff (by decide) pos).mp le)

/-- A value in shape whose body would be short cannot be written. -/
theorem encode_distantSegment : Storable (segment (10 ^ 4300)) ∧
    (∃ text, body { digits := none } (segment (10 ^ 4300)) = .ok text ∧ text.length < 2 ^ 32) ∧
    ∃ e, encode {} (segment (10 ^ 4300)) = .error e := by
  have digits := length_toDigits_pow (show 0 < 4300 by decide)
  refine ⟨storable_segment _, ?_, ⟨.fault .value, ?_⟩⟩
  · obtain ⟨text, written, length⟩ := exists_body_segment (10 ^ 4300)
    exact ⟨text, written, by omega⟩
  · have many : ({} : Limits).spells (Nat.toDigits 10 (10 ^ 4300)).length = false := by
      rw [digits]
      rfl
    rw [encode, (spelled_body _).error ⟨_, mem_numbers_segment _, many⟩, error_bind]

end SkewBox.Payload
