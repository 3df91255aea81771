import SkewBox.Bound.Read
import SkewBox.Parallelotope
import SkewBox.Payload.Json

/-!
# Payloads

A value is stored as four bytes of magic, the length of the body as four bytes, the most
significant first, and a body in JSON.  Rationals are written `p/q` and infinities
`+inf` and `-inf`, so that nothing is lost.  An integer with more digits than the limits allow can
neither be written nor read.

* `Payload.encode`: the bytes of a value.
* `Payload.decode`: the value at the start of a byte string, and how many bytes it takes.
-/

namespace SkewBox.Payload

/-! ## Writing -/

def magic : List UInt8 := [0x50, 0x54, 0x4f, 0x50]

/-- An integer in the body. -/
def numeral (limits : Limits) (i : Int) : Except Error String :=
  if limits.spells (Nat.toDigits 10 i.natAbs).length then .ok (toString i)
  else .error (.fault .value)

/-- A bound in the body: always with a denominator. -/
def boundText (limits : Limits) : Bound → Except Error String
  | .negInf => .ok "\"-inf\""
  | .fin q => do
    let top ← numeral limits q.num
    let bottom ← numeral limits q.den
    return s!"\"{top}/{bottom}\""
  | .posInf => .ok "\"+inf\""

def listText (items : List String) : String := "[" ++ ",".intercalate items ++ "]"

def axisText (limits : Limits) (row : Vec) : Except Error String := do
  return listText (← row.mapM fun c => boundText limits (.fin c))

def rangeText (limits : Limits) (I : Interval) : Except Error String := do
  return listText [← boundText limits I.lo, ← boundText limits I.hi]

def body (limits : Limits) (a : Parallelotope) : Except Error String := do
  let ints ← numeral limits a.space.ints
  let reals ← numeral limits a.space.reals
  let head := s!"\"v\":1,\"intdim\":{ints},\"realdim\":{reals},\"bottom\":"
  match a.frame? with
  | none => return "\x7b" ++ head ++ "true\x7d"
  | some f =>
    let axes := listText (← f.axes.mapM (axisText limits))
    let ranges := listText (← f.ranges.mapM (rangeText limits))
    return "\x7b" ++ head ++ "false,\"basis\":" ++ axes ++ ",\"bounds\":" ++ ranges ++ "\x7d"

def word32 (n : Nat) : List UInt8 :=
  [n / 0x1000000, n / 0x10000, n / 0x100, n].map UInt8.ofNat

/-- The bytes of a value.  The length of the body has to fit its four bytes. -/
def encode (limits : Limits) (a : Parallelotope) : Except Error (List UInt8) := do
  let bytes := (← body limits a).toList.map fun c => UInt8.ofNat c.toNat
  if 0x100000000 ≤ bytes.length then throw (.fault .width)
  return magic ++ word32 bytes.length ++ bytes

/-! ## Reading fields -/

/-- A failure that has no wording of its own in a payload. -/
def malformed {α : Type} : Except Error α := .error (.malformed none)

def field (fields : List (String × Datum)) (key : String) : Except Error Datum :=
  match fields.lookup key with
  | some d => .ok d
  | none => .error (.malformed (some (Text.quote key)))

/-- The integer that a text spells, blanks around it and underscores inside allowed. -/
def integerText? (limits : Limits) (s : String) : Option Int :=
  let (negative, rest) := Numeral.sign (Text.trim s.toList)
  match Numeral.digitGroup rest with
  | ([], _) => none
  | (ds, []) =>
    if limits.spells ds.length then
      some (if negative then -(Numeral.valueOf ds : Int) else Numeral.valueOf ds)
    else none
  | _ => none

def truncate (bits : UInt64) : Except Error Int :=
  match Binary64.decode bits with
  | .nan => malformed
  | .number (.fin q) => .ok (if q < 0 then q.ceil else q.floor)
  | .number _ => .error (.fault .overflow)

def integer (limits : Limits) : Datum → Except Error Int
  | .int i => .ok i
  | .bool b => .ok b.toNat
  | .float bits => truncate bits
  | .text s =>
    match integerText? limits s with
    | some i => .ok i
    | none => malformed
  | _ => malformed

/-- Whether a field counts as true: anything but nothing, zero and what is empty. -/
def truthy : Datum → Bool
  | .null => false
  | .bool b => b
  | .int i => i ≠ 0
  | .float bits => Binary64.decode bits ≠ .number (.fin 0)
  | .ratio q => q ≠ 0
  | .text s => !s.isEmpty
  | .list items => !items.isEmpty
  | .record fields => !fields.isEmpty

def isOne : Datum → Bool
  | .int i => i = 1
  | .bool b => b
  | .float bits => Binary64.decode bits = .number (.fin 1)
  | .ratio q => q = 1
  | _ => false

/-- The parts of a field that has parts: the items of a list, the characters of a text, the
keys of a record. -/
def parts : Datum → Except Error (List Datum)
  | .list items => .ok items
  | .text s => .ok (s.toList.map fun c => .text (String.singleton c))
  | .record fields => .ok (fields.map fun (key, _) => .text key)
  | _ => malformed

/-- Whether no group of digits is too long; `run` digits of the first one stand before the text. -/
def groupsFit (limits : Limits) : Nat → List Char → Bool
  | _, [] => true
  | run, c :: rest =>
    if Text.isDigit c then limits.spells (run + 1) && groupsFit limits (run + 1) rest
    else groupsFit limits (if c = '_' then run else 0) rest

def bound (limits : Limits) : Datum → Except Error Bound
  | .text s =>
    match (Bound.ofText? s).filter fun _ => groupsFit limits 0 s.toList with
    | some b => .ok b
    | none => .error (.malformed (some (Error.badBoundText (Text.quote s)).message))
  | d => .error (.malformed (some (Error.notABoundText d.render).message))

/-- The interval of a field with two parts. -/
def interval (limits : Limits) (d : Datum) : Except Error Interval := do
  match ← parts d with
  | [lo, hi] => return ⟨← bound limits lo, ← bound limits hi⟩
  | _ => malformed

/-! ## Reading values -/

def space (limits : Limits) (fields : List (String × Datum)) : Except Error Space := do
  let ints ← integer limits (← field fields "intdim")
  let reals ← integer limits (← field fields "realdim")
  (Space.ofCounts ints reals).mapError fun e => .malformed (some e.message)

/-- The value of given rows, which must be finite, independent and of the right number; the
empty set if a range is empty. -/
def assemble (s : Space) (axes : List (List Bound)) (ranges : List Interval) :
    Except Error Parallelotope :=
  match axes.mapM fun row => row.mapM Bound.toRat? with
  | none => .error .infiniteBasis
  | some axes => do
    let square := axes.length = s.size ∧ ranges.length = s.size ∧
      ∀ row ∈ axes, row.length = s.size
    if !square then throw .basisNotInvertible
    if !(← Mat.isInvertible axes) then throw .basisNotInvertible
    return if ranges.any (·.isBottom) then .bottom s else ⟨s, some ⟨axes, ranges, none⟩⟩

def valueOf (limits : Limits) (d : Datum) : Except Error Parallelotope := do
  match d with
  | .record fields =>
    if !((fields.lookup "v").any isOne) then throw .payloadVersion
    let s ← space limits fields
    if truthy (← field fields "bottom") then return .bottom s
    let axes ← (← parts (← field fields "basis")).mapM fun row => do (← parts row).mapM (bound limits)
    let ranges ← (← parts (← field fields "bounds")).mapM (interval limits)
    assemble s axes ranges
  | _ => throw .payloadVersion

def number32 (bytes : List UInt8) : Nat := bytes.foldl (fun n b => 256 * n + b.toNat) 0

/-- What the failure to read a body is reported as.  A limit that is passed is no fault of the
payload. -/
def cause : Json.Flaw → Error
  | .form => .notJson
  | .digits => .fault .value
  | .depth => .fault .nesting

/-- The value at the start of a byte string, and the number of bytes that it takes. -/
def decode (limits : Limits) (bytes : List UInt8) : Except Error (Parallelotope × Nat) := do
  if bytes.length < 8 then throw .headerTooShort
  if bytes.take 4 ≠ magic then throw (.badMagic (Text.quoteBytes (bytes.take 4)))
  let length := number32 ((bytes.drop 4).take 4)
  if bytes.length < 8 + length then throw (.truncatedPayload length)
  let text ← (Text.decodeUtf8 ((bytes.drop 8).take length)).getDM (throw .notJson)
  let d ← (Json.read limits text).mapError cause
  return (← valueOf limits d, 8 + length)

end SkewBox.Payload
