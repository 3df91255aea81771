/-!
# UTF-8

Strict decoding: overlong forms, surrogates and numbers past the last character are refused.

* `decodeUtf8`: the characters of a byte string.
-/

namespace SkewBox.Text

def charOf? (n : Nat) : Option Char :=
  if n.isValidChar then some (Char.ofNat n) else none

/-- The six bits of a continuation byte. -/
def tailBits? (b : UInt8) : Option Nat :=
  if 0x80 ≤ b.toNat ∧ b.toNat < 0xc0 then some (b.toNat - 0x80) else none

/-- The character of a sequence of several bytes, which must need that many. -/
def sequence? (least head : Nat) (tail : List UInt8) : Option Char := do
  let bits ← tail.mapM tailBits?
  let n := bits.foldl (fun acc b => 64 * acc + b) head
  if least ≤ n then charOf? n else none

/-- The characters of a byte string, if it is well formed. -/
def decodeUtf8 : List UInt8 → Option (List Char)
  | [] => some []
  | b :: rest =>
    let n := b.toNat
    if n < 0x80 then (decodeUtf8 rest).map (Char.ofNat n :: ·)
    else if n < 0xc0 then none
    else if n < 0xe0 then
      match rest with
      | b1 :: rest => do return (← sequence? 0x80 (n - 0xc0) [b1]) :: (← decodeUtf8 rest)
      | _ => none
    else if n < 0xf0 then
      match rest with
      | b1 :: b2 :: rest => do
        return (← sequence? 0x800 (n - 0xe0) [b1, b2]) :: (← decodeUtf8 rest)
      | _ => none
    else if n < 0xf8 then
      match rest with
      | b1 :: b2 :: b3 :: rest => do
        return (← sequence? 0x10000 (n - 0xf0) [b1, b2, b3]) :: (← decodeUtf8 rest)
      | _ => none
    else none

end SkewBox.Text
