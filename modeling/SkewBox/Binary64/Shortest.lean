import SkewBox.Binary64

/-!
# Shortest decimal text of a binary64 number

The digits are the fewest that read back as the same number; of two such
decimals with equally many digits the nearer one.  Numbers from `10⁻⁴` up to, but
not including, `10¹⁶` are written positionally with a digit after the point, all
others with an exponent of at least two digits and its sign.

* `shortest`: the digits and the power of ten.
* `render`: the text of a bit pattern.
-/

namespace SkewBox.Binary64

/-- The number `digits · 10^exponent`. -/
structure Decimal where
  digits : Nat
  exponent : Int
  deriving DecidableEq, Repr

namespace Decimal

def toRat (d : Decimal) : Rat := d.digits * (10 : Rat) ^ d.exponent

/-- The same number without trailing zeros, looking at no more than `fuel` of them. -/
def strip (fuel : Nat) (d : Decimal) : Decimal :=
  match fuel with
  | 0 => d
  | fuel + 1 =>
    if d.digits ≠ 0 ∧ d.digits % 10 = 0 then strip fuel ⟨d.digits / 10, d.exponent + 1⟩ else d

end Decimal

/-- Whether reading `q` gives the number with index `k`: it lies within half the way to
both neighbours, ends included for an even index. -/
def readsAs (k : Nat) (q : Rat) : Bool :=
  let below := (value (k - 1) + value k) / 2
  let above := (value k + value (k + 1)) / 2
  if k % 2 = 0 then below ≤ q && q ≤ above else below < q && q < above

/-- The `e` with `10^e ≤ q < 10^(e+1)`, for a positive `q`. -/
def decimalExponent (q : Rat) : Int :=
  let size (n : Nat) : Int := ((Nat.toDigits 10 n).length : Int)
  let e := size q.num.toNat - size q.den
  if (10 : Rat) ^ e ≤ q then e else e - 1

/-- The decimal with `count` digits that reads back as index `k`, if one does. -/
def decimalWith? (k : Nat) (e : Int) (count : Nat) : Option Decimal :=
  let v := value k
  let exponent := e - (count - 1 : Nat)
  let scaled := v / (10 : Rat) ^ exponent
  let lower : Decimal := ⟨scaled.floor.toNat, exponent⟩
  let upper : Decimal := ⟨scaled.floor.toNat + 1, exponent⟩
  match readsAs k lower.toRat, readsAs k upper.toRat with
  | true, true =>
    if v - lower.toRat < upper.toRat - v then some lower
    else if upper.toRat - v < v - lower.toRat then some upper
    else if lower.digits % 2 = 0 then some lower
    else some upper
  | true, false => some lower
  | false, true => some upper
  | false, false => none

/-- The shortest decimal that reads back as the positive number with index `k`. -/
def shortest (k : Nat) : Decimal :=
  let e := decimalExponent (value k)
  let found := (List.range 17).findSome? fun i => decimalWith? k e (i + 1)
  (found.getD ⟨0, 0⟩).strip 17

def renderExponent (e : Int) : String :=
  let digits := toString e.natAbs
  (if e < 0 then "-" else "+") ++ (if digits.length < 2 then "0" ++ digits else digits)

def Decimal.render (d : Decimal) : String :=
  let digits := (toString d.digits).toList
  -- the number is 0.digits · 10^point
  let point : Int := digits.length + d.exponent
  let text : List Char :=
    if -4 < point ∧ point ≤ 16 then
      if point ≤ 0 then
        ['0', '.'] ++ List.replicate (-point).toNat '0' ++ digits
      else if digits.length ≤ point.toNat then
        digits ++ List.replicate (point.toNat - digits.length) '0' ++ ['.', '0']
      else
        digits.take point.toNat ++ '.' :: digits.drop point.toNat
    else
      let mantissa := match digits with
        | [c] => [c]
        | c :: rest => c :: '.' :: rest
        | [] => []
      mantissa ++ 'e' :: (renderExponent (point - 1)).toList
  String.ofList text

def render (w : UInt64) : String :=
  let k := w.toNat % pow2 63
  let sign := if pow2 63 ≤ w.toNat then "-" else ""
  if lastFinite + 1 < k then "nan"
  else if k = lastFinite + 1 then sign ++ "inf"
  else if k = 0 then sign ++ "0.0"
  else sign ++ (shortest k).render

end SkewBox.Binary64
