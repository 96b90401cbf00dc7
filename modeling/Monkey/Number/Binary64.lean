import Monkey.Number.Digits
import Monkey.Number.Rounding

/-!
# Binary floating point, read and written exactly

A finite binary64 number is `mantissa * 2^(exponent - 1074)` with a sign.
`Binary64.ofQuotient` gives the bits of the number nearest to a quotient of
natural numbers, and `Binary64.fixed` writes a number with a fixed count of
decimal places. Both round once, from the exact value, and send a value half
way between two candidates to the even one.
-/

namespace Monkey.Binary64

/-- Bits of positive infinity, one more than those of the largest finite number. -/
def infinityBits : Nat := 0x7ff <<< 52

/-- How far `num / den` is to be scaled down, in powers of two from `2^(-1074)`,
so that at most 53 bits are left before the point. -/
def scaleOf (num den : Nat) : Nat :=
  let guess := num.log2 + 1074 - (den.log2 + 53)
  if num <<< 1074 < den <<< (guess + 53) then guess else guess + 1

/-- Bits of the binary64 number nearest to `num / den`.

With `scale` as the exponent and the rounded quotient as the mantissa, the
implicit leading bit of a normal number is what `scale * 2^52` leaves out, and
a mantissa that rounds up to `2^53` carries into the exponent by the same sum. -/
def bitsOfQuotient (num den : Nat) : Nat :=
  if num = 0 then 0 else
    let scale := scaleOf num den
    let mantissa := roundQuotient (num <<< 1074) (den <<< scale)
    min ((scale <<< 52) + mantissa) infinityBits

/-- The binary64 number nearest to `num / den`. -/
def ofQuotient (num den : Nat) : Float :=
  Float.ofBits (bitsOfQuotient num den).toUInt64

/-- The binary64 number nearest to a decimal such as `12.50`. -/
def ofDecimal (text : String) : Float :=
  let whole := text.toList.takeWhile Char.isDigit
  let fraction := (text.toList.dropWhile Char.isDigit).drop 1
  ofQuotient (digitsValue (whole ++ fraction)) (Nat.pow 10 fraction.length)

/-- The parts of a binary64 number. -/
structure Parts where
  negative : Bool
  /-- The exponent as it is stored. -/
  exponent : Nat
  /-- The stored bits of the mantissa, without a leading one. -/
  fraction : Nat

/-- Takes the bits of a number apart. -/
def Parts.ofBits (bits : Nat) : Parts :=
  ⟨bits.testBit 63, (bits >>> 52) % (1 <<< 11), bits % (1 <<< 52)⟩

/-- Numerator of a finite number over `2^1074`. -/
def Parts.numerator (p : Parts) : Nat :=
  if p.exponent = 0 then p.fraction else (p.fraction + (1 <<< 52)) <<< (p.exponent - 1)

/-- Digits of `n / 10^places` with a point before the last `places`. -/
def point (places n : Nat) : String :=
  toString (n / Nat.pow 10 places) ++ "." ++ padded places (n % Nat.pow 10 places)

/-- A number with `places` decimal places, from its bits. Negative zero keeps its
sign, and so does a negative number that rounds to zero. -/
def fixedOfBits (places bits : Nat) : String :=
  let p := Parts.ofBits bits
  if p.exponent = 0x7ff then
    if p.fraction ≠ 0 then "NaN" else if p.negative then "-inf" else "inf"
  else
    let digits := point places (roundQuotient (p.numerator * Nat.pow 10 places) (1 <<< 1074))
    if p.negative then "-" ++ digits else digits

/-- A number with `places` decimal places. -/
def fixed (places : Nat) (x : Float) : String :=
  fixedOfBits places x.toBits.toNat

/-- The bits of a number as sixteen hexadecimal digits. -/
def hex (x : Float) : String :=
  let digits := Nat.toDigits 16 x.toBits.toNat
  String.ofList (List.replicate (16 - digits.length) '0' ++ digits)

end Monkey.Binary64
