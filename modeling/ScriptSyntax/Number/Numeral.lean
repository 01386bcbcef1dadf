import ScriptSyntax.Number.Double

/-! Decimal numerals: a sign, digits with a point among them, and a power of ten. -/
namespace ScriptSyntax

/-- The number `digits` times ten to the power `scale`, with a sign. -/
structure Numeral where
  negative : Bool
  digits : Nat
  scale : Int
  deriving DecidableEq, Repr

namespace Numeral

/-- A sign, if there is one, and the text after it. No sign is positive. -/
def readSign : List Char → Bool × List Char
  | '-' :: text => (true, text)
  | '+' :: text => (false, text)
  | text => (false, text)

/-- A power of ten: nothing at all, or a letter, perhaps a sign, and at least one digit. -/
def readExponent? : List Char → Option Int
  | [] => some 0
  | c :: text =>
    let (negative, digits) := readSign text
    if (c = 'e' ∨ c = 'E') ∧ digits ≠ [] ∧ digits.all Char.isDigit then
      let magnitude : Int := Nat.ofDigitChars 10 digits 0
      some (if negative then -magnitude else magnitude)
    else none

/-- A point at the beginning of a text is dropped with the digits after it, which come first. -/
def readFraction : List Char → List Char × List Char
  | '.' :: text => (text.takeWhile Char.isDigit, text.dropWhile Char.isDigit)
  | text => ([], text)

/-- The numeral that a whole text spells. There must be a digit before or after the point. -/
def ofChars? (text : List Char) : Option Numeral :=
  let (negative, text) := readSign text
  let whole := text.takeWhile Char.isDigit
  let (fraction, text) := readFraction (text.dropWhile Char.isDigit)
  if whole ++ fraction = [] then none
  else (readExponent? text).map fun exponent =>
    ⟨negative, Nat.ofDigitChars 10 (whole ++ fraction) 0, exponent - fraction.length⟩

/-- The decimal order of a numeral that is not zero: its magnitude is below ten to this power, and
not below a tenth of that. -/
def order (m : Numeral) : Int := (Nat.toDigits 10 m.digits).length + m.scale

/-- The nearest number, if there is one. Far out the order decides, without the power of ten. -/
def toDouble? (m : Numeral) : Option Double :=
  if m.digits = 0 ∨ m.order < -330 then some (.zero m.negative)
  else if 310 < m.order then none
  else Double.ofQuotient? m.negative (m.digits * Nat.pow 10 m.scale.toNat)
    (Nat.pow 10 (-m.scale).toNat)

end Numeral

/-- The number that a text spells in decimal, rounded to the nearest. Texts that spell no number,
or one too large, have none. -/
def Double.ofText? (text : String) : Option Double :=
  (Numeral.ofChars? text.toList).bind Numeral.toDouble?

end ScriptSyntax
