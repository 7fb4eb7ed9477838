import GrowthGrammar.Decimal.Rounding

/-!
# Reading decimals

`floatOfText?` reads a decimal with an optional sign, point and exponent as the nearest double. A
decimal beyond the greatest double gives an infinity and one too small for the least double a zero,
both with the sign of the text.
-/

namespace GrowthGrammar

/-- The value of a digit. -/
def digitValue (c : Char) : Nat := c.toNat - '0'.toNat

/-- The number that a row of digits writes. -/
def natOfDigits (digits : List Char) : Nat :=
  digits.foldl (fun n c => 10 * n + digitValue c) 0

/-- The double nearest to `mantissa · 10 ^ exponent`. Exponents that decide the answer by themselves
are cut off, so that no large power is computed. -/
def scaledFloat (mantissa : Nat) (exponent : Int) : Float :=
  if mantissa = 0 then 0
  else
    let leading := ((Nat.toDigits 10 mantissa).length : Int) + exponent
    if leading > 400 then Float.ofBits infinityBits.toUInt64
    else if leading < -400 then 0
    else if 0 ≤ exponent then nearestFloat (mantissa * tenTo exponent.toNat) 1
    else nearestFloat mantissa (tenTo (-exponent).toNat)

/-- An optional sign, true for a minus, and the rest. -/
def splitSign : List Char → Bool × List Char
  | '-' :: rest => (true, rest)
  | '+' :: rest => (false, rest)
  | rest => (false, rest)

/-- An integer with an optional sign and at least one digit, filling the whole text. -/
def exponentOfText? (text : List Char) : Option Int :=
  let (negative, digits) := splitSign text
  if digits ≠ [] ∧ digits.all Char.isDigit then
    some (if negative then -(natOfDigits digits : Int) else natOfDigits digits)
  else none

/-- The exponent that follows a mantissa: none at all, or a mark and an integer. -/
def exponentPart? : List Char → Option Int
  | [] => some 0
  | c :: rest => if c = 'e' ∨ c = 'E' then exponentOfText? rest else none

/-- The magnitude that a text without a sign writes: digits with at most one point among them, at
least one digit, and an optional exponent. -/
def magnitudeOfText? (text : List Char) : Option Float := do
  let whole := text.takeWhile Char.isDigit
  let rest := text.dropWhile Char.isDigit
  let (places, rest) := match rest with
    | '.' :: rest => (rest.takeWhile Char.isDigit, rest.dropWhile Char.isDigit)
    | _ => ([], rest)
  if whole ++ places = [] then none
  else
    let exponent ← exponentPart? rest
    return scaledFloat (natOfDigits (whole ++ places)) (exponent - places.length)

/-- The double that a decimal text writes. -/
def floatOfText? (text : List Char) : Option Float :=
  let (negative, text) := splitSign text
  (magnitudeOfText? text).map fun x => if negative then -x else x

/-- The natural number below `limit` that a text of digits writes. One plus sign may stand in
front. -/
def boundedNatOfText? (limit : Nat) (text : String) : Option Nat :=
  let digits := match text.toList with
    | '+' :: rest => rest
    | rest => rest
  if digits ≠ [] ∧ digits.all Char.isDigit ∧ natOfDigits digits < limit then
    some (natOfDigits digits)
  else none

end GrowthGrammar
