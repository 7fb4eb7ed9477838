import GrowthGrammar.Decimal.Shortest

/-!
# Written forms of a double

Messages write a double positionally, however long that is (`plainText`); documents write it with
an exponent outside a middle range (`documentText?`); reports round it to a fixed number of places
(`fixedText`). The first two write the shortest digits that read back, the last one rounds the
exact value, a tie going to the even neighbour.
-/

namespace GrowthGrammar

/-- The sign of a number in front of its magnitude. -/
def signed (negative : Bool) (magnitude : String) : String :=
  if negative then "-" ++ magnitude else magnitude

/-- A run of zeros. -/
def zeros (n : Nat) : List Char := List.replicate n '0'

namespace DecimalDigits

/-- The whole part and the places of a decimal written positionally. The whole part is never empty.
-/
def positional (d : DecimalDigits) : List Char × List Char :=
  let text := d.text
  if 0 ≤ d.exponent then (text ++ zeros d.exponent.toNat, [])
  else
    let places := (-d.exponent).toNat
    if places < text.length then text.splitAt (text.length - places)
    else (['0'], zeros (places - text.length) ++ text)

end DecimalDigits

/-- The whole part, and the places behind a point if there are any. -/
def joinPlaces : List Char × List Char → String
  | (whole, []) => String.ofList whole
  | (whole, places) => String.ofList (whole ++ '.' :: places)

/-- The shortest digits that read back, never with an exponent. -/
def plainText (x : Float) : String :=
  match FloatClass.of x with
  | .notANumber => "NaN"
  | .infinite negative => signed negative "inf"
  | .finite b =>
    signed b.negative (if b.mantissa = 0 then "0" else joinPlaces (b.shortest .away).positional)

/-- The range of exponents of the first digit that documents write positionally. -/
def isPlainExponent (e : Int) : Bool := -5 ≤ e && e ≤ 15

/-- A decimal as documents write it: positionally with at least one place, or with one digit before
the point and a signed exponent. -/
def DecimalDigits.documentText (d : DecimalDigits) : String :=
  let text := d.text
  let e := (text.length : Int) - 1 + d.exponent
  if isPlainExponent e then
    match d.positional with
    | (whole, []) => String.ofList (whole ++ ['.', '0'])
    | parts => joinPlaces parts
  else
    joinPlaces (text.splitAt 1) ++ (if 0 ≤ e then "e+" else "e") ++ toString e

/-- A double as documents write it, or `none` for an infinity and for what is not a number. -/
def documentText? (x : Float) : Option String :=
  match FloatClass.of x with
  | .finite b =>
    some (signed b.negative (if b.mantissa = 0 then "0.0" else (b.shortest .even).documentText))
  | _ => none

/-- The exact value rounded to `places` places. -/
def fixedText (places : Nat) (x : Float) : String :=
  match FloatClass.of x with
  | .notANumber => "NaN"
  | .infinite negative => signed negative "inf"
  | .finite b =>
    let (num, den) := b.toFraction
    let scaled := roundDiv (num * tenTo places) den
    let text := Nat.toDigits 10 scaled
    let text := zeros (places + 1 - text.length) ++ text
    signed b.negative (joinPlaces (text.splitAt (text.length - places)))

/-- The text set to the right of a field of `width` characters. -/
def padLeft (width : Nat) (text : String) : String :=
  String.ofList (List.replicate (width - text.length) ' ') ++ text

end GrowthGrammar
