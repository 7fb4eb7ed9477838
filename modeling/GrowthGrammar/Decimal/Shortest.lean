import GrowthGrammar.Decimal.Rounding

/-!
# The shortest decimal that reads back

`Binary.shortest` is the decimal with the fewest digits that lies in the interval of reals which
round to a given double, and among those the nearest one to the double. For one digit, two digits
and so on it looks at the two neighbours of the double on the grid of decimals with that many
digits: if any decimal of the grid lies in the interval, then one of the neighbours does. Seventeen
digits always suffice.
-/

namespace GrowthGrammar

/-- Which of two equally near decimals is taken. -/
inductive Tie where
  | away
  | even
  deriving DecidableEq, Repr

/-- A positive decimal, `digits · 10 ^ exponent`. -/
structure DecimalDigits where
  digits : Nat
  exponent : Int
  deriving DecidableEq, Repr

namespace DecimalDigits

/-- The decimal digits in reading order. -/
def text (d : DecimalDigits) : List Char := Nat.toDigits 10 d.digits

/-- Removes at most `limit` zeros from the end of the digits. -/
def stripZeros : Nat → DecimalDigits → DecimalDigits
  | 0, d => d
  | limit + 1, d =>
    if d.digits % 10 = 0 ∧ d.digits ≠ 0 then
      stripZeros limit ⟨d.digits / 10, d.exponent + 1⟩
    else d

end DecimalDigits

namespace Binary

/-- The fraction `num / den` divided by `10 ^ exponent`. -/
def scaleDown (num den : Nat) (exponent : Int) : Nat × Nat :=
  if 0 ≤ exponent then (num, den * tenTo exponent.toNat)
  else (num * tenTo (-exponent).toNat, den)

/-- The exponent of the first digit of a positive fraction. -/
def leadingExponent (num den : Nat) : Int :=
  if den ≤ num then ((Nat.toDigits 10 (num / den)).length : Int) - 1
  else
    let shift := (Nat.toDigits 10 den).length - (Nat.toDigits 10 num).length
    if den ≤ num * tenTo shift then -(shift : Int) else -((shift : Int) + 1)

/-- The ends of the interval of reals that round to a positive double, in quarters of the unit of
its last place. -/
def interval (b : Binary) : Nat × Nat :=
  (4 * b.mantissa - (if b.narrowBelow then 1 else 2), 4 * b.mantissa + 2)

/-- Whether `d · 10 ^ exponent` rounds to `b`. The ends of the interval belong to it if the mantissa
is even. -/
def roundsHere (b : Binary) (d : Nat) (exponent : Int) : Bool :=
  let (low, high) := b.interval
  let unit := { b with mantissa := 1 }.toFraction
  let (num, den) := scaleDown unit.1 unit.2 exponent
  let point := 4 * d * den
  if b.mantissa % 2 = 0 then low * num ≤ point && point ≤ high * num
  else low * num < point && point < high * num

/-- The neighbour of `b` on the grid of multiples of `10 ^ exponent` that rounds to `b`; of two such
the nearer one, and of two equally near ones the one that `tie` names. -/
def gridHit? (b : Binary) (tie : Tie) (exponent : Int) : Option Nat :=
  let (num, den) := b.toFraction
  let (num, den) := scaleDown num den exponent
  let below := num / den
  match b.roundsHere below exponent, b.roundsHere (below + 1) exponent with
  | false, false => none
  | true, false => some below
  | false, true => some (below + 1)
  | true, true =>
    let twice := 2 * (num % den)
    if twice < den then some below
    else if den < twice then some (below + 1)
    else match tie with
      | .away => some (below + 1)
      | .even => some (if below % 2 = 0 then below else below + 1)

/-- The first hit on the grids with `count`, `count + 1`, … digits, `fuel` of them. -/
def firstHit (b : Binary) (tie : Tie) (leading : Int) (count : Nat) : Nat → DecimalDigits
  | 0 => ⟨0, 0⟩
  | fuel + 1 =>
    let exponent := leading - count + 1
    match b.gridHit? tie exponent with
    | some d => ⟨d, exponent⟩
    | none => firstHit b tie leading (count + 1) fuel

/-- The decimal with the fewest digits that rounds to a positive double. -/
def shortest (b : Binary) (tie : Tie) : DecimalDigits :=
  let (num, den) := b.toFraction
  (b.firstHit tie (leadingExponent num den) 1 17).stripZeros 20

end Binary

end GrowthGrammar
