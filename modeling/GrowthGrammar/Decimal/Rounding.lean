import GrowthGrammar.Decimal.Binary

/-!
# Rounding

`roundDiv` rounds a quotient of natural numbers to the nearest integer, and `nearestFloat` rounds it
to the nearest double; in both a tie goes to the even neighbour. The unit of the last place of the
double is found from the lengths of the two numbers (`unitExponent`), so that the quotient is
rounded once, in exact arithmetic.
-/

namespace GrowthGrammar

/-- A power of ten. -/
def tenTo (n : Nat) : Nat := Nat.pow 10 n

/-- The quotient rounded to the nearest integer, a tie to the even one. -/
def roundDiv (num den : Nat) : Nat :=
  let q := num / den
  let twice := 2 * (num % den)
  if twice < den then q
  else if den < twice then q + 1
  else q + q % 2

/-- The fraction `num / den` divided by `2 ^ exponent`. -/
def shiftDown (num den : Nat) (exponent : Int) : Nat × Nat :=
  if 0 ≤ exponent then (num, den <<< exponent.toNat)
  else (num <<< (-exponent).toNat, den)

/-- The exponent of the least positive double. -/
def leastExponent : Int := -1074

/-- The exponent of the unit of the last place of the doubles around a positive fraction. The
fraction is less than `2 ^ 53` such units, and at least `2 ^ 52` of them unless the unit is the least
one. -/
def unitExponent (num den : Nat) : Int :=
  let guess := (Nat.log2 num : Int) - Nat.log2 den - 53
  let (n, d) := shiftDown num den guess
  max leastExponent (if n < d * (2 * hiddenBit) then guess else guess + 1)

/-- The bits of an infinity: all bits of the exponent. -/
def infinityBits : Nat := 0x7FF * hiddenBit

/-- The double nearest to the fraction `num / den`, which is zero or positive; an infinity from the
middle above the greatest double on. A mantissa of `2 ^ 53` units carries over into the bits of the
exponent. -/
def nearestFloat (num den : Nat) : Float :=
  if num = 0 then 0
  else
    let unit := unitExponent num den
    let (n, d) := shiftDown num den unit
    let bits := (unit - leastExponent).toNat * hiddenBit + roundDiv n d
    Float.ofBits (min bits infinityBits).toUInt64

end GrowthGrammar
