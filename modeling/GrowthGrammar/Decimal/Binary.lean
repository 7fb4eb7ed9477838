/-!
# The exact value of a double

A finite double is a sign, a natural mantissa and a binary exponent (`Binary`), and every decimal
text of it is computed from these in exact arithmetic. `FloatClass.of` tells the finite doubles from
the infinities and from what is not a number.
-/

namespace GrowthGrammar

/-- A finite double: the magnitude is `mantissa · 2 ^ exponent`. -/
structure Binary where
  negative : Bool
  mantissa : Nat
  exponent : Int
  /-- The gap below the magnitude is half the gap above it, as at a power of two. -/
  narrowBelow : Bool
  deriving DecidableEq, Repr

/-- A double by its kind. -/
inductive FloatClass where
  | notANumber
  | infinite (negative : Bool)
  | finite (value : Binary)
  deriving DecidableEq, Repr

/-- The bit of a mantissa that is not stored. -/
def hiddenBit : Nat := 1 <<< 52

/-- Reads the three fields of a double's bits. -/
def FloatClass.of (x : Float) : FloatClass :=
  let bits := x.toBits.toNat
  let negative := bits >>> 63 == 1
  let biased : Nat := (bits >>> 52) % 0x800
  let fraction : Nat := bits % hiddenBit
  if biased = 0x7FF then
    if fraction = 0 then .infinite negative else .notANumber
  else if biased = 0 then .finite ⟨negative, fraction, -1074, false⟩
  else .finite ⟨negative, fraction + hiddenBit, (biased : Int) - 1075, fraction == 0 && biased > 1⟩

namespace Binary

/-- The magnitude as a fraction of natural numbers with a positive denominator. -/
def toFraction (b : Binary) : Nat × Nat :=
  if 0 ≤ b.exponent then (b.mantissa <<< b.exponent.toNat, 1)
  else (b.mantissa, 1 <<< (-b.exponent).toNat)

end Binary

end GrowthGrammar
