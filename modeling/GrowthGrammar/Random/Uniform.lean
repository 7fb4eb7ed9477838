import GrowthGrammar.Random.Generator

/-!
# Uniform reals

A unit draw fills the 52 fraction bits of a double in `[1, 2)` and subtracts one, so it lies in
`[0, 1 - 2⁻⁵²]`. A draw from an interval scales a unit draw and adds the lower end; since both
operations round, the scale is lowered until the greatest unit draw stays inside (`Uniform`), or the
draw is repeated until it does (`Generator.below`). `Generator.real` is the draw that instructions
use: it answers the lower end, without a draw, for an interval that cannot be sampled.
-/

namespace GrowthGrammar

/-- The greatest finite double. -/
def greatestFinite : Float := Float.ofBits 0x7FEFFFFFFFFFFFFF

/-- The unit draw of a 64-bit word: its 52 high bits are the fraction. -/
def unitOfWord (w : UInt64) : Float := Float.ofBits ((w >>> 12) ||| 0x3FF0000000000000) - 1.0

/-- The greatest unit draw, `1 - 2⁻⁵²`. -/
def greatestUnit : Float := unitOfWord 0xFFFFFFFFFFFFFFFF

/-- Takes one word as a unit draw. -/
def RandomBits.unit {ρ : Type} [RandomBits ρ] (rng : ρ) : Float × ρ :=
  let (w, rng) := next rng
  (unitOfWord w, rng)

/-- A sampler of an interval: unit draws are multiplied by `scale` and moved by `low`. -/
structure Uniform where
  low : Float
  scale : Float

namespace Uniform

/-- The value of a unit draw. -/
def valueOf (s : Uniform) (unit : Float) : Float := unit * s.scale + s.low

/-- Takes one word as a value of the interval. -/
def sample {ρ : Type} [RandomBits ρ] (s : Uniform) (rng : ρ) : Float × ρ :=
  let (u, rng) := RandomBits.unit rng
  (s.valueOf u, rng)

/-- The first double that is not too wide, going down from the non-negative double with the given
bits. Among non-negative doubles the bits are in the order of the values, so the next double below
has the next smaller bits. -/
def lowerScale (tooWide : Float → Bool) : Nat → Float
  | 0 => Float.ofBits 0
  | bits + 1 =>
    let scale := Float.ofBits (bits + 1).toUInt64
    if tooWide scale then lowerScale tooWide bits else scale

/-- The sampler of `[low, high]`. The scale is chosen to reach `high` at the greatest unit draw,
and lowered while it passes it. -/
def closed (low high : Float) : Uniform where
  low := low
  scale := lowerScale (fun scale => scale * greatestUnit + low > high)
    ((high - low) / greatestUnit).toBits.toNat

/-- The sampler of `[low, high)`. The scale is the width, lowered while the greatest unit draw
reaches `high`. -/
def halfOpen (low high : Float) : Uniform where
  low := low
  scale := lowerScale (fun scale => scale * greatestUnit + low ≥ high) (high - low).toBits.toNat

end Uniform

namespace Generator

/-- A draw from `[low, high)` that is repeated while rounding takes it to `high`. At most one draw
in two misses, so the limit on repetitions is never felt; where it is reached the answer is `low`.
-/
def belowWithin (low high : Float) : Nat → Generator → Float × Generator
  | 0, g => (low, g)
  | tries + 1, g =>
    let (u, g) := RandomBits.unit g
    let value := u * (high - low) + low
    if value < high then (value, g) else belowWithin low high tries g

/-- A draw from `[low, high)`. -/
def below (low high : Float) (g : Generator) : Float × Generator := belowWithin low high 1024 g

/-- The widest interval that is sampled. A sampler scales by the width, which must stay finite. -/
def widestSpan : Float := greatestFinite / 2

/-- An interval can be sampled if it has an interior, finite ends and a width in bounds. -/
def Samplable (low high : Float) : Prop :=
  low < high ∧ low.isFinite ∧ high.isFinite ∧ high - low ≤ widestSpan

instance (low high : Float) : Decidable (Samplable low high) := by
  unfold Samplable; infer_instance

/-- A real in `[low, high]` if `inclusive`, else in `[low, high)`. An interval that cannot be
sampled gives `low` and takes nothing from the stream. -/
def real (low high : Float) (inclusive : Bool) (g : Generator) : Float × Generator :=
  if Samplable low high then
    if inclusive then (Uniform.closed low high).sample g else below low high g
  else (low, g)

end Generator

end GrowthGrammar
