import GrowthGrammar.Random.Uniform

/-!
# Weighted choice

A `WeightedIndex` draws the number of one of several items with a probability proportional to its
weight. It keeps the running sums of the weights in the order of the items; a uniform draw below
their total selects the first item whose running sum lies above it (`WeightedIndex.pick`). The last
item has no bound of its own: a draw that has reached all bounds selects it.
-/

namespace GrowthGrammar

/-- Why a list of weights cannot be drawn from. -/
inductive WeightsError where
  | noItem
  | invalidWeight
  | allWeightsZero
  deriving DecidableEq, Repr

/-- The wording of a weights error. -/
def WeightsError.message : WeightsError → String
  | .noItem => "No weights provided in distribution."
  | .invalidWeight => "A weight is invalid in distribution."
  | .allWeightsZero => "All weights are zero in distribution."

/-- A weighted choice among the numbers of some items. -/
structure WeightedIndex where
  /-- The running sums of the weights, each up to its own item, without that of the last one. -/
  bounds : List Float
  /-- The sampler of `[0, total)`. -/
  sampler : Uniform

namespace WeightedIndex

/-- The running sums of further weights, starting with the sum `sum` before them: all of them but
the last, and the last one, which is the total. A weight that is not at least zero is refused. -/
def runningSums (sum : Float) : List Float → Except WeightsError (List Float × Float)
  | [] => .ok ([], sum)
  | weight :: rest =>
    if weight ≥ 0 then do
      let (bounds, total) ← runningSums (sum + weight) rest
      return (sum :: bounds, total)
    else .error .invalidWeight

/-- The choice among the numbers of some weights. -/
def ofWeights? : List Float → Except WeightsError WeightedIndex
  | [] => .error .noItem
  | weight :: rest =>
    if weight ≥ 0 then do
      let (bounds, total) ← runningSums weight rest
      if total == 0 then .error .allWeightsZero
      else return ⟨bounds, Uniform.halfOpen 0 total⟩
    else .error .invalidWeight

/-- The number of the first bound above `x`, or of the last item if there is none. -/
def pick (choice : WeightedIndex) (x : Float) : Nat := choice.bounds.findIdx (x < ·)

/-- Takes one word and selects a number by it. -/
def sample {ρ : Type} [RandomBits ρ] (choice : WeightedIndex) : StateM ρ Nat := fun rng =>
  let (x, rng) := choice.sampler.sample rng
  (choice.pick x, rng)

end WeightedIndex

end GrowthGrammar
