import GrowthGrammar.Plant.Basic
import GrowthGrammar.System.Basic

/-!
# The stock plant as a system

The stock plant runs for ten generations from a step of length one, with all seeds zero.
-/

namespace GrowthGrammar.Plant

/-- The instructions of the stock plant. -/
def stockTable? : Except InstructionError (InstructionTable Generator (Pose Float)) :=
  table? .stock

/-- The builder of the stock plant. -/
def stockBuilder? : Except SystemError (Builder (Pose Float)) := do
  let grammar ← (grammar? 10).mapError .grammar
  let table ← stockTable?.mapError .instruction
  return {
    grammar? := some grammar
    instructions? := some table
    expansion := .fixed 0
    seed := 0
    initialState? := some (.atOrigin 1) }

/-- The stock plant. It needs no files. -/
def stockSystem? : Except SystemError (System (Pose Float)) := do
  (← stockBuilder?).build fun _ => .error .notFound

end GrowthGrammar.Plant
