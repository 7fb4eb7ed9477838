import GrowthGrammar.Space.Pose
import GrowthGrammar.System.Basic

/-!
# Run configurations

A configuration file holds a struct `Config`: a grammar, the seed of the walk, the seed of the
expansion and the length of the first step. Only the grammar is required.
-/

namespace GrowthGrammar

open Ron (RecordField Reader Scope)

/-- A configuration as a file holds it. -/
structure ConfigEntry where
  grammar? : Option GrammarEntry := none
  seed? : Option UInt64 := none
  expansion? : Option ExpansionSeed := none
  stepLength? : Option Float := none

/-- A run as it is configured. -/
structure RunConfig where
  grammar : Grammar
  seed : UInt64
  expansion : ExpansionSeed
  stepLength : Float

/-- The names of the kinds of expansion seeds. -/
def ExpansionSeed.names : List String := ["Fixed", "PerCall", "Entropy"]

/-- Reads a 64-bit word. -/
def readWord : Reader UInt64 := return (← Reader.nat UInt64.size).toUInt64

/-- Reads an expansion seed. -/
def ExpansionSeed.read : Reader ExpansionSeed := do
  let name ← Reader.choice "ExpansionSeed" names
  if name = "Fixed" then return .fixed (← Reader.choiceContent readWord)
  else if name = "PerCall" then return .perCall (← Reader.choiceContent readWord)
  else return .entropy

namespace ConfigEntry

/-- The fields of a configuration. -/
def fields : List (RecordField ConfigEntry) :=
  [⟨"grammar", true, (·.grammar?.isSome),
      fun scope e => return { e with grammar? := some (← GrammarEntry.read scope) }⟩,
    ⟨"seed", false, (·.seed?.isSome),
      fun _ e => return { e with seed? := some (← readWord) }⟩,
    ⟨"expansion", false, (·.expansion?.isSome),
      fun _ e => return { e with expansion? := some (← ExpansionSeed.read) }⟩,
    ⟨"step_length", false, (·.stepLength?.isSome),
      fun _ e => return { e with stepLength? := some (← Reader.float) }⟩]

/-- Reads a configuration. -/
def read (scope : Scope) : Reader ConfigEntry := Reader.record "Config" fields scope {}

/-- The configuration of an entry. -/
def toConfig (e : ConfigEntry) : Except GrammarError RunConfig := do
  let grammar ← (e.grammar?.getD {}).toGrammar
  return ⟨grammar, e.seed?.getD 0, e.expansion?.getD default, e.stepLength?.getD 1⟩

end ConfigEntry

namespace RunConfig

/-- The configuration that a text in the notation of grammar files describes. -/
def ofRon? (text : String) : Except SystemError RunConfig :=
  match (Reader.document ConfigEntry.read).run text with
  | .ok entry => entry.toConfig.mapError .grammar
  | .error failure => .error (.ron failure)

/-- The configuration that the file at a path describes. -/
def load (files : FileReader) (path : String) : Except SystemError RunConfig :=
  match files path with
  | .ok text => ofRon? text
  | .error cause => .error (.file cause)

/-- The builder with the settings of a configuration. -/
def builder (c : RunConfig) : Builder (Pose Float) where
  grammar? := some c.grammar
  seed := c.seed
  expansion := c.expansion
  initialState? := some (.atOrigin c.stepLength)

end RunConfig

end GrowthGrammar
