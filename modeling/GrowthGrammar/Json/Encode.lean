import GrowthGrammar.Grammar.Engine
import GrowthGrammar.Json.Value
import GrowthGrammar.Space.Pose
import GrowthGrammar.Walk.Basic

/-!
# Domain values as JSON

A structure is written as an object with its fields as keys, in their order; a symbol as a string.
-/

namespace GrowthGrammar

/-- A symbol as a string. -/
def Symbol.toJson (c : Symbol) : Json.Value := .string c.toString

/-- A vector as an object. -/
def Vec3.toJson (v : Vec3 Float) : Json.Value :=
  .object [("x", .float v.x), ("y", .float v.y), ("z", .float v.z)]

/-- A quaternion as an object. -/
def Quat.toJson (q : Quat Float) : Json.Value :=
  .object [("x", .float q.x), ("y", .float q.y), ("z", .float q.z), ("w", .float q.w)]

/-- A pose as an object. -/
def Pose.toJson (p : Pose Float) : Json.Value :=
  .object [("position", p.position.toJson), ("rotation", p.rotation.toJson),
    ("step_length", .float p.stepLength)]

/-- A rule as an object. -/
def Rule.toJson (r : Rule) : Json.Value :=
  .object [("predecessor", Symbol.toJson r.predecessor),
    ("replacement", .array (r.replacement.map Symbol.toJson)), ("weight", .float r.weight)]

/-- An expansion seed as the name of its kind, with its number if it has one. -/
def ExpansionSeed.toJson : ExpansionSeed → Json.Value
  | .fixed seed => .object [("Fixed", .nat seed.toNat)]
  | .perCall seed => .object [("PerCall", .nat seed.toNat)]
  | .entropy => .string "Entropy"

/-- A visit as an object. -/
def Visit.toJson (v : Visit (Pose Float)) : Json.Value :=
  .object [("state", v.state.toJson), ("symbol", Symbol.toJson v.symbol), ("depth", .nat v.depth),
    ("position", .nat v.position)]

end GrowthGrammar
