import GrowthGrammar.Grammar.Engine
import GrowthGrammar.Json.Document
import GrowthGrammar.Space.Pose

/-!
# Domain values from JSON

Every reader of this module takes a document and gives the domain value that it describes, if it
does. A structure is read from an object with its fields as keys, of which unknown ones are passed
over and known ones may not be repeated, or from an array of exactly its fields in their order.
-/

namespace GrowthGrammar.Json

namespace NumberLiteral

/-- The exponent that is written behind the mark. -/
def writtenExponent (l : NumberLiteral) : Int :=
  match l.exponent? with
  | none => 0
  | some (true, digits) => -(natOfDigits digits : Int)
  | some (false, digits) => natOfDigits digits

/-- The double nearest to the magnitude of a literal, which may be an infinity. -/
def magnitude (l : NumberLiteral) : Float :=
  let places := l.places?.getD []
  scaledFloat (natOfDigits (l.whole ++ places)) (l.writtenExponent - places.length)

/-- The double nearest to a literal; `none` if that is an infinity. -/
def toFloat? (l : NumberLiteral) : Option Float :=
  let x := l.magnitude
  if x.isInf then none else some (if l.negative then -x else x)

/-- The 64-bit word of a literal that is an integer without a sign. -/
def toWord? (l : NumberLiteral) : Option UInt64 :=
  let n := natOfDigits l.whole
  if !l.negative ∧ l.places?.isNone ∧ l.exponent?.isNone ∧ n < UInt64.size then some n.toUInt64
  else none

end NumberLiteral

namespace Document

/-- A double: any number in range. -/
def toFloat? : Document → Option Float
  | .number l => l.toFloat?
  | _ => none

/-- A 64-bit word: an integer literal in range. -/
def toWord? : Document → Option UInt64
  | .number l => l.toWord?
  | _ => none

/-- A symbol: a string of one character. -/
def toSymbol? : Document → Option Symbol
  | .string (some text) =>
    match text.toList with
    | [c] => some c
    | _ => none
  | _ => none

/-- The items of an array. -/
def toList? {α : Type} (item? : Document → Option α) : Document → Option (List α)
  | .array items => items.mapM item?
  | _ => none

/-- The values of the fields of a structure, in the order of the fields. -/
def fields? (names : List String) : Document → Option (List Document)
  | .array items => if items.length = names.length then some items else none
  | .object members => do
    let members ← members.mapM fun (key?, value) => key?.map (·, value)
    names.mapM fun name =>
      match members.filter (·.1 == name) with
      | [(_, value)] => some value
      | _ => none
  | _ => none

/-- A vector. -/
def toVec3? (d : Document) : Option (Vec3 Float) := do
  match ← (← d.fields? ["x", "y", "z"]).mapM toFloat? with
  | [x, y, z] => return ⟨x, y, z⟩
  | _ => none

/-- A quaternion. -/
def toQuat? (d : Document) : Option (Quat Float) := do
  match ← (← d.fields? ["x", "y", "z", "w"]).mapM toFloat? with
  | [x, y, z, w] => return ⟨x, y, z, w⟩
  | _ => none

/-- A pose. -/
def toPose? (d : Document) : Option (Pose Float) := do
  match ← d.fields? ["position", "rotation", "step_length"] with
  | [position, rotation, stepLength] =>
    return ⟨← position.toVec3?, ← rotation.toQuat?, ← stepLength.toFloat?⟩
  | _ => none

/-- A rule. -/
def toRule? (d : Document) : Option Rule := do
  match ← d.fields? ["predecessor", "replacement", "weight"] with
  | [predecessor, replacement, weight] =>
    return ⟨← predecessor.toSymbol?, ← replacement.toList? toSymbol?, ← weight.toFloat?⟩
  | _ => none

/-- An expansion seed: the name of a kind without a number, or an object of one member. -/
def toExpansionSeed? : Document → Option ExpansionSeed
  | .string (some "Entropy") => some .entropy
  | .object [(some "Entropy", .null)] => some .entropy
  | .object [(some "Fixed", n)] => n.toWord?.map .fixed
  | .object [(some "PerCall", n)] => n.toWord?.map .perCall
  | _ => none

end Document

end GrowthGrammar.Json
