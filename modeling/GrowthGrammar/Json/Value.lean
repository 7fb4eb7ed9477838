import GrowthGrammar.Decimal.Layout

/-!
# Writing JSON

A `Json.Value` is a document to be written, on one line (`Json.Value.compact`) or over indented
lines (`Json.Value.pretty`). Objects keep the order of their keys. A double that is not finite has
no literal and is written as `null`.
-/

namespace GrowthGrammar.Json

/-- A document to be written. -/
inductive Value where
  | null
  | nat (n : Nat)
  | float (x : Float)
  | string (text : String)
  | array (items : List Value)
  | object (members : List (String × Value))

/-- A character inside a string literal. Quotes, backslashes and control characters below the space
are escaped, the common ones by a letter and the rest by their code. -/
def escapedChar (c : Char) : List Char :=
  if c = '"' then ['\\', '"']
  else if c = '\\' then ['\\', '\\']
  else if c = '\x08' then ['\\', 'b']
  else if c = '\x0c' then ['\\', 'f']
  else if c = '\n' then ['\\', 'n']
  else if c = '\r' then ['\\', 'r']
  else if c = '\t' then ['\\', 't']
  else if c.toNat < 32 then
    let digits := Nat.toDigits 16 c.toNat
    ['\\', 'u'] ++ zeros (4 - digits.length) ++ digits
  else [c]

/-- A string literal. -/
def quote (text : String) : String :=
  "\"" ++ String.ofList (text.toList.flatMap escapedChar) ++ "\""

/-- The literal of a double. -/
def floatLiteral (x : Float) : String := (documentText? x).getD "null"

namespace Value

mutual

/-- The text of a document on one line, without blanks. -/
def compact : Value → String
  | null => "null"
  | nat n => toString n
  | float x => floatLiteral x
  | string text => quote text
  | array items => "[" ++ ",".intercalate (compactItems items) ++ "]"
  | object members => "\x7b" ++ ",".intercalate (compactMembers members) ++ "\x7d"

/-- The texts of the items of an array. -/
def compactItems : List Value → List String
  | [] => []
  | v :: items => compact v :: compactItems items

/-- The texts of the members of an object. -/
def compactMembers : List (String × Value) → List String
  | [] => []
  | (key, v) :: members => (quote key ++ ":" ++ compact v) :: compactMembers members

end

/-- The start of a line at some depth: two blanks for each level. -/
def newline (depth : Nat) : String :=
  "\n" ++ String.ofList (List.replicate (2 * depth) ' ')

/-- Parts between brackets, each on a line of its own one level deeper. Without parts the brackets
stand together. -/
def block (depth : Nat) (opening closing : String) (parts : List String) : String :=
  if parts.isEmpty then opening ++ closing
  else
    opening ++ ",".intercalate (parts.map (newline (depth + 1) ++ ·)) ++ newline depth ++ closing

mutual

/-- The text of a document over indented lines, the first of which starts at some depth. -/
def prettyAt (depth : Nat) : Value → String
  | null => "null"
  | nat n => toString n
  | float x => floatLiteral x
  | string text => quote text
  | array items => block depth "[" "]" (prettyItems (depth + 1) items)
  | object members => block depth "\x7b" "\x7d" (prettyMembers (depth + 1) members)

/-- The texts of the items of an array. -/
def prettyItems (depth : Nat) : List Value → List String
  | [] => []
  | v :: items => prettyAt depth v :: prettyItems depth items

/-- The texts of the members of an object. -/
def prettyMembers (depth : Nat) : List (String × Value) → List String
  | [] => []
  | (key, v) :: members => (quote key ++ ": " ++ prettyAt depth v) :: prettyMembers depth members

end

/-- The text of a document over indented lines. -/
def pretty (v : Value) : String := v.prettyAt 0

end Value

end GrowthGrammar.Json
