import GrowthGrammar.Ron.Scalar

/-!
# Lists, structs and choices

Readers of the values that hold other values. All of them read items between separating commas
(`Reader.separated`). A struct is described by its fields (`RecordField`), which may come in any
order and once each; a field that the struct does not have is read and forgotten (`Reader.ignored`),
and there values may nest `maxNesting` deep.
-/

namespace GrowthGrammar.Ron

/-- How deeply values may nest. A list, a tuple, a struct, a map and the content of an option count
one, and so do each element, key and value in them. -/
def maxNesting : Nat := 128

namespace Reader

variable {σ α : Type}

/-! ## Items between commas -/

/-- Reads items up to a terminator, which is left in place, by at most `fuel` of them. `separated`
tells whether an item may come here. -/
def separatedWithin (terminator : UInt8) (item : σ → Reader σ) : Nat → Bool → σ → Reader σ
  | 0, _, _ => throw .unexpectedEnd
  | fuel + 1, mayFollow, s => do
    skipBlanks
    if (← peek) = terminator then return s
    if !mayFollow then throw .expectedComma
    let s ← item s
    separatedWithin terminator item fuel (← comma) s

/-- Reads items between commas up to a terminator, which is left in place. A comma may stand behind
the last item. -/
def separated (terminator : Char) (item : σ → Reader σ) (s : σ) : Reader σ := do
  separatedWithin (ascii terminator) item (← limit) true s

/-- Reads a list. -/
def list (item : Reader α) : Reader (List α) := do
  if !(← consume "[") then throw .expectedListOpening
  let items ← separated ']' (fun items => return (← item) :: items) []
  skip 1
  return items.reverse

/-! ## Values that are read and forgotten -/

/-- Reads the key of a pair and the value behind its colon. -/
def keyed (key : Reader Unit) (value : Reader α) : Reader α := do
  key
  skipBlanks
  if !(← consume ":") then throw .expectedColon
  skipBlanks
  value

/-- Reads items between commas and the terminator behind them, and forgets them. -/
def forgotten (terminator : Char) (item : Reader Unit) : Reader Unit := do
  separated terminator (fun _ => item) ()
  skip 1

/-- Whether the part in parentheses that comes next holds items without keys. -/
def isTuple : Reader Bool := lookahead do
  skip 1
  skipBlanks
  if ← consumeIdentifier then
    skipBlanks
    return (← byte) ≠ ascii ':'
  else return true

/-- Whether the number that comes next is a float by the bytes that it takes. -/
def looksLikeFloat : Reader Bool := do
  let first ← peek
  let digits := (← ahead).drop (if first = ascii '+' ∨ first = ascii '-' then 1 else 0)
  return (digits.takeWhile isIntegerByte).length < (digits.takeWhile isFloatByte).length

/-- Reads an integer with an optional sign that fits in 64 bits. -/
def word : Reader Nat := do
  if ← consume "+" then nat (UInt64.size / 2)
  else if ← consume "-" then nat (UInt64.size / 2 + 1)
  else nat UInt64.size

/-- Reads a number and forgets it. An integer that does not fit is read once more as a float; the
bytes of the first attempt count in the column all the same. -/
def number : Reader Unit := do
  if ← looksLikeFloat then discard float
  else
    let before ← ahead
    if !(← attempt word).isOk then
      modify ({ · with rest := before })
      discard float

/-- Reads a value at the next level of nesting, if there is one. -/
def nested : Option (Reader Unit) → Reader Unit
  | some value => value
  | none => throw .tooDeep

/-- Reads the part in parentheses that may follow a name, and forgets it: values, or values with
names. -/
def parenthesized (content? element? : Option (Reader Unit)) : Reader Unit := do
  if (← ahead).head? = some (ascii '(') then
    let tuple ← isTuple
    skip 1
    if content?.isNone then throw .tooDeep
    let element := nested element?
    if tuple then forgotten ')' element
    else
      let name := if element?.isNone then throw .tooDeep else discard identifier
      forgotten ')' (keyed name element)

/-- Reads a value by its first byte, and forgets it. -/
def byFirstByte (content? element? : Option (Reader Unit)) : Reader Unit := do
  let b ← peek
  let element := nested element?
  if b = ascii '(' then parenthesized content? element?
  else if b = ascii '[' then
    skip 1
    if content?.isNone then throw .tooDeep
    forgotten ']' element
  else if b = ascii '\x7b' then
    skip 1
    if content?.isNone then throw .tooDeep
    forgotten '\x7d' (keyed element element)
  else if (48 ≤ b && b ≤ 57) || b == ascii '+' || b == ascii '-' then number
  else if b = ascii '.' then discard float
  else if b = ascii '"' ∨ b = ascii 'r' then discard string
  else if b = ascii '\'' then discard char
  else throw (.unexpectedByte b)

/-- Reads the content of an option behind its name, and forgets it. It stands in parentheses, which
may be left out if `bareSome` is set. -/
def optionContent (bareSome : Bool) (content? : Option (Reader Unit)) : Reader Unit := do
  skipBlanks
  if ← consume "(" then
    skipBlanks
    nested content?
    discard comma
    if !(← consume ")") then throw .expectedParenthesisEnd
  else if bareSome then nested content?
  else throw .expectedOption

/-- Reads a value of any kind and forgets it. `content?` reads what stands one level deeper, and
`element?` what stands two levels deeper, as an element of a list does. -/
def valueOver (bareSome : Bool) (content? element? : Option (Reader Unit)) : Reader Unit := do
  if ← ["true", "false"].anyM consumeWord then return
  else if ← consumeWord "Some" then optionContent bareSome content?
  else if ← consumeWord "None" then return
  else if ← consume "()" then return
  else if ← ["inf", "-inf", "NaN"].anyM consumeWord then return
  else if ← consumeIdentifier then
    skipBlanks
    parenthesized content? element?
  else byFirstByte content? element?

/-- Reads a value of any kind, nested at most `budget` deep, and forgets it. -/
def ignored (bareSome : Bool) : Nat → Reader Unit
  | 0 => valueOver bareSome none none
  | 1 => valueOver bareSome (some (ignored bareSome 0)) none
  | budget + 2 =>
    valueOver bareSome (some (ignored bareSome (budget + 1))) (some (ignored bareSome budget))

end Reader

/-! ## Structs and choices -/

/-- What is allowed at a place of a document. -/
structure Scope where
  /-- The content of an option need not stand in parentheses. -/
  bareSome : Bool
  /-- How deeply values may still nest. -/
  budget : Nat

/-- The scope of the values in a struct, or of the elements of a list. -/
def Scope.inside (scope : Scope) : Scope := { scope with budget := scope.budget - 2 }

/-- A field of a struct whose parts are gathered in `σ`. -/
structure RecordField (σ : Type) where
  name : String
  required : Bool
  /-- Whether the field was read. -/
  isSet : σ → Bool
  /-- Reads the value of the field. -/
  read : Scope → σ → Reader σ

namespace Reader

variable {σ α : Type}

/-- Reads the name of a struct, which may be left out. -/
def structName (name : String) : Reader Unit := do
  if ← identifierByteAhead then
    match ← attempt identifier with
    | .ok found => if found ≠ name then throw (.differentStructName name found)
    | .error (.suggestRawIdentifier found) =>
      if found = name then throw (.suggestRawIdentifier found)
      else throw (.expectedStructOpening name)
    | .error _ => throw (.expectedStructOpening name)

/-- Reads a field of a struct. The value of a field that the struct does not have is forgotten. -/
def field (container : String) (fields : List (RecordField σ)) (scope : Scope) (s : σ) :
    Reader σ := do
  let name ← identifier
  match fields.find? (·.name == name) with
  | some f =>
    if f.isSet s then throw (.duplicateField name container)
    keyed (pure ()) (f.read scope s)
  | none =>
    keyed (pure ()) (ignored scope.bareSome scope.budget)
    return s

/-- Reads a struct. Of the required fields that are missing, the first one is reported. -/
def record (name : String) (fields : List (RecordField σ)) (scope : Scope) (s : σ) : Reader σ := do
  structName name
  skipBlanks
  if !(← consume "(") then throw (.expectedStructOpening name)
  let s ← separated ')' (field name fields scope.inside) s
  match fields.find? (fun f => f.required && !f.isSet s) with
  | some f => throw (.missingField f.name name)
  | none =>
    skip 1
    return s

/-- Reads the name of one of several choices. -/
def choice (container : String) (names : List String) : Reader String := do
  skipBlanks
  let name ← identifier
  if names.contains name then return name
  else throw (.unknownVariant name container names)

/-- Reads the content of a choice, which stands in parentheses. -/
def choiceContent (value : Reader α) : Reader α := do
  skipBlanks
  if !(← consume "(") then throw .expectedParenthesis
  skipBlanks
  let a ← value
  discard comma
  if ← consume ")" then return a
  else throw .expectedParenthesisEnd

/-! ## Documents -/

/-- Passes over texts that come one after the other, each with the blanks behind it, and tells
whether all of them came. Every one of them is tried, also behind one that did not come; of several
failures the first is reported, at the place where the last attempt ended. -/
def consumeAll (texts : List String) : Reader Bool := do
  let results ← texts.mapM fun text => attempt do
    if ← consume text then
      skipBlanks
      return true
    else return false
  match results.findSome? fun | .error cause => some cause | .ok _ => none with
  | some cause => throw cause
  | none => return results.all fun | .ok came => came | .error _ => false

/-- The extensions of the notation. The first one concerns options; the other two concern values
that grammar files do not hold. -/
def extensionNames : List String := ["implicit_some", "unwrap_newtypes", "unwrap_variant_newtypes"]

/-- Reads the names of extensions between commas, and tells whether the one for options is among
them. -/
def extensions (bareSome : Bool) : Nat → Reader Bool
  | 0 => throw .unexpectedEnd
  | fuel + 1 => do
    let name ← identifier
    if !extensionNames.contains name then throw (.noSuchExtension name)
    let bareSome := bareSome || name == "implicit_some"
    let more ← comma
    let nameAhead ← identifierByteAhead
    if !more && nameAhead then throw .expectedComma
    if more && nameAhead then extensions bareSome fuel
    else return bareSome

/-- Reads the attributes at the start of a document, and tells whether one of them enables the
extension for options. -/
def attributes (bareSome : Bool) : Nat → Reader Bool
  | 0 => throw .unexpectedEnd
  | fuel + 1 => do
    if (← ahead).head? ≠ some (ascii '#') then return bareSome
    if !(← consumeAll ["#", "!", "[", "enable", "("]) then throw .expectedAttribute
    skipBlanks
    let bareSome ← extensions bareSome (← limit)
    skipBlanks
    if !(← consumeAll [")", "]"]) then throw .expectedAttributeEnd
    skipBlanks
    attributes bareSome fuel

/-- Reads a whole document: attributes, a value, and nothing but blanks behind it. -/
def document (value : Scope → Reader α) : Reader α := do
  skipBlanks
  let bareSome ← attributes false (← limit)
  let a ← value ⟨bareSome, maxNesting⟩
  skipBlanks
  if (← ahead).isEmpty then return a
  else throw .trailingCharacters

end Reader

end GrowthGrammar.Ron
