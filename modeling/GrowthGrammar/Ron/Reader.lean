import GrowthGrammar.Ron.Failure

/-!
# Reading bytes with a place

A reader of the object notation moves a `Cursor` over the bytes of a text and keeps the line and the
column at which it stands. Lines and columns count from one, and columns count bytes. A failure
leaves the cursor where it was raised, so that its place is the place of the failure
(`Reader.run`). `Reader.skipBlanks` passes over blanks and comments, and `Reader.identifier` reads a
name.
-/

namespace GrowthGrammar.Ron

/-- The bytes ahead and the place where they start. -/
structure Cursor where
  rest : List UInt8
  line : Nat
  column : Nat
  /-- The number of bytes of the whole text. It bounds every loop of a reader. -/
  size : Nat
  deriving DecidableEq, Repr

/-- The cursor at the start of a text. -/
def Cursor.start (text : String) : Cursor := ⟨text.toUTF8.toList, 1, 1, text.utf8ByteSize⟩

/-- The cursor behind the next byte, if there is one. -/
def Cursor.next (c : Cursor) : Cursor :=
  match c.rest with
  | [] => c
  | b :: rest =>
    if b = 10 then { c with rest, line := c.line + 1, column := 1 }
    else { c with rest, column := c.column + 1 }

/-- The cursor behind the next `n` bytes. -/
def Cursor.skip : Nat → Cursor → Cursor
  | 0, c => c
  | n + 1, c => skip n c.next

/-- A reader moves a cursor and gives a value, or fails for a cause. -/
abbrev Reader := EStateM Cause Cursor

/-- The code of an ASCII character. -/
def ascii (c : Char) : UInt8 := c.toNat.toUInt8

/-- The codes of an ASCII text. -/
def asciiBytes (text : String) : List UInt8 := text.toList.map ascii

/-- Bytes read as text. -/
def textOfBytes (bytes : List UInt8) : String := (String.fromUTF8? ⟨bytes.toArray⟩).getD ""

/-- The characters of ASCII bytes. -/
def charsOfBytes (bytes : List UInt8) : List Char := bytes.map fun b => Char.ofNat b.toNat

/-- The blanks of the notation. -/
def isBlank (b : UInt8) : Bool := b == 32 || b == 9 || b == 10 || b == 13

namespace Reader

variable {α : Type}

/-- Reads a text from its start. A failure is given with its place. -/
def run (r : Reader α) (text : String) : Except Failure α :=
  match EStateM.run r (.start text) with
  | .ok a _ => .ok a
  | .error cause c => .error ⟨c.line, c.column, cause⟩

/-- The bytes ahead. -/
def ahead : Reader (List UInt8) := return (← get).rest

/-- More than the number of items that a text can hold. -/
def limit : Reader Nat := return (← get).size + 1

/-- The next byte, left in place. -/
def peek : Reader UInt8 := do
  match ← ahead with
  | [] => throw .unexpectedEnd
  | b :: _ => return b

/-- Passes over `n` bytes. -/
def skip (n : Nat) : Reader Unit := modify (·.skip n)

/-- Takes the next byte. -/
def byte : Reader UInt8 := do
  let b ← peek
  skip 1
  return b

/-- The longest run of bytes of a kind, left in place. -/
def runAhead (kind : UInt8 → Bool) : Reader (List UInt8) := return (← ahead).takeWhile kind

/-- Passes over a text if it comes next, and tells whether it did. -/
def consume (text : String) : Reader Bool := do
  let bytes := asciiBytes text
  if bytes.isPrefixOf (← ahead) then
    skip bytes.length
    return true
  else return false

/-- Whether a byte that can continue a plain identifier comes next. -/
def identifierByteAhead : Reader Bool := return ((← ahead).head?.map isIdentifierByte).getD false

/-- Whether a word comes next that no byte of a plain identifier continues. -/
def wordAhead (word : String) : Reader Bool := do
  let bytes := asciiBytes word
  let rest ← ahead
  return bytes.isPrefixOf rest && !((rest.drop bytes.length).head?.any isIdentifierByte)

/-- Passes over a word if it comes next, and tells whether it did. -/
def consumeWord (word : String) : Reader Bool := do
  if ← wordAhead word then
    skip word.length
    return true
  else return false

/-- The value that a reader would give here. The cursor stays, and so does the place of a
failure. -/
def lookahead (r : Reader α) : Reader α := fun c =>
  match r c with
  | .ok a _ => .ok a c
  | .error cause _ => .error cause c

/-- What a reader gives or fails for, as a value. The cursor moves in both cases. -/
def attempt (r : Reader α) : Reader (Except Cause α) := fun c =>
  match r c with
  | .ok a c => .ok (.ok a) c
  | .error cause c => .ok (.error cause) c

/-! ## Blanks and comments -/

/-- Passes over the rest of a comment between `/*` and `*/`, of which `level` are open. Such
comments nest. -/
def blockComment : Nat → Nat → Reader Unit
  | _, 0 => return
  | 0, _ => throw .unclosedBlockComment
  | fuel + 1, level + 1 => do
    if (← ahead).isEmpty then throw .unclosedBlockComment
    else if ← consume "/*" then blockComment fuel (level + 2)
    else if ← consume "*/" then blockComment fuel level
    else
      skip 1
      blockComment fuel (level + 1)

/-- Passes over a comment if one comes next, and tells whether it did. -/
def comment : Reader Bool := do
  if ← consume "/" then
    let b ← byte
    if b = ascii '/' then skip (← runAhead (· != 10)).length
    else if b = ascii '*' then blockComment (← limit) 1
    else throw (.unexpectedByte b)
    return true
  else return false

/-- Passes over blanks and comments, at most `fuel` comments. -/
def skipBlanksWithin : Nat → Reader Unit
  | 0 => return
  | fuel + 1 => do
    skip (← runAhead isBlank).length
    if ← comment then skipBlanksWithin fuel

/-- Passes over blanks and comments. -/
def skipBlanks : Reader Unit := do skipBlanksWithin (← limit)

/-- Passes over blanks and a comma with the blanks behind it, and tells whether there was one. -/
def comma : Reader Bool := do
  skipBlanks
  if ← consume "," then
    skipBlanks
    return true
  else return false

/-! ## Identifiers -/

/-- The length of the name that comes next, behind the mark of a raw identifier if it has one. A
failure leaves the cursor in place. -/
def identifierLength : Reader Nat := do
  let rest ← ahead
  let first ← peek
  let raw := (← runAhead isRawIdentifierByte)
  let plain := (← runAhead isIdentifierByte)
  if !isIdentifierStart first then
    if isRawIdentifierByte first then throw (.suggestRawIdentifier (textOfBytes raw))
    else throw .expectedIdentifier
  let plainLength : Reader Nat := do
    if plain.length < raw.length then throw (.suggestRawIdentifier (textOfBytes raw))
    else return plain.length
  if first = ascii 'r' then
    match rest[1]? with
    | none => throw .unexpectedEnd
    | some second =>
      if second = ascii '"' then throw .expectedIdentifier
      else if second = ascii '#' then
        if (rest[2]?.map isRawIdentifierByte).getD false then
          skip 2
          return (← runAhead isRawIdentifierByte).length
        else throw .expectedIdentifier
      else plainLength
  else plainLength

/-- Reads a name. -/
def identifier : Reader String := do
  let length ← identifierLength
  let name := textOfBytes ((← ahead).take length)
  skip length
  return name

/-- Passes over a name if one comes next, and tells whether it did. -/
def consumeIdentifier : Reader Bool := return (← attempt identifier).isOk

end Reader

end GrowthGrammar.Ron
