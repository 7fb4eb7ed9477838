import GrowthGrammar.Decimal.Read

/-!
# Reading JSON

`Json.parse?` reads a text into a `Json.Document`. The document keeps what only its use decides: a
number keeps its digits, since whether it fits depends on the type that is wanted, and a string
keeps whether its escapes pair up to characters, since a part that nobody looks at need not. Arrays
and objects may nest as deeply as the text is long.
-/

namespace GrowthGrammar.Json

/-- The literal of a number. -/
structure NumberLiteral where
  negative : Bool
  whole : List Char
  /-- The digits behind the point, if there is one. -/
  places? : Option (List Char)
  /-- Whether the exponent is negative, and its digits, if there is one. -/
  exponent? : Option (Bool × List Char)
  deriving DecidableEq, Repr

/-- A document as it is read. -/
inductive Document where
  | null
  | bool (value : Bool)
  | number (literal : NumberLiteral)
  /-- A string, or `none` if its escapes do not pair up to characters. -/
  | string (text? : Option String)
  | array (items : List Document)
  | object (members : List (Option String × Document))

/-- A parser takes characters from the start of a text, or fails. -/
abbrev Parser := StateT (List Char) Option

namespace Parser

/-- The blanks of the format. -/
def isBlank (c : Char) : Bool := c = ' ' || c = '\t' || c = '\n' || c = '\r'

/-- Passes over blanks. -/
def skipBlanks : Parser Unit := modify (·.dropWhile isBlank)

/-- The next character, left in place. -/
def peek? : Parser (Option Char) := return (← get).head?

/-- Takes the next character. -/
def next : Parser Char := do
  match ← get with
  | [] => failure
  | c :: rest =>
    set rest
    return c

/-- Takes a character that has to come next. -/
def expect (c : Char) : Parser Unit := do
  if (← next) ≠ c then failure

/-- Passes over blanks and takes the character behind them. -/
def nextToken : Parser Char := do
  skipBlanks
  next

/-! ## Numbers -/

/-- Takes a run of digits. -/
def digits : Parser (List Char) := do
  let rest ← get
  set (rest.dropWhile Char.isDigit)
  return rest.takeWhile Char.isDigit

/-- Takes a run of at least one digit. -/
def someDigits : Parser (List Char) := do
  let ds ← digits
  if ds.isEmpty then failure else return ds

/-- Takes the digits before the point. A zero stands alone. -/
def wholeDigits : Parser (List Char) := do
  match ← someDigits with
  | '0' :: _ :: _ => failure
  | ds => return ds

/-- Takes a point and the digits behind it, if a point comes next. -/
def places? : Parser (Option (List Char)) := do
  if (← peek?) = some '.' then
    discard next
    return some (← someDigits)
  else return none

/-- Takes an exponent, if its mark comes next. -/
def exponent? : Parser (Option (Bool × List Char)) := do
  match ← peek? with
  | some 'e' | some 'E' =>
    discard next
    let sign ← peek?
    if sign = some '+' ∨ sign = some '-' then discard next
    return some (sign == some '-', ← someDigits)
  | _ => return none

/-- Takes a number behind its sign. -/
def number (negative : Bool) : Parser Document := do
  let whole ← wholeDigits
  let places ← places?
  let exponent ← exponent?
  return .number ⟨negative, whole, places, exponent⟩

/-! ## Strings -/

/-- The value of a hexadecimal digit. -/
def hexValue? (c : Char) : Option Nat :=
  if c.isDigit then some (digitValue c)
  else if 'a' ≤ c ∧ c ≤ 'f' then some (c.toNat - 'a'.toNat + 10)
  else if 'A' ≤ c ∧ c ≤ 'F' then some (c.toNat - 'A'.toNat + 10)
  else none

/-- The code unit that four hexadecimal digits write. -/
def codeUnit? (a b c d : Char) : Option Nat := do
  return 4096 * (← hexValue? a) + 256 * (← hexValue? b) + 16 * (← hexValue? c) + (← hexValue? d)

/-- A unit of a string: a code unit that an escape writes, or a character. -/
abbrev StringUnit := Nat ⊕ Char

/-- The characters of string units. A code unit from the surrogate range has to be the first half of
a pair with the unit behind it. -/
def decode? : List StringUnit → Option (List Char)
  | [] => some []
  | .inr c :: rest => (decode? rest).map (c :: ·)
  | .inl high :: .inl low :: rest =>
    if 0xD800 ≤ high ∧ high < 0xDC00 then
      if 0xDC00 ≤ low ∧ low < 0xE000 then
        (decode? rest).map
          (Char.ofNat ((high - 0xD800) * 0x400 + (low - 0xDC00) + 0x10000) :: ·)
      else none
    else if 0xDC00 ≤ high ∧ high < 0xE000 then none
    else (decode? (.inl low :: rest)).map (Char.ofNat high :: ·)
  | .inl unit :: rest =>
    if 0xD800 ≤ unit ∧ unit < 0xE000 then none
    else (decode? rest).map (Char.ofNat unit :: ·)

/-- The character that an escape of one letter writes. -/
def escaped? : Char → Option Char
  | '"' => some '"'
  | '\\' => some '\\'
  | '/' => some '/'
  | 'b' => some '\x08'
  | 'f' => some '\x0c'
  | 'n' => some '\n'
  | 'r' => some '\r'
  | 't' => some '\t'
  | _ => none

/-- The units of a string up to its closing quote, behind those in `taken`, and the rest of the
text. Control characters have to be escaped. -/
def stringUnits (taken : List StringUnit) : List Char → Option (List StringUnit × List Char)
  | [] => none
  | '"' :: rest => some (taken.reverse, rest)
  | '\\' :: 'u' :: a :: b :: c :: d :: rest => do
    stringUnits (.inl (← codeUnit? a b c d) :: taken) rest
  | '\\' :: c :: rest => do stringUnits (.inr (← escaped? c) :: taken) rest
  | c :: rest => if c.toNat < 32 then none else stringUnits (.inr c :: taken) rest

/-- Takes a string behind its opening quote. -/
def string : Parser (Option String) := do
  let (units, rest) ← stringUnits [] (← get)
  set rest
  return (decode? units).map String.ofList

/-! ## Documents -/

/-- Takes items up to a closing bracket, at most `fuel` of them. `first` tells that none was taken
yet: only then may the bracket stand without an item before it. -/
def itemsUpTo {α : Type} (closing : Char) (item : Parser α) (first : Bool) (taken : List α) :
    Nat → Parser (List α)
  | 0 => failure
  | fuel + 1 => do
    skipBlanks
    if (← peek?) = some closing then
      discard next
      return taken.reverse
    else
      if !first then expect ','
      itemsUpTo closing item false ((← item) :: taken) fuel

/-- Takes at most `limit` items of an array or of an object behind its opening bracket. -/
def items {α : Type} (limit : Nat) (closing : Char) (item : Parser α) : Parser (List α) :=
  itemsUpTo closing item true [] limit

/-- Takes a key and the value behind its colon. -/
def member (value : Parser Document) : Parser (Option String × Document) := do
  if (← nextToken) ≠ '"' then failure
  let key ← string
  if (← nextToken) ≠ ':' then failure
  return (key, ← value)

/-- Takes the rest of a word. -/
def word (rest : String) (d : Document) : Parser Document := do
  rest.toList.forM expect
  return d

/-- Takes a document, with at most `limit` items in an array or an object. `inner?` takes a document
in one of these, if there may be one. -/
def documentOver (limit : Nat) (inner? : Option (Parser Document)) : Parser Document := do
  match ← nextToken with
  | 'n' => word "ull" .null
  | 't' => word "rue" (.bool true)
  | 'f' => word "alse" (.bool false)
  | '"' => return .string (← string)
  | '[' => return .array (← items limit ']' (← inner?))
  | '\x7b' => return .object (← items limit '\x7d' (member (← inner?)))
  | '-' => number true
  | c =>
    modify (c :: ·)
    number false

/-- Takes a document with at most `limit` items in an array or an object, which nest at most `fuel`
deep. -/
def document (limit : Nat) : Nat → Parser Document
  | 0 => documentOver limit none
  | fuel + 1 => documentOver limit (some (document limit fuel))

end Parser

/-- Reads a text that holds one document and blanks around it. Items and levels take a character
each, so there are fewer of them than the text is long. -/
def parse? (text : String) : Option Document := do
  let limit := text.length + 1
  let (d, rest) ← (Parser.document limit limit).run text.toList
  if rest.all Parser.isBlank then return d else none

end GrowthGrammar.Json
