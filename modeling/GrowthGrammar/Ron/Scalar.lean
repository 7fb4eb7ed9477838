import GrowthGrammar.Decimal.Read
import GrowthGrammar.Ron.Reader

/-!
# Numbers, strings and characters

Readers of the values that hold no other values. Integers may be written in four bases with
underscores between the digits, floats never with underscores; strings are escaped or raw.
-/

namespace GrowthGrammar.Ron.Reader

/-! ## Integers -/

/-- The value of a hexadecimal digit. -/
def hexValue? (b : UInt8) : Option Nat :=
  if 48 ≤ b && b ≤ 57 then some (b.toNat - 48)
  else if 65 ≤ b && b ≤ 70 then some (b.toNat - 55)
  else if 97 ≤ b && b ≤ 102 then some (b.toNat - 87)
  else none

/-- A byte of the run that an integer takes. -/
def isIntegerByte (b : UInt8) : Bool := (hexValue? b).isSome || b == ascii '_'

/-- The number below `limit` that digits write after the digits of `n`. Underscores are passed
over. -/
def accumulate (base limit n : Nat) : List UInt8 → Except Cause Nat
  | [] => .ok n
  | b :: rest =>
    if b = ascii '_' then accumulate base limit n rest
    else if limit ≤ n * base then .error .integerOutOfBounds
    else match hexValue? b with
      | none => .error .expectedInteger
      | some digit =>
        if base ≤ digit then .error .expectedInteger
        else if limit ≤ n * base + digit then .error .integerOutOfBounds
        else accumulate base limit (n * base + digit) rest

/-- Reads the base of an integer. The mark of a base other than ten is passed over. -/
def base : Reader Nat := do
  if ← consume "0x" then return 16
  else if ← consume "0b" then return 2
  else if ← consume "0o" then return 8
  else return 10

/-- Reads an integer below `limit` that has no sign. -/
def nat (limit : Nat) : Reader Nat := do
  let base ← base
  let digits ← runAhead isIntegerByte
  match digits with
  | [] => throw .expectedInteger
  | b :: _ =>
    if b = ascii '_' then throw .leadingUnderscore
    skip digits.length
    match accumulate base limit 0 digits with
    | .ok n => return n
    | .error cause => throw cause

/-! ## Floats -/

/-- A byte of the run that a float takes. -/
def isFloatByte (b : UInt8) : Bool :=
  (48 ≤ b && b ≤ 57) || b == ascii 'e' || b == ascii 'E' || b == ascii '.' || b == ascii '+'
    || b == ascii '-' || b == ascii '_'

/-- The words for doubles that no decimal writes. -/
def floatWords : List (String × Float) :=
  let infinity := Float.ofBits 0x7FF0000000000000
  let nan := Float.ofBits 0x7FF8000000000000
  [("inf", infinity), ("+inf", infinity), ("-inf", -infinity), ("NaN", nan), ("+NaN", nan),
    ("-NaN", nan)]

/-- Reads a float. -/
def float : Reader Float := do
  match ← floatWords.findM? fun (word, _) => consumeWord word with
  | some (_, x) => return x
  | none =>
    let run ← runAhead isFloatByte
    if run.contains (ascii '_') then
      skip (run.takeWhile (· != ascii '_')).length
      throw .underscoreInFloat
    skip run.length
    match floatOfText? (charsOfBytes run) with
    | some x => return x
    | none => throw .expectedFloat

/-! ## Strings and characters -/

/-- Reads a hexadecimal digit. The byte is taken even if it is none. -/
def hexDigit : Reader Nat := do
  match hexValue? (← byte) with
  | some n => return n
  | none => throw (.invalidEscape "Non-hex digit found")

/-- Reads at most `limit` hexadecimal digits up to a closing brace, and gives their number and the
number that they write after the digits of `n`. -/
def bracedDigits (count n : Nat) : Nat → Reader (Nat × Nat)
  | 0 => return (count, n)
  | limit + 1 => do
    if (← peek) = ascii '\x7d' then return (count, n)
    else bracedDigits (count + 1) (16 * n + (← hexDigit)) limit

/-- Reads the part of an escape behind its backslash. -/
def escape : Reader Char := do
  let b ← byte
  if b = ascii '\'' then return '\''
  else if b = ascii '"' then return '"'
  else if b = ascii '\\' then return '\\'
  else if b = ascii 'n' then return '\n'
  else if b = ascii 'r' then return '\r'
  else if b = ascii 't' then return '\t'
  else if b = ascii '0' then return '\x00'
  else if b = ascii 'x' then
    let high ← hexDigit
    let low ← hexDigit
    return Char.ofNat (16 * high + low)
  else if b = ascii 'u' then
    if (← byte) ≠ ascii '\x7b' then throw (.invalidEscape "Missing \x7b in Unicode escape")
    let (count, n) ← bracedDigits 0 0 6
    if count = 0 then
      throw (.invalidEscape "Expected 1-6 digits, got 0 digits in Unicode escape")
    if (← byte) ≠ ascii '\x7d' then
      throw (.invalidEscape "No \x7d at the end of Unicode escape")
    if n.isValidChar then return Char.ofNat n
    else throw (.invalidEscape "Not a valid char")
  else throw (.invalidEscape "Unknown escape character")

/-- Whether a byte ends a piece of an escaped string. -/
def endsPiece (b : UInt8) : Bool := b == ascii '"' || b == ascii '\\'

/-- Reads the rest of an escaped string behind the text `read` so far, over at most `fuel`
escapes. -/
def escapedString (read : String) : Nat → Reader String
  | 0 => throw .expectedStringEnd
  | fuel + 1 => do
    let rest ← ahead
    let piece := rest.takeWhile (!endsPiece ·)
    let read := read ++ textOfBytes piece
    match rest[piece.length]? with
    | none => throw .expectedStringEnd
    | some b =>
      skip (piece.length + 1)
      if b = ascii '"' then return read
      else escapedString (read.push (← escape)) fuel

/-- The number of bytes before the first place where `ending` comes. -/
def offsetOf? (ending : List UInt8) : List UInt8 → Option Nat
  | [] => none
  | b :: rest =>
    if ending.isPrefixOf (b :: rest) then some 0 else (offsetOf? ending rest).map (· + 1)

/-- Reads a raw string behind its mark: number signs, a quote, the text, and a quote with as many
number signs. -/
def rawString : Reader String := do
  let hashes ← runAhead (· == ascii '#')
  skip hashes.length
  if !(← consume "\"") then throw .expectedString
  let rest ← ahead
  match offsetOf? (ascii '"' :: hashes) rest with
  | none => throw .expectedStringEnd
  | some length =>
    skip (length + hashes.length + 1)
    return textOfBytes (rest.take length)

/-- Reads a string. -/
def string : Reader String := do
  if ← consume "\"" then escapedString "" (← limit)
  else if ← consume "r" then rawString
  else throw .expectedString

/-- The most bytes in which the closing quote of a character that is not escaped has to come. -/
def charSpan : Nat := 5

/-- Reads a character between single quotes. -/
def char : Reader Char := do
  if !(← consume "'") then throw .expectedChar
  let c ← if (← peek) = ascii '\\' then
      skip 1
      escape
    else
      let near := (← ahead).take charSpan
      let inner := near.takeWhile (· != ascii '\'')
      if inner.length = near.length then throw .expectedChar
      match (textOfBytes inner).toList with
      | [c] =>
        skip inner.length
        pure c
      | _ => throw .expectedChar
  if ← consume "'" then return c
  else throw .expectedChar

end GrowthGrammar.Ron.Reader
