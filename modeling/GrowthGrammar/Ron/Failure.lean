import GrowthGrammar.Text.Quoted

/-!
# Failures to read a grammar file

A text in the object notation of grammar files is refused at a place, a line and a column, for a
cause. `Ron.Cause` lists the causes and `Ron.Cause.message` words them.
-/

namespace GrowthGrammar.Ron

/-- Why a text is refused. -/
inductive Cause where
  | unexpectedEnd
  /-- The byte is shown as the character with its code. -/
  | unexpectedByte (byte : UInt8)
  | unclosedBlockComment
  | expectedAttribute
  | expectedAttributeEnd
  | noSuchExtension (name : String)
  | trailingCharacters
  | expectedIdentifier
  | suggestRawIdentifier (name : String)
  | expectedStructOpening (name : String)
  | differentStructName (expected found : String)
  | duplicateField (field container : String)
  | missingField (field container : String)
  | unknownVariant (found container : String) (variants : List String)
  | expectedComma
  | expectedColon
  | expectedListOpening
  | expectedParenthesis
  | expectedParenthesisEnd
  | expectedOption
  | expectedInteger
  | leadingUnderscore
  | integerOutOfBounds
  | expectedFloat
  | underscoreInFloat
  | expectedString
  | expectedStringEnd
  | expectedChar
  | invalidEscape (reason : String)
  | tooDeep
  deriving DecidableEq, Repr

/-- The first byte of a plain identifier. -/
def isIdentifierStart (b : UInt8) : Bool :=
  (65 ≤ b && b ≤ 90) || (97 ≤ b && b ≤ 122) || b == 95

/-- A byte after the first one of a plain identifier. -/
def isIdentifierByte (b : UInt8) : Bool := isIdentifierStart b || (48 ≤ b && b ≤ 57)

/-- A byte of a raw identifier: plain ones and the three marks of numbers. -/
def isRawIdentifierByte (b : UInt8) : Bool :=
  isIdentifierByte b || b == 46 || b == 43 || b == 45

/-- A name that can be written without the mark of a raw identifier. -/
def isPlainIdentifier (name : String) : Bool :=
  match name.toUTF8.toList with
  | [] => false
  | b :: rest => isIdentifierStart b && rest.all isIdentifierByte

/-- A name in back quotes, with the mark of a raw identifier if it needs one. -/
def quoted (name : String) : String :=
  "`" ++ (if isPlainIdentifier name then "" else "r#") ++ name ++ "`"

/-- Names in a row, as a sentence about the choices lists them. -/
def listed (names : List String) : String := ", ".intercalate (names.map quoted)

/-- The wording of a cause. -/
def Cause.message : Cause → String
  | .unexpectedEnd => "Unexpected end of RON"
  | .unexpectedByte b => "Unexpected byte " ++ Text.quoteChar (Char.ofNat b.toNat)
  | .unclosedBlockComment => "Unclosed block comment"
  | .expectedAttribute => "Expected an `#![enable(...)]` attribute"
  | .expectedAttributeEnd => "Expected closing `)]` after the enable attribute"
  | .noSuchExtension name => "No RON extension named " ++ quoted name
  | .trailingCharacters => "Non-whitespace trailing characters"
  | .expectedIdentifier => "Expected identifier"
  | .suggestRawIdentifier name =>
    "Found invalid std identifier `" ++ name ++ "`, try the raw identifier `r#" ++ name
      ++ "` instead"
  | .expectedStructOpening name => "Expected opening `(` for struct " ++ quoted name
  | .differentStructName expected found =>
    "Expected struct " ++ quoted expected ++ " but found " ++ quoted found
  | .duplicateField field container =>
    "Unexpected duplicate field " ++ quoted field ++ " in " ++ quoted container
  | .missingField field container =>
    "Unexpected missing field " ++ quoted field ++ " in " ++ quoted container
  | .unknownVariant found container variants =>
    "Unexpected variant named " ++ quoted found ++ "in enum " ++ quoted container
      ++ ", expected one of " ++ listed variants ++ " instead"
  | .expectedComma => "Expected comma"
  | .expectedColon => "Expected colon"
  | .expectedListOpening => "Expected opening `[`"
  | .expectedParenthesis => "Expected opening `(`"
  | .expectedParenthesisEnd => "Expected closing `)`"
  | .expectedOption => "Expected option"
  | .expectedInteger => "Expected integer"
  | .leadingUnderscore => "Unexpected leading underscore in an integer"
  | .integerOutOfBounds => "Integer is out of bounds"
  | .expectedFloat => "Expected float"
  | .underscoreInFloat => "Unexpected underscore in float"
  | .expectedString => "Expected string"
  | .expectedStringEnd => "Expected end of string"
  | .expectedChar => "Expected char"
  | .invalidEscape reason => reason
  | .tooDeep =>
    "Exceeded recursion limit, try increasing the limit and using `serde_stacker` "
      ++ "to protect against a stack overflow"

/-- A refusal: its cause and the place where the reader stands. -/
structure Failure where
  line : Nat
  column : Nat
  cause : Cause
  deriving DecidableEq, Repr

/-- The wording of a refusal, its place first. -/
def Failure.message (f : Failure) : String :=
  toString f.line ++ ":" ++ toString f.column ++ ": " ++ f.cause.message

end GrowthGrammar.Ron
