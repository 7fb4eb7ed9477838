/-!
# Names and paths of files

A file system knows names and paths by their bytes, which need not be the encoding of a text
(`FileName`, `FilePath`). `bytesOf` are the bytes of a text. Where a path is printed, `displayed`
puts a mark in the place of the bytes that encode no character.
-/

namespace GrowthGrammar

/-- The name of an entry of a directory, by its bytes. -/
abbrev FileName := List UInt8

/-- A path, by its bytes: names with slashes between them. -/
abbrev FilePath := List UInt8

/-- The bytes of a text. -/
def bytesOf (text : String) : List UInt8 := text.toList.flatMap String.utf8EncodeChar

namespace FileName

/-- The byte of a dot, which starts an extension. -/
def dot : UInt8 := 0x2E

/-- The name that leads from a directory to itself. -/
def here : FileName := [dot]

/-- The name that leads from a directory to the one above it. -/
def up : FileName := [dot, dot]

/-- The extension of a name: what follows its last dot, unless nothing comes before that dot. -/
def extension? (name : FileName) : Option FileName :=
  match name.reverse.span (· != dot) with
  | (_, []) => none
  | (_, [_]) => none
  | (extension, _) => some extension.reverse

/-- The extension of grammar files. -/
def ron : FileName := bytesOf "ron"

/-- The longest name of an entry, in bytes. -/
def longest : Nat := 255

end FileName

namespace FilePath

/-- The byte of a slash. -/
def slash : UInt8 := 0x2F

/-- A path with a name put behind it. A slash is put between the two unless there is one. -/
def join (path : FilePath) (name : FileName) : FilePath :=
  if path = [] ∨ path.getLast? = some slash then path ++ name else path ++ slash :: name

/-- The longest path that can be followed, in bytes. -/
def longest : Nat := 4095

end FilePath

/-! ## Printing -/

/-- What may follow the first byte of a character: the least and the greatest byte for each of the
places behind it. -/
def following (first : UInt8) : List (UInt8 × UInt8) :=
  let tail : UInt8 × UInt8 := (0x80, 0xBF)
  if first < 0xC2 then []
  else if first < 0xE0 then [tail]
  else if first = 0xE0 then [(0xA0, 0xBF), tail]
  else if first = 0xED then [(0x80, 0x9F), tail]
  else if first < 0xF0 then [tail, tail]
  else if first = 0xF0 then [(0x90, 0xBF), tail, tail]
  else if first < 0xF4 then [tail, tail, tail]
  else if first = 0xF4 then [(0x80, 0x8F), tail, tail]
  else []

/-- What is left of some bytes behind those that lie between the bounds for their places. -/
def skipFollowing : List (UInt8 × UInt8) → List UInt8 → List UInt8
  | (low, high) :: places, b :: bytes =>
    if low ≤ b ∧ b ≤ high then skipFollowing places bytes else b :: bytes
  | _, bytes => bytes

theorem length_skipFollowing_le (places : List (UInt8 × UInt8)) (bytes : List UInt8) :
    (skipFollowing places bytes).length ≤ bytes.length := by
  induction places generalizing bytes with
  | nil => exact Nat.le_refl _
  | cons place places ih =>
    cases bytes with
    | nil => exact Nat.le_refl _
    | cons b bytes =>
      rw [skipFollowing]
      split
      · exact Nat.le_succ_of_le (ih bytes)
      · exact Nat.le_refl _

/-- The characters that some bytes encode. A first byte that starts no character stands, together
with what could follow it in one, for a single mark. -/
def displayedChars : List UInt8 → List Char
  | [] => []
  | first :: bytes =>
    match ByteArray.utf8DecodeChar? (first :: bytes).toByteArray 0 with
    | some c => c :: displayedChars ((first :: bytes).drop c.utf8Size)
    | none => '\uFFFD' :: displayedChars (skipFollowing (following first) bytes)
termination_by bytes => bytes.length
decreasing_by
  · have := c.utf8Size_pos
    simp
    omega
  · exact Nat.lt_succ_of_le (length_skipFollowing_le _ _)

/-- The text that is printed for some bytes. -/
def displayed (bytes : List UInt8) : String := .ofList (displayedChars bytes)

/-- The bytes of a text are printed as the text. -/
theorem displayed_bytesOf (text : String) : displayed (bytesOf text) = text := by
  have h (chars : List Char) : displayedChars (chars.flatMap String.utf8EncodeChar) = chars := by
    induction chars with
    | nil => exact displayedChars.eq_1
    | cons c chars ih =>
      obtain ⟨first, rest, hfirst⟩ : ∃ first rest, String.utf8EncodeChar c = first :: rest :=
        List.exists_cons_of_length_pos (String.length_utf8EncodeChar c ▸ c.utf8Size_pos)
      have hdecode : ByteArray.utf8DecodeChar?
          (String.utf8EncodeChar c ++ chars.flatMap String.utf8EncodeChar).toByteArray 0 =
            some c := by
        rw [List.toByteArray_append]
        exact ByteArray.utf8DecodeChar?_utf8EncodeChar_append
      have hdrop : (String.utf8EncodeChar c ++ chars.flatMap String.utf8EncodeChar).drop
          c.utf8Size = chars.flatMap String.utf8EncodeChar := by
        rw [← String.length_utf8EncodeChar c]
        exact List.drop_left
      rw [hfirst] at hdecode hdrop
      rw [List.cons_append] at hdecode hdrop
      rw [List.flatMap_cons, hfirst, List.cons_append, displayedChars, hdecode]
      show c :: displayedChars (List.drop c.utf8Size _) = c :: chars
      rw [hdrop, ih]
  rw [displayed, bytesOf, h, String.ofList_toList]

end GrowthGrammar
