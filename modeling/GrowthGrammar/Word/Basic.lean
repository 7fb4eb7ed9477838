/-!
# Symbols, words and branch markers

A growth grammar works on words, sequences of one-character symbols. Two symbols are reserved:
`Symbol.opening` saves the state of a walk at the start of a branch, and `Symbol.closing` restores
it at the end. `Word.balance?` counts the branches that a word leaves open, and refuses a word that
closes a branch it never opened; `Word.maxDepth` is the deepest nesting that a word reaches.
-/

namespace GrowthGrammar

/-- A symbol is one character. It has an identity only, and carries no parameters. -/
abbrev Symbol := Char

/-- Symbols are hashed by their code points. -/
instance : Hashable Symbol := ⟨fun c => c.val.toUInt64⟩

/-- A word is a sequence of symbols. -/
abbrev Word := List Symbol

namespace Symbol

/-- The marker that starts a branch. -/
def opening : Symbol := '['

/-- The marker that ends a branch. -/
def closing : Symbol := ']'

/-- The two branch markers are reserved: no rule replaces them and no instruction claims them. -/
def isMarker (c : Symbol) : Bool := c == opening || c == closing

theorem isMarker_iff {c : Symbol} : isMarker c = true ↔ c = opening ∨ c = closing := by
  simp [isMarker]

theorem opening_ne_closing : opening ≠ closing := by decide

end Symbol

namespace Word

/-- One symbol per character of the text. -/
def ofString (text : String) : Word := text.toList

/-- The text of a word. -/
def render (w : Word) : String := String.ofList w

@[simp] theorem render_ofString (text : String) : render (ofString text) = text := by
  simp [render, ofString]

@[simp] theorem ofString_render (w : Word) : ofString (render w) = w := by
  simp [render, ofString]

/-- The number of branches open after a word that starts with `depth` of them open, or `none` if
the word closes a branch when none is open. -/
def balanceFrom? (depth : Nat) : Word → Option Nat
  | [] => some depth
  | c :: w =>
    if c = Symbol.opening then balanceFrom? (depth + 1) w
    else if c = Symbol.closing then
      match depth with
      | 0 => none
      | depth + 1 => balanceFrom? depth w
    else balanceFrom? depth w

/-- The number of branches that a word opens and leaves open, or `none` if it closes a branch that
it never opened. -/
def balance? (w : Word) : Option Nat := balanceFrom? 0 w

/-- The greatest of `peak` and of the depths that a word reaches from `depth` on. A close without
an open leaves the depth at zero. -/
def maxDepthFrom (depth peak : Nat) : Word → Nat
  | [] => peak
  | c :: w =>
    if c = Symbol.opening then maxDepthFrom (depth + 1) (max peak (depth + 1)) w
    else if c = Symbol.closing then maxDepthFrom (depth - 1) peak w
    else maxDepthFrom depth peak w

/-- The deepest nesting of branches in a word. -/
def maxDepth (w : Word) : Nat := maxDepthFrom 0 0 w

/-- The positions of the branch markers. -/
def markerPositions (w : Word) : List Nat :=
  (w.zipIdx.filter fun (c, _) => Symbol.isMarker c).map (·.2)

/-- The symbols of a word in the order of their code points. -/
def sorted (w : Word) : Word := w.mergeSort (· ≤ ·)

end Word

end GrowthGrammar
