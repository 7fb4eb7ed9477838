/-!
# The ChaCha block function with twelve rounds

A block is a function of a key of eight words and of a block number: sixteen words of state, laid
out as four rows, are stirred by six double rounds and then added to what they were. Each round
works on the four columns of the state side by side, so it is written on whole rows; the diagonal
round is the same operation between two turns of the rows. The nonce is zero throughout.
-/

namespace GrowthGrammar.ChaCha

/-- A row of the state: four words that a round treats alike. -/
structure Row where
  a : UInt32
  b : UInt32
  c : UInt32
  d : UInt32
  deriving DecidableEq, Repr

namespace Row

/-- The lane-wise combination of two rows. -/
def zipWith (f : UInt32 → UInt32 → UInt32) (r s : Row) : Row :=
  ⟨f r.a s.a, f r.b s.b, f r.c s.c, f r.d s.d⟩

instance : Add Row := ⟨zipWith (· + ·)⟩

instance : XorOp Row := ⟨zipWith (· ^^^ ·)⟩

/-- Every word of a row rotated to the left by `n` bits, for `n` from 1 to 31. -/
def rotateBits (n : UInt32) (r : Row) : Row :=
  let turn := fun w : UInt32 => (w <<< n) ||| (w >>> (32 - n))
  ⟨turn r.a, turn r.b, turn r.c, turn r.d⟩

/-- The row with its words moved one place to the left, the first one to the end. -/
def turn (r : Row) : Row := ⟨r.b, r.c, r.d, r.a⟩

/-- One of the two pairs of neighbouring words as a 64-bit word, its first word in the low half. -/
def pair (r : Row) (second : Bool) : UInt64 :=
  let (low, high) := if second then (r.c, r.d) else (r.a, r.b)
  low.toUInt64 ||| (high.toUInt64 <<< 32)

end Row

/-- The state of the block function. -/
structure Block where
  row₀ : Row
  row₁ : Row
  row₂ : Row
  row₃ : Row
  deriving DecidableEq, Repr

namespace Block

instance : Add Block :=
  ⟨fun x y => ⟨x.row₀ + y.row₀, x.row₁ + y.row₁, x.row₂ + y.row₂, x.row₃ + y.row₃⟩⟩

/-- The quarter round on all four columns. -/
def columnRound (x : Block) : Block :=
  let a := x.row₀ + x.row₁
  let d := (x.row₃ ^^^ a).rotateBits 16
  let c := x.row₂ + d
  let b := (x.row₁ ^^^ c).rotateBits 12
  let a := a + b
  let d := (d ^^^ a).rotateBits 8
  let c := c + d
  let b := (b ^^^ c).rotateBits 7
  ⟨a, b, c, d⟩

/-- Turns row `i` by `i` places, so that the diagonals stand in columns. -/
def diagonalsToColumns (x : Block) : Block :=
  ⟨x.row₀, x.row₁.turn, x.row₂.turn.turn, x.row₃.turn.turn.turn⟩

/-- Undoes `diagonalsToColumns`: four turns of a row are none. -/
def columnsToDiagonals (x : Block) : Block :=
  ⟨x.row₀, x.row₁.turn.turn.turn, x.row₂.turn.turn, x.row₃.turn⟩

theorem columnsToDiagonals_diagonalsToColumns (x : Block) :
    x.diagonalsToColumns.columnsToDiagonals = x := rfl

/-- A round on the columns followed by a round on the diagonals. -/
def doubleRound (x : Block) : Block :=
  x.columnRound.diagonalsToColumns.columnRound.columnsToDiagonals

/-- The `i`-th pair of words of the block in reading order, for `i` below eight. -/
def pair (x : Block) (i : Nat) : UInt64 :=
  let row := match i / 2 with
    | 0 => x.row₀
    | 1 => x.row₁
    | 2 => x.row₂
    | _ => x.row₃
  row.pair (i % 2 == 1)

end Block

/-- A key: the second and third row of the initial state. -/
structure Key where
  first : Row
  second : Row
  deriving DecidableEq, Repr

/-- The state before the rounds: the constant row, the key, and the number of the block as a 64-bit
counter before a zero nonce. -/
def initial (key : Key) (number : UInt64) : Block where
  row₀ := ⟨0x61707865, 0x3320646e, 0x79622d32, 0x6b206574⟩
  row₁ := key.first
  row₂ := key.second
  row₃ := ⟨number.toUInt32, (number >>> 32).toUInt32, 0, 0⟩

/-- The block of the key stream with the given number. -/
def block (key : Key) (number : UInt64) : Block :=
  let start := initial key number
  start.doubleRound.doubleRound.doubleRound.doubleRound.doubleRound.doubleRound + start

end GrowthGrammar.ChaCha
