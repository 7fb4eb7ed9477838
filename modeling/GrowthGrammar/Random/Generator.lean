import GrowthGrammar.Random.ChaCha

/-!
# Random generators

A generator gives 64-bit words, one after the other; the class `RandomBits` leaves open what it is.
The programs use a `Generator`: a key and the number of words taken so far. The word at a place of
the key stream depends on nothing else, so such a generator is a plain value and copying it forks
the stream. `Generator.ofSeed` spreads a 64-bit seed over the eight words of a key.
-/

namespace GrowthGrammar

/-- The type is one of random generators. -/
class RandomBits (ρ : Type) where
  /-- Takes one 64-bit word. -/
  next : ρ → UInt64 × ρ

open ChaCha

/-- A place in the key stream of a key. -/
structure Generator where
  /-- Determines the stream. -/
  key : Key
  /-- The number of 64-bit words taken so far. -/
  drawn : Nat
  deriving DecidableEq, Repr

namespace Generator

/-- One step of the congruential sequence that spreads a seed. -/
def seedStep (s : UInt64) : UInt64 := s * 6364136223846793005 + 11634580027462260723

/-- The key word of a seed state: its high bits folded and turned by its five highest bits. -/
def seedWord (s : UInt64) : UInt32 :=
  let folded := (((s >>> 18) ^^^ s) >>> 27).toUInt32
  let turn := (s >>> 59).toUInt32
  (folded >>> turn) ||| (folded <<< ((32 - turn) % 32))

/-- Four successive key words and the seed state after them. -/
def seedRow (s : UInt64) : Row × UInt64 :=
  let s₁ := seedStep s
  let s₂ := seedStep s₁
  let s₃ := seedStep s₂
  let s₄ := seedStep s₃
  (⟨seedWord s₁, seedWord s₂, seedWord s₃, seedWord s₄⟩, s₄)

/-- The key of a seed. -/
def keyOfSeed (seed : UInt64) : Key :=
  let (first, s) := seedRow seed
  ⟨first, (seedRow s).1⟩

/-- The generator of a seed, at the start of its stream. -/
def ofSeed (seed : UInt64) : Generator := ⟨keyOfSeed seed, 0⟩

/-- The key word that four bytes write, the lowest byte first, from an offset on. Missing bytes are
zero. -/
def wordOfBytes (bytes : ByteArray) (offset : Nat) : UInt32 :=
  let byte := fun i => (bytes[offset + i]?.getD 0).toUInt32
  byte 0 ||| (byte 1 <<< 8) ||| (byte 2 <<< 16) ||| (byte 3 <<< 24)

/-- The generator of 32 bytes, at the start of its stream. -/
def ofBytes (bytes : ByteArray) : Generator :=
  let word := wordOfBytes bytes
  ⟨⟨⟨word 0, word 4, word 8, word 12⟩, ⟨word 16, word 20, word 24, word 28⟩⟩, 0⟩

/-- The word that the next draw takes. A block holds eight of them. -/
def word (g : Generator) : UInt64 :=
  (block g.key (g.drawn / 8).toUInt64).pair (g.drawn % 8)

/-- Takes one 64-bit word. -/
def next (g : Generator) : UInt64 × Generator := (g.word, { g with drawn := g.drawn + 1 })

instance randomBits : RandomBits Generator := ⟨next⟩

end Generator

end GrowthGrammar
