import GrowthGrammar.Random.Stream

/-!
# Cursors into random streams

A cursor is a live handle to a stream. `Cursors` keeps every cursor ever made, in the order of their
making, with the stream that it points to; a dropped cursor points to none. Cloning a cursor shares
its stream, and every stream counts the cursors that still point to it (`Cursors.shareCount?`).
-/

namespace GrowthGrammar

/-- Streams and the cursors into them. -/
structure Cursors (ρ : Type) where
  streams : Streams ρ
  /-- The stream of each cursor, or `none` once the cursor is dropped. -/
  handles : Array (Option StreamId)

namespace Cursors

variable {ρ α : Type}

/-- No stream and no cursor. -/
def empty : Cursors ρ := ⟨⟨#[]⟩, #[]⟩

/-- The stream of a live cursor. -/
def stream? (c : Cursors ρ) (cursor : Nat) : Option StreamId := (c.handles[cursor]?).join

/-- Makes a cursor into a new stream, and returns its number. -/
def start (c : Cursors ρ) (source : ρ) : Nat × Cursors ρ :=
  let (id, streams) := Streams.add source c.streams
  (c.handles.size, ⟨streams, c.handles.push (some id)⟩)

/-- Makes a second cursor into the stream of a live one, and returns its number. -/
def clone? (c : Cursors ρ) (cursor : Nat) : Option (Nat × Cursors ρ) :=
  (c.stream? cursor).map fun id => (c.handles.size, { c with handles := c.handles.push (some id) })

/-- Drops a cursor. The other cursors of its stream stay live. -/
def drop (c : Cursors ρ) (cursor : Nat) : Cursors ρ :=
  { c with handles := c.handles.setIfInBounds cursor none }

/-- The next real of the stream of a live cursor. -/
def real? [RandomSource ρ α] (c : Cursors ρ) (cursor : Nat) (low high : α) (inclusive : Bool) :
    Option (α × Cursors ρ) :=
  (c.stream? cursor).map fun id =>
    let (x, streams) := Streams.real id low high inclusive c.streams
    (x, { c with streams })

/-- Whether two live cursors point to the same stream. -/
def shares? (c : Cursors ρ) (cursor other : Nat) : Option Bool := do
  return (← c.stream? cursor) == (← c.stream? other)

/-- The number of live cursors into the stream of a live cursor. -/
def shareCount? (c : Cursors ρ) (cursor : Nat) : Option Nat :=
  (c.stream? cursor).map fun id => c.handles.toList.countP (· == some id)

/-- The text of a live cursor, which shows how many share its stream. -/
def describe? (c : Cursors ρ) (cursor : Nat) : Option String :=
  (c.shareCount? cursor).map fun n => "RandomCursor \x7b handles: " ++ toString n ++ " \x7d"

end Cursors

end GrowthGrammar
