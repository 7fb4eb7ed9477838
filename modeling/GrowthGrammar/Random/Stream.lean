import GrowthGrammar.Random.Uniform

/-!
# Shared random streams

The contexts of a walk hold handles to random streams, not streams: a saved context draws from the
same stream as the live one, and a draw through either handle is the next draw of that stream. Here
a handle is a `StreamId`, an index into a store of sources (`Streams`). What a source is, and which
numbers it draws, is left open by the class `RandomSource`, whose main instance is `Generator`.
-/

namespace GrowthGrammar

/-- A source of reals of the type `α`. -/
class RandomSource (ρ : Type) (α : Type) where
  /-- A real between the two bounds, the upper one included if the flag is set, and the source
  after the draw. -/
  real : α → α → Bool → ρ → α × ρ

instance : RandomSource Generator Float := ⟨Generator.real⟩

/-- A handle to a stream: its index in the store. -/
abbrev StreamId := Nat

/-- A store of random streams. Streams are added and never removed. -/
structure Streams (ρ : Type) where
  sources : Array ρ

namespace Streams

variable {ρ α : Type}

/-- The store of one stream, whose handle is zero. -/
def single (source : ρ) : Streams ρ := ⟨#[source]⟩

/-- Adds a stream and returns its handle. -/
def add (source : ρ) : StateM (Streams ρ) StreamId := fun s =>
  (s.sources.size, ⟨s.sources.push source⟩)

/-- The next real of a stream. The other streams stay as they are, and a handle to no stream draws
nothing and gives `low`. -/
def real [RandomSource ρ α] (id : StreamId) (low high : α) (inclusive : Bool) :
    StateM (Streams ρ) α := fun s =>
  match s.sources[id]? with
  | none => (low, s)
  | some source =>
    let (x, source) := RandomSource.real low high inclusive source
    (x, ⟨s.sources.setIfInBounds id source⟩)

end Streams

end GrowthGrammar
