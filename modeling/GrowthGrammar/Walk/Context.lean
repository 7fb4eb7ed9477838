import GrowthGrammar.Random.Stream
import GrowthGrammar.Word.Basic

/-!
# Contexts and instructions

At every point of a walk there is a current `Context`, a state together with a handle to a random
stream, and a `BranchStack` of the contexts saved by the branches that are open. An `Instruction`
belongs to one symbol and makes the next context from these two. It can look at the stack but not
change it, and it can draw from the streams, which are threaded through the walk.
-/

namespace GrowthGrammar

/-- A state and a handle to the stream that it draws from. -/
structure Context (S : Type) where
  state : S
  stream : StreamId

namespace Context

variable {S : Type}

/-- Another state with the same stream. -/
def withState (c : Context S) (state : S) : Context S := { c with state }

end Context

/-- The contexts saved by the branches that are open, the innermost one first. -/
abbrev BranchStack (S : Type) := List (Context S)

namespace BranchStack

variable {S : Type}

/-- The number of branches that are open. -/
def depth (stack : BranchStack S) : Nat := stack.length

/-- The context saved by the innermost open branch. -/
def innermost? (stack : BranchStack S) : Option (Context S) := stack.head?

/-- The saved contexts, the outermost one first. -/
def outermostFirst (stack : BranchStack S) : List (Context S) := stack.reverse

end BranchStack

/-- The behaviour of one symbol, on streams with sources of type `ρ` and states of type `S`. -/
structure Instruction (ρ S : Type) where
  symbol : Symbol
  run : Context S → BranchStack S → StateM (Streams ρ) (Context S)

namespace Instruction

variable {ρ S : Type}

/-- The instruction that changes nothing. -/
def inert (symbol : Symbol) : Instruction ρ S := ⟨symbol, fun context _ => pure context⟩

end Instruction

end GrowthGrammar
