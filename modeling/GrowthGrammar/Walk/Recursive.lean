import GrowthGrammar.Walk.Basic
import GrowthGrammar.Word.Nesting

/-!
# Walking a tree of branches

`Branching.trace` says what a walk of a well-nested word means, by recursion on its tree and without
a stack machine: a branch starts from the current state, with that state saved, and the walk goes on
from the same state behind it; only the streams are left as the branch left them. It is the meaning
for instructions that keep the handle that they are given.
-/

namespace GrowthGrammar.Branching

variable {ρ S : Type}

/-- The visits of a tree that starts at a position. `saved` holds the states of the branches around
it, the innermost one first. -/
def trace (table : InstructionTable ρ S) (stream : StreamId) (state : S) (saved : List S)
    (position : Nat) : Branching → StateM (Streams ρ) (List (Visit S))
  | done => return []
  | symbol c _ rest => do
    let stack : BranchStack S := saved.map fun state => ⟨state, stream⟩
    let next ← (table.lookup c).instruction.run ⟨state, stream⟩ stack
    let visits ← rest.trace table stream next.state saved (position + 1)
    return ⟨next.state, c, saved.length, position⟩ :: visits
  | branch body rest => do
    let inner ← body.trace table stream state (state :: saved) (position + 1)
    let outer ← rest.trace table stream state saved (position + body.word.length + 2)
    return inner ++ outer

variable {table : InstructionTable ρ S} {stream : StreamId} {state : S} {saved : List S}
  {position : Nat} {streams : Streams ρ}

/-- Behind a symbol the rest of a tree starts from what its instruction left. -/
theorem trace_symbol {c : Symbol} {next : Context S} {after : Streams ρ}
    (h : (table.lookup c).instruction.run ⟨state, stream⟩
      (saved.map fun state => ⟨state, stream⟩) streams = (next, after))
    (hc : Symbol.isMarker c = false) (rest : Branching) :
    (symbol c hc rest).trace table stream state saved position streams =
      (⟨next.state, c, saved.length, position⟩ ::
          (rest.trace table stream next.state saved (position + 1) after).1,
        (rest.trace table stream next.state saved (position + 1) after).2) := by
  simp only [trace, bind, StateT.bind, h]
  rfl

/-- The visits of a branch and of what stands behind it. Both start from the same state. -/
theorem mem_trace_branch {body rest : Branching} {v : Visit S}
    (hv : v ∈ ((branch body rest).trace table stream state saved position streams).1) :
    v ∈ (body.trace table stream state (state :: saved) (position + 1) streams).1 ∨
      ∃ after, v ∈ (rest.trace table stream state saved (position + body.word.length + 2) after).1 :=
  (List.mem_append.1 hv).imp_right fun h => ⟨_, h⟩

end GrowthGrammar.Branching
