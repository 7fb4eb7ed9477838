import GrowthGrammar.Word.Basic

/-!
# Well-nested words

A word is well nested if every branch in it is closed and every close has its open. `WellNested`
says so by a grammar of its own, without counting. `Branching` is the tree that such a word
describes, and `wellNested_iff` says that the well-nested words are the words of these trees.
-/

namespace GrowthGrammar

/-- A well-nested word is empty, or starts with a symbol that is no marker, or with a branch. -/
inductive WellNested : Word → Prop where
  | nil : WellNested []
  | symbol {c : Symbol} {w : Word} : Symbol.isMarker c = false → WellNested w →
      WellNested (c :: w)
  | branch {body rest : Word} : WellNested body → WellNested rest →
      WellNested (Symbol.opening :: (body ++ Symbol.closing :: rest))

/-- The tree of a well-nested word. -/
inductive Branching where
  | done
  | symbol (c : Symbol) (unreserved : Symbol.isMarker c = false) (rest : Branching)
  | branch (body rest : Branching)

namespace Branching

/-- The word of a tree. -/
def word : Branching → Word
  | done => []
  | symbol c _ rest => c :: rest.word
  | branch body rest => Symbol.opening :: (body.word ++ Symbol.closing :: rest.word)

theorem wellNested_word : ∀ b : Branching, WellNested b.word
  | done => .nil
  | symbol _ h rest => .symbol h rest.wellNested_word
  | branch body rest => .branch body.wellNested_word rest.wellNested_word

end Branching

/-- The well-nested words are the words of trees. -/
theorem wellNested_iff {w : Word} : WellNested w ↔ ∃ b : Branching, b.word = w := by
  constructor
  · intro h
    induction h with
    | nil => exact ⟨.done, rfl⟩
    | symbol hc _ ih =>
      obtain ⟨b, rfl⟩ := ih
      exact ⟨.symbol _ hc b, rfl⟩
    | branch _ _ ih₁ ih₂ =>
      obtain ⟨b₁, rfl⟩ := ih₁
      obtain ⟨b₂, rfl⟩ := ih₂
      exact ⟨.branch b₁ b₂, rfl⟩
  · rintro ⟨b, rfl⟩
    exact b.wellNested_word

end GrowthGrammar
