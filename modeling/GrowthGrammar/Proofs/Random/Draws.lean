import GrowthGrammar.Random.Stream
import Mathlib.Logic.Function.Iterate

/-!
# The words that draws take

A draw does one thing only to its generator: it takes some words from it (`RandomBits.skip`). A
`Generator` counts them (`Generator.skip`). A real from a closed interval takes one word if the
interval can be sampled and none otherwise, so the number of words can be told from the interval
alone (`Generator.real_snd`). In a store the draw moves on one stream and leaves the others where
they are (`Streams.real_snd`).
-/

namespace GrowthGrammar

namespace RandomBits

variable {ρ : Type} [RandomBits ρ]

/-- The generator behind the next `n` words. -/
def skip (n : ℕ) (rng : ρ) : ρ := (fun rng => (next rng).2)^[n] rng

theorem skip_skip (m n : ℕ) (rng : ρ) : skip n (skip m rng) = skip (m + n) rng := by
  rw [skip, skip, skip, ← Function.iterate_add_apply, Nat.add_comm]

end RandomBits

namespace Generator

variable (g : Generator)

/-- The generator with `n` more words taken. -/
def skip (n : ℕ) : Generator := { g with drawn := g.drawn + n }

@[simp] theorem skip_zero : g.skip 0 = g := rfl

theorem skip_skip (m n : ℕ) : (g.skip m).skip n = g.skip (m + n) :=
  congrArg (Generator.mk g.key) (Nat.add_assoc g.drawn m n)

/-- A generator counts the words that are taken from it. -/
theorem skip_eq (n : ℕ) : RandomBits.skip n g = g.skip n := by
  induction n generalizing g with
  | zero => rfl
  | succ n ih =>
    have hstep : RandomBits.skip (n + 1) g = RandomBits.skip n (g.skip 1) := rfl
    rw [hstep, ih, skip_skip, Nat.add_comm]

/-- The number of words that a real from a closed interval takes. -/
def wordsFor (low high : Float) : ℕ := if Samplable low high then 1 else 0

/-- A real from a closed interval takes one word, if the interval can be sampled. -/
theorem real_snd (low high : Float) : (g.real low high true).2 = g.skip (wordsFor low high) := by
  unfold real wordsFor
  by_cases h : Samplable low high
  · rw [if_pos h, if_pos h]
    rfl
  · rw [if_neg h, if_neg h, skip_zero]

/-- A unit draw takes one word. -/
theorem wordsFor_unit : wordsFor 0 1 = 1 := by decide +kernel

end Generator

namespace Streams

/-- Two stores are the same if they have the same stream for every handle. -/
theorem ext_getElem? {s t : Streams Generator}
    (h : ∀ i : ℕ, s.sources[i]? = t.sources[i]?) : s = t :=
  congrArg Streams.mk (Array.ext_getElem? h)

variable (s : Streams Generator) (id : StreamId)

/-- The store with `n` more words taken from one stream. A handle to no stream takes none. -/
def skip (n : ℕ) : Streams Generator := ⟨s.sources.modify id (·.skip n)⟩

theorem getElem?_skip (n i : ℕ) :
    (s.skip id n).sources[i]? =
      if id = i then s.sources[i]?.map (·.skip n) else s.sources[i]? :=
  Array.getElem?_modify

@[simp] theorem skip_zero : s.skip id 0 = s := by
  refine ext_getElem? fun i => ?_
  rw [getElem?_skip]
  split
  · exact Option.map_id'
  · rfl

theorem skip_skip (m n : ℕ) : (s.skip id m).skip id n = s.skip id (m + n) := by
  refine ext_getElem? fun i => ?_
  rw [getElem?_skip, getElem?_skip, getElem?_skip]
  split
  · simp only [Option.map_map, Function.comp_def, Generator.skip_skip]
  · rfl

/-- The only stream of a store is moved on as a generator. -/
theorem skip_single (g : Generator) (n : ℕ) : (single g).skip 0 n = single (g.skip n) := rfl

/-- A real from a closed interval moves on its stream alone. -/
theorem real_snd (low high : Float) :
    (Streams.real id low high true s).2 = s.skip id (Generator.wordsFor low high) := by
  refine ext_getElem? fun i => ?_
  rw [getElem?_skip, Streams.real]
  by_cases hi : id = i
  · subst hi
    rw [if_pos rfl]
    cases h : s.sources[id]? with
    | none => exact h
    | some g =>
      obtain ⟨hlt, -⟩ := Array.getElem?_eq_some_iff.1 h
      have hset : (s.sources.setIfInBounds id (g.real low high true).2)[id]? =
          some (g.real low high true).2 := Array.getElem?_setIfInBounds_self_of_lt hlt
      exact hset.trans (congrArg some (g.real_snd low high))
  · rw [if_neg hi]
    cases s.sources[id]? with
    | none => rfl
    | some g => exact Array.getElem?_setIfInBounds_ne hi

end Streams

end GrowthGrammar
