import GrowthGrammar.Proofs.Random.Draws
import GrowthGrammar.Proofs.Walk.Stack
import Mathlib.Algebra.GroupWithZero.Nat

/-!
# The words that a walk takes

If the number of words that an instruction takes from its stream can be told from the state and the
symbol (`InstructionTable.Takes`), then so can the number of words that a walk takes: it is the sum
over the calls of the walk (`walkFrom_streams`). A restored state does not give back what was drawn,
so calls inside and outside of branches count alike, and those before a fault count as well. A walk
calls the instructions of the part of the word that it gets to (`Word.processed`,
`map_calls_start`).
-/

namespace GrowthGrammar

variable {S α : Type}

/-- An instruction takes as many words from the stream that it is given as `cost` says for the state
and the symbol, and touches no other stream. -/
def InstructionTable.Takes (cost : S → Symbol → ℕ) (table : InstructionTable Generator S) : Prop :=
  ∀ c context stack streams, ((table.lookup c).instruction.run context stack streams).2 =
    streams.skip context.stream (cost context.state c)

/-- What the calls of a walk take together. -/
def Walker.taken {ρ : Type} (cost : S → Symbol → ℕ) (calls : List (Walker ρ S × Visit S)) : ℕ :=
  (calls.map fun call => cost call.1.current.state call.2.symbol).sum

@[simp] theorem Walker.taken_nil {ρ : Type} (cost : S → Symbol → ℕ) :
    taken (ρ := ρ) cost [] = 0 := rfl

theorem Walker.taken_append {ρ : Type} (cost : S → Symbol → ℕ)
    (calls later : List (Walker ρ S × Visit S)) :
    taken cost (calls ++ later) = taken cost calls + taken cost later := by
  rw [taken, taken, taken, List.map_append, List.sum_append]

section
variable {cost : S → Symbol → ℕ} {table : InstructionTable Generator S}
  {m next : Walker Generator S} {stream : StreamId}

/-- A marker takes nothing, and a symbol what its call takes. -/
theorem Walker.streams_of_step? (takes : table.Takes cost) (hm : m.HoldsStream stream) {c : Symbol}
    (h : m.step? table c = some next) (position : ℕ) :
    next.streams = m.streams.skip stream (taken cost (m.calls table position [c])) := by
  obtain ⟨rfl, rfl⟩ | ⟨rfl, saved, stack, -, rfl⟩ | ⟨hc, rfl⟩ := m.step?_cases table h
  · rw [calls_marker table m position rfl, taken_nil, Streams.skip_zero]
    rfl
  · rw [calls_marker table m position rfl, taken_nil, Streams.skip_zero]
  · rw [calls_symbol table m position hc, taken, List.map_singleton, List.sum_singleton,
      ← hm.current]
    exact takes c m.current m.stack m.streams

/-- A walk takes from its stream what its calls take together, also if it fails. The induction is on
the word, and the handle is the same all the way. -/
theorem walkFrom_streams (takes : table.Takes cost) (keeps : table.KeepsHandles)
    (hm : m.HoldsStream stream) (record : Walker Generator S → Visit S → α) (position : ℕ)
    (recorded : List α) (w : Word) :
    (walkFrom record table m position recorded w).streams =
      m.streams.skip stream (Walker.taken cost (m.calls table position w)) := by
  induction w generalizing m position recorded with
  | nil =>
    rw [Walker.calls, Walker.taken_nil, Streams.skip_zero]
    cases hstack : m.stack with
    | nil => rw [walkFrom_nil_of_stack_nil _ _ _ _ _ hstack]
    | cons saved stack => rw [walkFrom_nil_of_stack_cons _ _ _ _ _ hstack]
  | cons c w ih =>
    cases hstep : m.step? table c with
    | none =>
      rw [walkFrom_of_step?_eq_none record table m position recorded hstep,
        Walker.calls_of_step?_eq_none table m position hstep, Walker.taken_nil, Streams.skip_zero]
    | some next =>
      have hnext : next.HoldsStream stream :=
        hm.through? keeps ((Walker.through?_singleton table m c).trans hstep)
      rw [walkFrom_of_step? record table m position recorded hstep, ih hnext,
        m.streams_of_step? takes hm hstep position, Streams.skip_skip,
        Walker.calls_of_step? table m position hstep w, Walker.taken_append]

end

/-! ## The calls of a walk that may fail -/

/-- The part of a word that a walk gets to: what stands before the first close without an open, or
else the whole word. -/
def Word.processed (w : Word) : Word :=
  match w.fault? with
  | some (.unbalancedBranch position) => w.take position
  | _ => w

/-- A walk calls the instructions of the symbols that it gets to, markers aside, one by one at their
positions. -/
theorem map_calls_start {ρ : Type} (table : InstructionTable ρ S) (initial : Context S)
    (streams : Streams ρ) (w : Word) :
    ((Walker.start initial streams).calls table 0 w).map
        (fun call => (call.2.symbol, call.2.position)) =
      w.processed.zipIdx.filter (!Symbol.isMarker ·.1) := by
  have hthrough : ∀ (u : Word) (k : ℕ), u.balance? = some k →
      ∃ next, (Walker.start initial streams).through? table u = some next ∧
        next.stack.depth = k := by
    intro u k hu
    exact Option.map_eq_some_iff.1 ((Walker.through?_depth table _ u).trans hu)
  cases hbalance : w.balance? with
  | some k =>
    obtain ⟨next, hnext, -⟩ := hthrough w k hbalance
    have hprocessed : w.processed = w := by
      unfold Word.processed
      split
      · next p hp =>
        have hnone := Word.balance?_eq_none_of_take (Word.fault?_eq_unbalanced_iff.1 hp).after
        cases hnone.symm.trans hbalance
      · rfl
    rw [hprocessed]
    exact Walker.map_calls table _ 0 hnext
  | none =>
    obtain ⟨p, hp, -⟩ := Word.existsUnique_closesUnopened hbalance
    obtain ⟨next, hnext, hdepth⟩ := hthrough _ 0 hp.before
    obtain ⟨hlt, hclosing⟩ := List.getElem?_eq_some_iff.1 hp.closing
    have hprocessed : w.processed = w.take p := by
      rw [Word.processed, Word.fault?_eq_unbalanced_iff.2 hp]
    have hfails : next.step? table Symbol.closing = none :=
      Walker.restore?_of_stack_nil next (List.length_eq_zero_iff.1 hdepth)
    have hword : w = w.take p ++ Symbol.closing :: w.drop (p + 1) := by
      rw [← hclosing, ← List.drop_eq_getElem_cons hlt, List.take_append_drop]
    rw [hprocessed, ← Walker.map_calls table _ 0 hnext]
    conv_lhs => rw [hword, Walker.calls_append table _ 0 hnext,
      Walker.calls_of_step?_eq_none table _ _ hfails, List.append_nil]

end GrowthGrammar
