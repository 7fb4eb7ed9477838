import GrowthGrammar.Proofs.Walk.Verdict
import GrowthGrammar.Walk.Recursive

/-!
# Branches scope the state of a walk, not its streams

The walk keeps its saved contexts on a stack; `Branching.trace` has no stack and recurses on the
tree of branches. For tables whose instructions keep the handle that they are given
(`InstructionTable.KeepsHandles`) the two agree on every well-nested word, visit by visit and in the
streams that they leave (`trace_eq_branching_trace`). The induction behind it is on the tree, with
any word behind it (`walkFrom_word_append`).
-/

namespace GrowthGrammar

section
variable {ρ S : Type}

/-- The instruction returns the handle that it was given, whatever it does to the state and to the
streams. -/
def Instruction.KeepsHandle (i : Instruction ρ S) : Prop :=
  ∀ context stack streams, (i.run context stack streams).1.stream = context.stream

/-- Every instruction of the table returns the handle that it was given. -/
def InstructionTable.KeepsHandles (t : InstructionTable ρ S) : Prop :=
  ∀ (c : Symbol) (i : Instruction ρ S), t.instructions[c]? = some i → i.KeepsHandle

/-- The inert instruction returns what it was given. -/
theorem Instruction.keepsHandle_inert (c : Symbol) :
    (Instruction.inert c : Instruction ρ S).KeepsHandle := fun _ _ _ => rfl

/-- What a table holds for a symbol keeps the handle, claimed or not. -/
theorem InstructionTable.KeepsHandles.lookup {t : InstructionTable ρ S} (h : t.KeepsHandles)
    (c : Symbol) : (t.lookup c).instruction.KeepsHandle := by
  unfold InstructionTable.lookup
  split
  · next i hi => exact h c i hi
  · exact Instruction.keepsHandle_inert c

/-- The contexts of some states with one handle. -/
def BranchStack.ofStates (stream : StreamId) (saved : List S) : BranchStack S :=
  saved.map fun state => ⟨state, stream⟩

@[simp] theorem BranchStack.depth_ofStates (stream : StreamId) (saved : List S) :
    (BranchStack.ofStates stream saved).depth = saved.length := by
  simp [ofStates, depth]

variable {table : InstructionTable ρ S}

/-- If handles are kept, an instruction changes the state and the streams of a walker, and nothing
else. -/
theorem Walker.advance_of_keepsHandles (keeps : table.KeepsHandles) (m : Walker ρ S) (c : Symbol) :
    m.advance table c =
      ⟨⟨(m.advance table c).current.state, m.current.stream⟩, m.stack,
        (m.advance table c).streams⟩ := by
  have hstream : (m.advance table c).current.stream = m.current.stream := keeps.lookup c _ _ _
  have hcurrent : (m.advance table c).current =
      ⟨(m.advance table c).current.state, m.current.stream⟩ := congrArg (Context.mk _) hstream
  exact congrArg (Walker.mk · m.stack (m.advance table c).streams) hcurrent

/-- Behind a symbol the rest of a tree starts from what a walker at this place has become. -/
theorem Branching.trace_symbol_advance {c : Symbol} (hc : Symbol.isMarker c = false)
    (rest : Branching) (stream : StreamId) (state : S) (saved : List S) (position : Nat)
    (streams : Streams ρ) :
    let m : Walker ρ S := ⟨⟨state, stream⟩, .ofStates stream saved, streams⟩
    (Branching.symbol c hc rest).trace table stream state saved position streams =
      (m.visit table position c :: (rest.trace table stream (m.advance table c).current.state
          saved (position + 1) (m.advance table c).streams).1,
        (rest.trace table stream (m.advance table c).current.state saved (position + 1)
          (m.advance table c).streams).2) := by
  intro m
  have hvisit : m.visit table position c =
      ⟨(m.advance table c).current.state, c, saved.length, position⟩ := by
    simp [Walker.visit, m]
  rw [hvisit]
  rfl

/-- A walk of the word of a tree, with any word behind it, visits what the tree says and comes out
with the stack it went in with and with the streams that the tree leaves. The state in which it
comes out is that of the last symbol outside all branches of the tree. -/
theorem walkFrom_word_append (keeps : table.KeepsHandles) (b : Branching) (stream : StreamId)
    (state : S) (saved : List S) (position : Nat) (recorded : List (Visit S)) (streams : Streams ρ)
    (v : Word) :
    ∃ last : S,
      walkFrom (fun _ visit => visit) table
          ⟨⟨state, stream⟩, .ofStates stream saved, streams⟩ position recorded (b.word ++ v)
        = walkFrom (fun _ visit => visit) table
          ⟨⟨last, stream⟩, .ofStates stream saved,
            (b.trace table stream state saved position streams).2⟩
          (position + b.word.length)
          ((b.trace table stream state saved position streams).1.reverse ++ recorded) v := by
  induction b generalizing state saved position recorded streams v with
  | done => exact ⟨state, rfl⟩
  | symbol c hc rest ih =>
    let m : Walker ρ S := ⟨⟨state, stream⟩, .ofStates stream saved, streams⟩
    obtain ⟨last, hlast⟩ := ih (m.advance table c).current.state saved (position + 1)
      (m.visit table position c :: recorded) (m.advance table c).streams v
    refine ⟨last, ?_⟩
    rw [Branching.word, List.cons_append, walkFrom_symbol _ _ _ _ _ hc]
    -- the walker after the instruction holds the same handle, so the induction goes on from it
    rw [Walker.advance_of_keepsHandles keeps]
    refine hlast.trans ?_
    rw [Branching.trace_symbol_advance hc, List.length_cons, List.reverse_cons, List.append_assoc,
      List.singleton_append, Nat.add_assoc, Nat.add_comm 1]
  | branch body rest ih₁ ih₂ =>
    obtain ⟨inner, hinner⟩ := ih₁ state (state :: saved) (position + 1) recorded streams
      (Symbol.closing :: (rest.word ++ v))
    let after := (body.trace table stream state (state :: saved) (position + 1) streams).2
    let visits := (body.trace table stream state (state :: saved) (position + 1) streams).1
    obtain ⟨last, hlast⟩ := ih₂ state saved (position + body.word.length + 2)
      (visits.reverse ++ recorded) after v
    refine ⟨last, ?_⟩
    have hword : (Branching.branch body rest).word ++ v =
        Symbol.opening :: (body.word ++ Symbol.closing :: (rest.word ++ v)) := by
      simp [Branching.word]
    have htrace : (Branching.branch body rest).trace table stream state saved position streams =
        (visits ++ (rest.trace table stream state saved (position + body.word.length + 2) after).1,
          (rest.trace table stream state saved (position + body.word.length + 2) after).2) := rfl
    rw [hword, walkFrom_opening]
    -- inside the branch the state before it lies on top of the stack, and its close restores it
    refine Eq.trans (b := walkFrom (fun _ visit => visit) table
      ⟨⟨state, stream⟩, .ofStates stream saved, after⟩ (position + body.word.length + 2)
      (visits.reverse ++ recorded) (rest.word ++ v)) ?_ ?_
    · refine hinner.trans ?_
      have htop : (BranchStack.ofStates stream (state :: saved)) =
          ⟨state, stream⟩ :: BranchStack.ofStates stream saved := rfl
      rw [walkFrom_closing_of_stack_cons _ _ _ _ _ htop]
      congr 1
      omega
    · rw [hlast, htrace, List.reverse_append, List.append_assoc]
      congr 1
      simp only [Branching.word, List.length_cons, List.length_append]
      omega

/-- A walk of the word of a tree visits what the tree says, and leaves the streams that it
leaves. -/
theorem trace_word (keeps : table.KeepsHandles) (b : Branching) (initial : Context S)
    (streams : Streams ρ) :
    trace table initial streams b.word =
      ⟨.ok (b.trace table initial.stream initial.state [] 0 streams).1,
        (b.trace table initial.stream initial.state [] 0 streams).2⟩ := by
  obtain ⟨last, h⟩ := walkFrom_word_append keeps b initial.stream initial.state [] 0 [] streams []
  rw [List.append_nil] at h
  refine h.trans ?_
  rw [walkFrom_nil_of_stack_nil _ _ _ _ _ rfl, List.append_nil, List.reverse_reverse]

end

/-- A well-nested word has one tree, and a walk of it visits what the recursion on this tree visits
and leaves the same streams, for every table whose instructions keep the handle that they are
given. -/
theorem trace_eq_branching_trace {ρ S : Type} {w : Word} (nested : WellNested w)
    (table : InstructionTable ρ S) (keeps : table.KeepsHandles) (initial : Context S)
    (streams : Streams ρ) :
    (∃! b : Branching, b.word = w) ∧
    ∀ b : Branching, b.word = w →
      trace table initial streams w =
        let (visits, after) := b.trace table initial.stream initial.state [] 0 streams
        ⟨.ok visits, after⟩ := by
  constructor
  · obtain ⟨b, hb⟩ := wellNested_iff.1 nested
    exact ⟨b, hb, fun b' hb' => Branching.word_injective (hb'.trans hb.symm)⟩
  · rintro b rfl
    exact trace_word keeps b initial streams

/-- A table with one instruction, which adds the number of the stream to the state, and one hundred
for every branch around it, and counts the stream up. -/
def countingTable : InstructionTable Nat Nat :=
  ⟨(∅ : Std.HashMap Symbol (Instruction Nat Nat)).insert 'S' ⟨'S', fun context stack streams =>
    (context.withState (context.state + streams.sources.getD 0 0 + 100 * stack.depth),
      ⟨#[streams.sources.getD 0 0 + 1]⟩)⟩⟩

theorem keepsHandles_countingTable : countingTable.KeepsHandles := by
  intro c i hi context stack streams
  rw [countingTable, Std.HashMap.getElem?_insert, Std.HashMap.getElem?_empty] at hi
  split at hi
  · cases hi
    rfl
  · cases hi

theorem lookup_countingTable : (countingTable.lookup 'S').instruction.run =
    fun context stack streams =>
      (context.withState (context.state + streams.sources.getD 0 0 + 100 * stack.depth),
        ⟨#[streams.sources.getD 0 0 + 1]⟩) := by
  rw [InstructionTable.lookup, countingTable, Std.HashMap.getElem?_insert_self]
  rfl

/-- Behind a branch the walk goes on from the state before it, but with the stream counted on. -/
theorem trace_counting_branch :
    WellNested ['S', '[', 'S', ']', 'S'] ∧ countingTable.KeepsHandles ∧
    trace countingTable ⟨0, 0⟩ (.single 1) ['S', '[', 'S', ']', 'S'] =
      ⟨.ok [⟨1, 'S', 0, 0⟩, ⟨103, 'S', 1, 2⟩, ⟨4, 'S', 0, 4⟩], ⟨#[4]⟩⟩ := by
  let b : Branching := .symbol 'S' rfl (.branch (.symbol 'S' rfl .done) (.symbol 'S' rfl .done))
  have hb : b.word = ['S', '[', 'S', ']', 'S'] := rfl
  have nested : WellNested ['S', '[', 'S', ']', 'S'] := wellNested_iff.2 ⟨b, hb⟩
  refine ⟨nested, keepsHandles_countingTable, ?_⟩
  refine ((trace_eq_branching_trace nested countingTable keepsHandles_countingTable ⟨0, 0⟩
    (.single 1)).2 b hb).trans ?_
  simp only [b, Branching.trace, lookup_countingTable]
  rfl

end GrowthGrammar
