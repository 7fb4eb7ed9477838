import GrowthGrammar.Proofs.Walk.Invariant
import GrowthGrammar.Proofs.Walk.Scoping
import GrowthGrammar.Proofs.Word.Openings
import Mathlib.Data.List.Induction

/-!
# What an instruction sees of the branches

At every call of an instruction the stack holds, from the outermost branch to the innermost one, the
contexts that were current where the word so far opened the branches that are still open
(`Walker.outermostFirst_take`). The induction behind it is on the word so far: each symbol does to
the stack what it does to the openings of the word. For a table whose instructions keep the handle
that they are given, all these contexts hold the handle of the first one
(`Walker.HoldsStream.through?`). `calls_see_openings` puts this together for every call of a walk,
also of a walk that fails later.
-/

namespace GrowthGrammar

variable {ρ S : Type} {table : InstructionTable ρ S} {m next : Walker ρ S}

namespace Walker

/-! ## The stack and the openings -/

/-- The context that is current where a walk of the word has come to a position. -/
def currentAt? (table : InstructionTable ρ S) (m : Walker ρ S) (w : Word) (i : Nat) :
    Option (Context S) :=
  (m.through? table (w.take i)).map (·.current)

/-- What is current at a position depends only on the word before it. -/
theorem currentAt?_take {w : Word} {i q : Nat} (h : i ≤ q) :
    m.currentAt? table (w.take q) i = m.currentAt? table w i := by
  rw [currentAt?, currentAt?, List.take_take, Nat.min_eq_left h]

/-- The contexts where a word opens its branches stay the same in a longer word. -/
theorem map_currentAt?_append (u v : Word) :
    u.openings.map (m.currentAt? table (u ++ v)) = u.openings.map (m.currentAt? table u) := by
  refine List.map_congr_left fun i hi => ?_
  have hlt := (Word.mem_openings.1 hi).lt_length
  rw [currentAt?, currentAt?, List.take_append_of_le_length (Nat.le_of_lt hlt)]

/-- A walk that starts outside all branches has on its stack the contexts at the openings of the
word, the outermost one first. The induction is on the word from its end, since it is the last
symbol that changes the stack and the openings. -/
theorem outermostFirst_through? (h : m.stack = []) {u : Word}
    (hu : m.through? table u = some next) :
    next.stack.outermostFirst.map some = u.openings.map (m.currentAt? table u) := by
  induction u using List.reverseRecOn generalizing next with
  | nil =>
    cases hu
    rw [h]
    rfl
  | append_singleton u c ih =>
    rw [through?_append] at hu
    obtain ⟨last, hlast, hstep⟩ := Option.bind_eq_some_iff.1 hu
    rw [through?_singleton] at hstep
    have ih := ih hlast
    obtain ⟨rfl, rfl⟩ | ⟨rfl, saved, stack, hstack, rfl⟩ | ⟨hc, rfl⟩ := last.step?_cases table hstep
    · have hcurrent : m.currentAt? table (u ++ [Symbol.opening]) u.length = some last.current := by
        rw [currentAt?, List.take_left, hlast]
        rfl
      rw [Word.openings_append_opening, List.map_append, map_currentAt?_append, ← ih,
        List.map_singleton, hcurrent]
      simp [BranchStack.outermostFirst]
    · rw [Word.openings_append_closing, List.map_dropLast, map_currentAt?_append, ← ih, hstack]
      simp [BranchStack.outermostFirst]
    · rw [Word.openings_append_symbol hc, map_currentAt?_append, ← ih]
      rfl

/-- At every position of a word the stack holds the contexts at the openings of the word so far. -/
theorem outermostFirst_take (h : m.stack = []) {w : Word} {q : Nat}
    (hq : m.through? table (w.take q) = some next) :
    next.stack.outermostFirst.map some =
      (Word.openings (w.take q)).map (m.currentAt? table w) := by
  refine (outermostFirst_through? h hq).trans (List.map_congr_left fun i hi => ?_)
  have hlt := (Word.mem_openings.1 hi).lt_length
  exact currentAt?_take (Nat.le_of_lt (Nat.lt_of_lt_of_le hlt (List.length_take_le q w)))

/-- The saved context with the number of an opening is the one that was current there. -/
theorem getElem?_outermostFirst_take (h : m.stack = []) {w : Word} {q k i : Nat}
    (hq : m.through? table (w.take q) = some next)
    (hk : (Word.openings (w.take q))[k]? = some i) :
    next.stack.outermostFirst[k]? = m.currentAt? table w i := by
  have hmap : (next.stack.outermostFirst[k]?).map some = some (m.currentAt? table w i) := by
    rw [← List.getElem?_map, outermostFirst_take h hq, List.getElem?_map, hk]
    rfl
  obtain ⟨saved, hsaved, hcurrent⟩ := Option.map_eq_some_iff.1 hmap
  exact hsaved.trans hcurrent

/-- As many branches are open as the word so far has openings. -/
theorem depth_take (h : m.stack = []) {w : Word} {q : Nat}
    (hq : m.through? table (w.take q) = some next) :
    next.stack.depth = (Word.openings (w.take q)).length := by
  have hlength := congrArg List.length (outermostFirst_take h hq)
  rwa [List.length_map, List.length_map, BranchStack.outermostFirst, List.length_reverse]
    at hlength

/-- The context saved last is the one at the last opening. -/
theorem innermost?_take (h : m.stack = []) {w : Word} {q : Nat}
    (hq : m.through? table (w.take q) = some next) :
    next.stack.innermost? = (Word.openings (w.take q)).getLast?.bind (m.currentAt? table w) := by
  have hlast := congrArg List.getLast? (outermostFirst_take h hq)
  rw [List.getLast?_map, List.getLast?_map, BranchStack.outermostFirst, List.getLast?_reverse]
    at hlast
  rw [BranchStack.innermost?]
  cases hlist : (Word.openings (w.take q)).getLast? with
  | none =>
    rw [hlist, Option.map_none, Option.map_eq_none_iff] at hlast
    exact hlast
  | some i =>
    rw [hlist, Option.map_some] at hlast
    obtain ⟨saved, hsaved, hcurrent⟩ := Option.map_eq_some_iff.1 hlast
    exact hsaved.trans hcurrent

/-- A close goes back to the context at the last opening. -/
theorem exists_currentAt?_of_closing (h : m.stack = []) {w : Word} {q : Nat}
    (hc : w[q]? = some Symbol.closing) (hq : m.through? table (w.take (q + 1)) = some next) :
    ∃ j < q, (Word.openings (w.take q)).getLast? = some j ∧
      m.currentAt? table w j = some next.current := by
  rw [through?_take_succ table m hc] at hq
  obtain ⟨last, hlast, hstep⟩ := Option.bind_eq_some_iff.1 hq
  obtain ⟨hopening, -⟩ | ⟨-, saved, stack, hstack, rfl⟩ | ⟨hsymbol, -⟩ :=
    last.step?_cases table hstep
  · exact absurd hopening.symm Symbol.opening_ne_closing
  · have hinnermost : last.stack.innermost? = some saved := by rw [hstack]; rfl
    rw [innermost?_take h hlast] at hinnermost
    obtain ⟨j, hj, hsaved⟩ := Option.bind_eq_some_iff.1 hinnermost
    have hlt := (Word.mem_openings.1 (List.mem_of_getLast? hj)).lt_length
    exact ⟨j, Nat.lt_of_lt_of_le hlt (List.length_take_le q w), hj, hsaved⟩
  · cases hsymbol

/-! ## The handles on the stack -/

/-- The current context and all saved ones hold the handle of a stream. -/
structure HoldsStream (m : Walker ρ S) (stream : StreamId) : Prop where
  current : m.current.stream = stream
  saved : ∀ saved ∈ m.stack, saved.stream = stream

variable {stream : StreamId}

/-- A walker at the start of a word holds the handle of its context. -/
theorem holdsStream_start (initial : Context S) (streams : Streams ρ) :
    (start initial streams).HoldsStream initial.stream :=
  ⟨rfl, nofun⟩

/-- No word brings another handle into the walk, if the instructions keep theirs. -/
theorem HoldsStream.through? (keeps : table.KeepsHandles) (h : m.HoldsStream stream) {w : Word}
    (hw : m.through? table w = some next) : next.HoldsStream stream := by
  have preserves : table.Preserves (·.stream = stream) := fun c _ _ _ hcontext =>
    (keeps.lookup c _ _ _).trans hcontext
  have hm : m.Holds (·.stream = stream) := List.forall_mem_cons.2 ⟨h.current, h.saved⟩
  obtain ⟨hcurrent, hsaved⟩ := List.forall_mem_cons.1 (hm.through? preserves hw)
  exact ⟨hcurrent, hsaved⟩

/-! ## The calls -/

/-- What an instruction that is called at a position of the word sees of the branches around it,
with the walker `m` just before it. -/
structure SeesOpenings (table : InstructionTable ρ S) (start : Walker ρ S) (w : Word)
    (position : Nat) (m : Walker ρ S) : Prop where
  /-- It is called behind the word so far. -/
  reached : start.through? table (w.take position) = some m
  /-- It sees the contexts that were current at the openings of the word so far, in their order. -/
  outermostFirst : m.stack.outermostFirst.map some =
    (Word.openings (w.take position)).map (start.currentAt? table w)
  depth : m.stack.depth = (Word.openings (w.take position)).length
  innermost? : m.stack.innermost? =
    (Word.openings (w.take position)).getLast?.bind (start.currentAt? table w)
  /-- A saved context is the same, in the same place, at every position since its opening. -/
  unchanged : ∀ k i : Nat, (Word.openings (w.take position))[k]? = some i →
    ∀ q, i < q → q ≤ position → ∃ earlier, start.through? table (w.take q) = some earlier ∧
      earlier.stack.outermostFirst[k]? = start.currentAt? table w i ∧
      m.stack.outermostFirst[k]? = start.currentAt? table w i
  /-- All contexts hold the handle that the walk started with. -/
  holdsStream : m.HoldsStream start.current.stream
  /-- A draw through a saved context is the next draw of the one stream. -/
  draws : ∀ saved ∈ m.stack, ∀ {β : Type} [RandomSource ρ β] (low high : β) (inclusive : Bool),
    (Streams.real saved.stream low high inclusive : StateM (Streams ρ) β) =
      Streams.real start.current.stream low high inclusive

/-- Whoever stands behind the word so far sees its openings. -/
theorem seesOpenings (keeps : table.KeepsHandles) {initial : Context S} {streams : Streams ρ}
    {w : Word} {position : Nat}
    (h : (start initial streams).through? table (w.take position) = some m) :
    SeesOpenings table (start initial streams) w position m where
  reached := h
  outermostFirst := outermostFirst_take rfl h
  depth := depth_take rfl h
  innermost? := innermost?_take rfl h
  unchanged k i hk q hi hq := by
    have htake : (w.take position).take q = w.take q := by
      rw [List.take_take, Nat.min_eq_left hq]
    obtain ⟨earlier, hearlier⟩ := exists_through?_take table (start initial streams) h q
    have hopening := Word.getElem?_openings_take hk hi
    rw [htake] at hearlier hopening
    exact ⟨earlier, hearlier, getElem?_outermostFirst_take rfl hearlier hopening,
      getElem?_outermostFirst_take rfl h hk⟩
  holdsStream := (holdsStream_start initial streams).through? keeps h
  draws saved hsaved _ _ low high inclusive := by
    rw [((holdsStream_start initial streams).through? keeps h).saved saved hsaved]
    rfl

end Walker

/-- A walk records its calls, or fails with the fault of its word; also one that fails ends behind
the last of its calls, with the streams as they are there. At every call of a walk, also of one that
fails later, the walk has come to the position of the call with the calls before it recorded, and
the instruction of the symbol there sees the openings of the word so far: the contexts that were
current there, unchanged, with the handle of the first context. -/
theorem calls_see_openings {ρ S : Type} {table : InstructionTable ρ S} (keeps : table.KeepsHandles)
    (initial : Context S) (streams : Streams ρ) (w : Word) :
    let start := Walker.start initial streams
    (walk Prod.mk table initial streams w).result =
      (match w.fault? with
      | none => .ok (start.calls table 0 w)
      | some e => .error e) ∧
    (∃ u v last, w = u ++ v ∧ start.through? table u = some last ∧
      (∀ c ∈ v.head?, last.step? table c = none) ∧
      start.calls table 0 w = start.calls table 0 u ∧
      (walk Prod.mk table initial streams w).streams = last.streams) ∧
    ∀ m v, (m, v) ∈ start.calls table 0 w →
      walk Prod.mk table initial streams w =
        walkFrom Prod.mk table m v.position (start.calls table 0 (w.take v.position)).reverse
          (w.drop v.position) ∧
      w[v.position]? = some v.symbol ∧ v.depth = m.stack.depth ∧
      Walker.SeesOpenings table start w v.position m := by
  refine ⟨?_, exists_walkFrom_end Prod.mk table _ 0 [] w, ?_⟩
  · rw [walk_calls]
    cases w.fault? with
    | none => exact congrArg Except.ok (List.map_id' _)
    | some e => rfl
  · intro m v hcall
    obtain ⟨i, c, hi, -, hthrough, hvisit⟩ := (Walker.mem_calls_iff table _ 0).1 hcall
    rw [Nat.zero_add] at hvisit
    obtain rfl : v = m.visit table i c := hvisit
    refine ⟨(walk_take Prod.mk table hi hthrough).trans ?_, hi, rfl,
      Walker.seesOpenings keeps hthrough⟩
    exact congrArg (fun calls => walkFrom Prod.mk table m i calls.reverse (w.drop i))
      (List.map_id' _)

/-- The instruction of the counting table adds to the state and counts the stream up. -/
theorem Walker.step?_countingTable (m : Walker Nat Nat) :
    m.step? countingTable 'S' =
      some { m with
        current := m.current.withState
          (m.current.state + m.streams.sources.getD 0 0 + 100 * m.stack.depth)
        streams := ⟨#[m.streams.sources.getD 0 0 + 1]⟩ } := by
  rw [step?_symbol _ _ rfl, advance, lookup_countingTable]

/-- The walk of this word fails at its end, with two branches open. Its last call sees the contexts
from before the two branches, both with the handle zero. -/
theorem calls_see_openings_of_unclosed :
    countingTable.KeepsHandles ∧
    (walk Prod.mk countingTable ⟨0, 0⟩ (.single 1) ['S', '[', 'S', '[', 'S']).result =
      .error (.unclosedBranch 2) ∧
    ∃ m v, (m, v) ∈ (Walker.start ⟨0, 0⟩ (.single 1)).calls countingTable 0
        ['S', '[', 'S', '[', 'S'] ∧
      v.position = 4 ∧ m.stack.outermostFirst = [⟨1, 0⟩, ⟨103, 0⟩] ∧
      Walker.SeesOpenings countingTable (.start ⟨0, 0⟩ (.single 1)) ['S', '[', 'S', '[', 'S'] 4
        m := by
  let m : Walker Nat Nat := ⟨⟨103, 0⟩, [⟨103, 0⟩, ⟨1, 0⟩], ⟨#[3]⟩⟩
  have hthrough : (Walker.start ⟨0, 0⟩ (.single 1)).through? countingTable ['S', '[', 'S', '['] =
      some m := by
    simp only [Walker.through?_cons, Walker.step?_countingTable, Option.bind_some]
    rfl
  have hcall : (m, m.visit countingTable 4 'S') ∈
      (Walker.start ⟨0, 0⟩ (.single 1)).calls countingTable 0 ['S', '[', 'S', '[', 'S'] :=
    (Walker.mem_calls_iff countingTable _ 0).2 ⟨4, 'S', rfl, rfl, hthrough, rfl⟩
  have h := calls_see_openings keepsHandles_countingTable ⟨0, 0⟩ (.single 1)
    ['S', '[', 'S', '[', 'S']
  exact ⟨keepsHandles_countingTable, h.1, m, m.visit countingTable 4 'S', hcall, rfl, rfl,
    (h.2.2 _ _ hcall).2.2.2⟩

end GrowthGrammar
