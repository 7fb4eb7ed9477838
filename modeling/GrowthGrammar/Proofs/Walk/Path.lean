import GrowthGrammar.Proofs.Walk.Stack
import GrowthGrammar.Proofs.Word.Active

/-!
# What is current is made by the active symbols

The context that is current at a place of a word is what the instructions on the path to this place
made of the first context, one after the other (`Walker.current_eq_foldl`). The instructions inside
of closed branches have no part in it, except that they have moved the streams on: each instruction
on the path runs with the stack and the streams of the walk at its own place (`Walker.callsAt`).
The induction is on the place, and at a close it goes back to the open. So the state of a visit is
what the active symbols made of the first one (`state_eq_foldl_of_mem_trace`).
-/

namespace GrowthGrammar

variable {ρ S : Type} {table : InstructionTable ρ S}

namespace Walker

variable {m next : Walker ρ S} {w : Word} {q : ℕ}

/-- The symbol at a position, with the walker just before it. -/
def callAt? (table : InstructionTable ρ S) (m : Walker ρ S) (w : Word) (i : ℕ) :
    Option (Walker ρ S × Symbol) :=
  w[i]?.bind fun c => (m.through? table (w.take i)).map (·, c)

/-- What the instruction of a symbol makes of a context, with the stack and the streams of a
walker. -/
def act (table : InstructionTable ρ S) (context : Context S) (call : Walker ρ S × Symbol) :
    Context S :=
  ((table.lookup call.2).instruction.run context call.1.stack call.1.streams).1

/-- The symbols at some positions, each with the walker just before it. -/
def callsAt (table : InstructionTable ρ S) (m : Walker ρ S) (w : Word) (positions : List ℕ) :
    List (Walker ρ S × Symbol) :=
  positions.filterMap (m.callAt? table w)

theorem callAt?_eq_some {i : ℕ} {c : Symbol} (hc : w[i]? = some c)
    (hm : m.through? table (w.take i) = some next) : m.callAt? table w i = some (next, c) := by
  rw [callAt?, hc, Option.bind_some, hm]
  rfl

/-- The walkers before symbols of a word come out of the starts of the word. -/
theorem exists_through?_of_mem_callsAt {positions : List ℕ} {call : Walker ρ S × Symbol}
    (h : call ∈ m.callsAt table w positions) :
    ∃ i, m.through? table (w.take i) = some call.1 := by
  obtain ⟨i, -, hcall⟩ := List.mem_filterMap.1 h
  obtain ⟨c, -, hcall⟩ := Option.bind_eq_some_iff.1 hcall
  obtain ⟨mi, hmi, rfl⟩ := Option.map_eq_some_iff.1 hcall
  exact ⟨i, hmi⟩

/-- A walk that gets through the start of a word comes to the symbols at all positions in it. -/
theorem map_snd_callsAt (h : m.through? table (w.take q) = some next) {positions : List ℕ}
    (hle : ∀ i ∈ positions, i ≤ q) :
    (m.callsAt table w positions).map (·.2) = positions.filterMap (w[·]?) := by
  rw [callsAt, List.map_filterMap]
  refine List.filterMap_congr fun i hi => ?_
  obtain ⟨mi, hmi⟩ := exists_through?_take table m h i
  rw [List.take_take, Nat.min_eq_left (hle i hi)] at hmi
  cases hc : w[i]? with
  | none => rw [callAt?, hc]; rfl
  | some c => rw [callAt?_eq_some hc hmi]; rfl

/-- The current context is made of the first one by the symbols on the path. -/
theorem current_eq_foldl (h : m.stack = []) (hlength : q ≤ w.length)
    (hq : m.through? table (w.take q) = some next) :
    next.current = (m.callsAt table w (w.path q)).foldl (act table) m.current := by
  induction q using Nat.strongRecOn generalizing next with
  | ind q ih =>
    cases q with
    | zero =>
      cases hq
      rfl
    | succ q =>
      obtain ⟨c, hc⟩ : ∃ c, w[q]? = some c := ⟨w[q], List.getElem?_eq_getElem hlength⟩
      have hthrough := hq
      rw [through?_take_succ table m hc] at hq
      obtain ⟨last, hlast, hstep⟩ := Option.bind_eq_some_iff.1 hq
      have hcurrent := ih q q.lt_succ_self (Nat.le_of_succ_le hlength) hlast
      obtain ⟨rfl, rfl⟩ | ⟨rfl, -⟩ | ⟨hsymbol, rfl⟩ := last.step?_cases table hstep
      · rw [Word.path_succ_of_opening hc]
        exact hcurrent
      · -- the walk is back at the open, of which the induction already speaks
        obtain ⟨j, hjq, hj, hback⟩ := exists_currentAt?_of_closing h hc hthrough
        obtain ⟨earlier, hearlier, hback⟩ := Option.map_eq_some_iff.1 hback
        rw [Word.path_succ_of_closing hc hj, ← hback]
        exact ih j (Nat.lt_succ_of_lt hjq) (by omega) hearlier
      · rw [Word.path_succ_of_symbol hc hsymbol, callsAt, List.filterMap_append,
          List.foldl_append, List.filterMap_cons_some (callAt?_eq_some hc hlast), ← callsAt,
          ← hcurrent]
        rfl

/-- The context in which an instruction is called is made of the first one by the symbols on the
path to its position. -/
theorem current_of_mem_calls (h : m.stack = []) {call : Walker ρ S × Visit S}
    (hcall : call ∈ m.calls table 0 w) :
    let made := m.callsAt table w (w.path call.2.position)
    call.1.current = made.foldl (act table) m.current ∧
      made.map (·.2) = (w.path call.2.position).filterMap (w[·]?) := by
  obtain ⟨i, c, hi, -, hthrough, hvisit⟩ := (mem_calls_iff table m 0).1 hcall
  have hposition : call.2.position = i := by
    rw [hvisit]
    exact Nat.zero_add i
  rw [hposition]
  have hlt : i < w.length := (List.getElem?_eq_some_iff.1 hi).1
  exact ⟨current_eq_foldl h (Nat.le_of_lt hlt) hthrough,
    map_snd_callsAt hthrough fun j hj => Nat.le_of_lt (Word.lt_of_mem_path hj)⟩

end Walker

/-- The state of a visit is made of the first one by the symbols that are active at its position. -/
theorem state_eq_foldl_of_mem_trace {initial : Context S} {streams : Streams ρ} {w : Word}
    {visits : List (Visit S)} (h : (trace table initial streams w).result = .ok visits)
    {v : Visit S} (hv : v ∈ visits) :
    v.state = (((Walker.start initial streams).callsAt table w (w.active v.position)).foldl
      (Walker.act table) initial).state := by
  obtain ⟨-, rfl⟩ := calls_of_trace_eq_ok h
  obtain ⟨i, c, m, hi, hc, hthrough, rfl⟩ := (Walker.mem_visits_iff ..).1 hv
  have hafter : (Walker.start initial streams).through? table (w.take (i + 1)) =
      some (m.advance table c) := by
    rw [Walker.through?_take_succ table _ hi, hthrough, Option.bind_some,
      Walker.step?_symbol table m hc]
  have hcurrent := Walker.current_eq_foldl rfl (List.getElem?_eq_some_iff.1 hi).1 hafter
  rw [← Word.active_eq_path hi hc] at hcurrent
  exact congrArg Context.state hcurrent

end GrowthGrammar
