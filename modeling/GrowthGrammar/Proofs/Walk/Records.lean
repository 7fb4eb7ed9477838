import GrowthGrammar.Proofs.Walk.Jumps
import GrowthGrammar.Proofs.Walk.Transport

/-!
# What a walk hands out

A walk records something of every visit, and `walkFrom_record_map` says that what it records does
not influence it: to record the image of something is to take the images afterwards. So the states
of a walk are those of its visits, with the same fault and the same streams (`evaluate_eq_map`). The
visits themselves are complete and in order: `Word.Visited` says which positions, symbols and depths
they have, in terms of the word alone, and `visits_complete` says that this holds of every walk that
succeeds.
-/

namespace GrowthGrammar

variable {ρ S α β : Type}

/-! ## Two ways to record a walk -/

/-- A walk that records the images of something ends as the walk that records it, with the
images. -/
theorem walkFrom_record_map (f : α → β) (record : Walker ρ S → Visit S → α)
    (table : InstructionTable ρ S) (m : Walker ρ S) (position : Nat) (recorded : List α)
    (w : Word) :
    walkFrom (fun m v => f (record m v)) table m position (recorded.map f) w =
      (walkFrom record table m position recorded w).map (List.map f) := by
  induction w using Word.markerInduction generalizing m position recorded with
  | nil =>
    cases hstack : m.stack with
    | nil =>
      rw [walkFrom_nil_of_stack_nil _ _ _ _ _ hstack, walkFrom_nil_of_stack_nil _ _ _ _ _ hstack,
        ← List.map_reverse]
      rfl
    | cons saved stack =>
      rw [walkFrom_nil_of_stack_cons _ _ _ _ _ hstack,
        walkFrom_nil_of_stack_cons _ _ _ _ _ hstack]
      rfl
  | opening w ih =>
    rw [walkFrom_opening, walkFrom_opening]
    exact ih m.save (position + 1) recorded
  | closing w ih =>
    cases hstack : m.stack with
    | nil =>
      rw [walkFrom_closing_of_stack_nil _ _ _ _ _ hstack,
        walkFrom_closing_of_stack_nil _ _ _ _ _ hstack]
      rfl
    | cons saved stack =>
      rw [walkFrom_closing_of_stack_cons _ _ _ _ _ hstack,
        walkFrom_closing_of_stack_cons _ _ _ _ _ hstack]
      exact ih _ (position + 1) recorded
  | symbol c w hc ih =>
    rw [walkFrom_symbol _ _ _ _ _ hc, walkFrom_symbol _ _ _ _ _ hc, ← List.map_cons]
    exact ih _ (position + 1) _

/-- The walk that collects states is the walk that collects visits, of which the states are taken at
the end. -/
theorem evaluate_eq_map (table : InstructionTable ρ S) (initial : Context S) (streams : Streams ρ)
    (w : Word) :
    evaluate table initial streams w =
      (trace table initial streams w).map (List.map (·.state)) :=
  walkFrom_record_map Visit.state (fun _ visit => visit) table _ 0 [] w

/-! ## The visits of a word -/

/-- The visits belong to the word: one to every symbol that is no marker, in the order of the word,
each with its symbol and with the number of branches that the word has opened so far and not
closed. -/
structure Word.Visited (w : Word) (visits : List (Visit S)) : Prop where
  mem_position_iff : ∀ i, i ∈ visits.map (·.position) ↔
    ∃ c, w[i]? = some c ∧ Symbol.isMarker c = false
  ascending : (visits.map (·.position)).Pairwise (· < ·)
  symbol : ∀ v ∈ visits, w[v.position]? = some v.symbol
  depth : ∀ v ∈ visits, Word.balance? (w.take v.position) = some v.depth

namespace Walker

variable {table : InstructionTable ρ S} {m next : Walker ρ S} {w : Word}

/-- A walk that gets through a word calls one instruction for every symbol that is no marker. -/
theorem length_calls (h : m.through? table w = some next) (position : Nat) :
    (m.calls table position w).length = w.countP (!Symbol.isMarker ·) := by
  have hlength := congrArg List.length (map_calls table m position h)
  rw [List.length_map, ← List.countP_eq_length_filter] at hlength
  rw [hlength]
  conv_rhs => rw [← List.zipIdx_map_fst position w, List.countP_map]
  rfl

/-- The calls of a walk that starts outside all branches and gets through a word are visits of the
word. -/
theorem visited_calls (hstack : m.stack = []) (h : m.through? table w = some next) :
    w.Visited ((m.calls table 0 w).map (·.2)) where
  mem_position_iff i := by
    rw [List.mem_map]
    constructor
    · rintro ⟨v, hv, rfl⟩
      obtain ⟨j, c, mj, hj, hc, -, rfl⟩ := (mem_visits_iff table m).1 hv
      exact ⟨c, hj, hc⟩
    · rintro ⟨c, hi, hc⟩
      obtain ⟨mi, hmi⟩ := exists_through?_take table m h i
      exact ⟨mi.visit table i c, (mem_visits_iff table m).2 ⟨i, c, mi, hi, hc, hmi, rfl⟩, rfl⟩
  ascending := by
    rw [List.map_map, List.pairwise_map]
    exact pairwise_calls table m 0 w
  symbol v hv := by
    obtain ⟨i, c, mi, hi, -, -, rfl⟩ := (mem_visits_iff table m).1 hv
    exact hi
  depth v hv := by
    obtain ⟨i, c, mi, -, -, hthrough, rfl⟩ := (mem_visits_iff table m).1 hv
    have hdepth := through?_depth table m (w.take i)
    rw [hthrough, hstack] at hdepth
    exact hdepth.symm

end Walker

/-- A walk of a balanced word collects a state for every symbol that is no marker. -/
theorem exists_evaluate_length (table : InstructionTable ρ S) (initial : Context S)
    (streams : Streams ρ) {w : Word} (h : w.balance? = some 0) :
    ∃ states, (evaluate table initial streams w).result = .ok states ∧
      states.length = w.countP (!Symbol.isMarker ·) := by
  obtain ⟨visits, hvisits⟩ : ∃ visits, (trace table initial streams w).result = .ok visits :=
    walk_eq_ok_iff.2 h
  refine ⟨visits.map (·.state), ?_, ?_⟩
  · rw [evaluate_eq_map]
    exact congrArg (Except.map (List.map (·.state))) hvisits
  · obtain ⟨⟨next, hnext⟩, rfl⟩ := calls_of_trace_eq_ok hvisits
    rw [List.length_map, List.length_map, Walker.length_calls hnext]

/-- The visits of a walk that succeeds are those of the word, one to every symbol that is no marker,
in their order. The walk that collects states succeeds just then, with the states of these visits;
it fails with the same error otherwise, and then neither hands out anything else. Both leave the
same streams, also where they fail. -/
theorem visits_complete (table : InstructionTable ρ S) (initial : Context S) (streams : Streams ρ)
    (w : Word) :
    (∀ visits, (trace table initial streams w).result = .ok visits →
      w.Visited visits ∧ visits.length = w.countP (!Symbol.isMarker ·) ∧
      (evaluate table initial streams w).result = .ok (visits.map (·.state))) ∧
    (∀ states, (evaluate table initial streams w).result = .ok states →
      states.length = w.countP (!Symbol.isMarker ·) ∧
      ∃ visits, (trace table initial streams w).result = .ok visits ∧
        states = visits.map (·.state)) ∧
    (∀ e, (trace table initial streams w).result = .error e ↔
      (evaluate table initial streams w).result = .error e) ∧
    (evaluate table initial streams w).streams = (trace table initial streams w).streams := by
  have hcomplete : ∀ visits, (trace table initial streams w).result = .ok visits →
      w.Visited visits ∧ visits.length = w.countP (!Symbol.isMarker ·) := by
    intro visits hvisits
    obtain ⟨⟨next, hnext⟩, rfl⟩ := calls_of_trace_eq_ok hvisits
    refine ⟨Walker.visited_calls rfl hnext, ?_⟩
    rw [List.length_map, Walker.length_calls hnext]
  have hevaluate : (evaluate table initial streams w).result =
      (trace table initial streams w).result.map (List.map (·.state)) := by
    rw [evaluate_eq_map]
    rfl
  refine ⟨fun visits hvisits => ?_, fun states hstates => ?_, fun e => ?_, ?_⟩
  · obtain ⟨hvisited, hlength⟩ := hcomplete visits hvisits
    refine ⟨hvisited, hlength, ?_⟩
    rw [hevaluate, hvisits]
    rfl
  · cases htrace : (trace table initial streams w).result with
    | ok visits =>
      rw [hevaluate, htrace] at hstates
      cases hstates
      rw [List.length_map]
      exact ⟨(hcomplete visits htrace).2, visits, rfl, rfl⟩
    | error e =>
      rw [hevaluate, htrace] at hstates
      cases hstates
  · exact walk_eq_error_iff.trans walk_eq_error_iff.symm
  · rw [evaluate_eq_map]
    rfl

end GrowthGrammar
