import GrowthGrammar.Plant.System
import GrowthGrammar.Proofs.Plant.Table
import GrowthGrammar.Proofs.Walk.Path
import Mathlib.Logic.Function.Iterate

/-!
# What changes the fields of a pose

A pose has three fields, and each one is changed by its own actions: the step length by `B`, the
orientation by `+` and `-`, the place by `F` and `Q`. In a walk only the active symbols count, for
what is inside of a closed branch is taken back when the branch is closed. So the step length at a
visit is the first one, shrunk once for every active `B`; the orientation is the first one, followed
by the turns that the active symbols made; and without an active `F` or `Q` the place is the first
one. `fields_made_by_active` states this for the stock plant and every well-nested word.
-/

namespace GrowthGrammar.Plant

section
variable {ρ α : Type} [Add α] [Sub α] [Mul α] [Div α] [Neg α] [OfNat α 0] [OfNat α 1] [OfNat α 2]
  [BEq α] [Trig α] [RandomSource ρ α]

/-- The turn that a symbol makes behind a walker, with the number that it draws there. -/
def turn? (habit : Habit α) (call : Walker ρ (Pose α) × Symbol) : Option (Quat α) :=
  let draw : α := (Action.unitDraw call.1.current.stream call.1.streams).1
  if call.2 = '+' then some (Quat.aboutZ (habit.maxAngle * draw))
  else if call.2 = '-' then some (Quat.aboutZ (-habit.maxAngle * draw))
  else none

/-- The turns that a walk makes at the positions that are active at `p`. -/
def activeTurns (habit : Habit α) (table : InstructionTable ρ (Pose α))
    (initial : Context (Pose α)) (streams : Streams ρ) (w : Word) (p : ℕ) : List (Quat α) :=
  (w.active p).filterMap fun i =>
    ((Walker.start initial streams).callAt? table w i).bind (turn? habit)

/-- The fields of a visited pose are made by the active symbols, each one by its own. -/
structure MadeByActive (habit : Habit α) (table : InstructionTable ρ (Pose α))
    (initial : Context (Pose α)) (streams : Streams ρ) (w : Word) (v : Visit (Pose α)) : Prop where
  /-- The step is shrunk once for every active `B`. -/
  stepLength : v.state.stepLength =
    (fun x => x * habit.shrink)^[(w.activeSymbols v.position).count 'B'] initial.state.stepLength
  /-- The orientation is turned by the active turns from the left to the right. -/
  rotation : v.state.rotation =
    (activeTurns habit table initial streams w v.position).foldl Quat.compose initial.state.rotation
  /-- Every active `+` and `-` makes a turn. -/
  turns : (activeTurns habit table initial streams w v.position).length =
    (w.activeSymbols v.position).count '+' + (w.activeSymbols v.position).count '-'
  /-- Without an active turn the orientation is the first one. -/
  unturned : '+' ∉ w.activeSymbols v.position → '-' ∉ w.activeSymbols v.position →
    v.state.rotation = initial.state.rotation
  /-- Without an active advance or detail the place is the first one. -/
  unmoved : 'F' ∉ w.activeSymbols v.position → 'Q' ∉ w.activeSymbols v.position →
    v.state.position = initial.state.position

/-! ## A row of instructions -/

variable {habit : Habit α}

omit [Sub α] in
/-- A row of symbols makes a turn for every `+` and every `-` in it. -/
theorem length_turns (calls : List (Walker ρ (Pose α) × Symbol)) :
    (calls.filterMap (turn? habit)).length =
      (calls.map (·.2)).count '+' + (calls.map (·.2)).count '-' := by
  induction calls with
  | nil => rfl
  | cons call calls ih =>
    obtain ⟨m, c⟩ := call
    rw [List.filterMap_cons, List.map_cons, List.count_cons, List.count_cons]
    by_cases hpos : c = '+'
    · subst hpos
      simp [turn?, ih]
      omega
    · by_cases hneg : c = '-'
      · subst hneg
        simp [turn?, ih]
        omega
      · simp [turn?, hpos, hneg, ih]

variable {table : InstructionTable ρ (Pose α)} (ht : table? habit = .ok table)
include ht

/-- A row of instructions shrinks the step once for every `B` in it. -/
theorem stepLength_foldl (context : Context (Pose α))
    (calls : List (Walker ρ (Pose α) × Symbol)) :
    (calls.foldl (Walker.act table) context).state.stepLength =
      (fun x => x * habit.shrink)^[(calls.map (·.2)).count 'B'] context.state.stepLength := by
  induction calls generalizing context with
  | nil => rfl
  | cons call calls ih =>
    obtain ⟨m, c⟩ := call
    rw [List.foldl_cons, ih, List.map_cons]
    by_cases hc : c = 'B'
    · subst hc
      rw [List.count_cons_self, Function.iterate_succ_apply, Walker.act, run_shrink ht]
      rfl
    · rw [List.count_cons_of_ne hc, Walker.act, stepLength_run ht _ _ _ hc]

/-- An instruction turns the pose by its turn, if it makes one. -/
theorem rotation_act {context : Context (Pose α)} {call : Walker ρ (Pose α) × Symbol}
    (hstream : call.1.current.stream = context.stream) :
    (Walker.act table context call).state.rotation =
      (turn? habit call).elim context.state.rotation context.state.rotation.compose := by
  obtain ⟨m, c⟩ := call
  by_cases hpos : c = '+'
  · subst hpos
    have hrun := instruction_lookup ht .turnPositive
    rw [Action.symbol] at hrun
    rw [Walker.act, hrun, turn?, hstream]
    rfl
  · by_cases hneg : c = '-'
    · subst hneg
      have hrun := instruction_lookup ht .turnNegative
      rw [Action.symbol] at hrun
      rw [Walker.act, hrun, turn?, hstream]
      rfl
    · rw [Walker.act, rotation_run ht _ _ _ hpos hneg, turn?]
      simp [hpos, hneg]

/-- A row of instructions turns the pose by their turns, one after the other. -/
theorem rotation_foldl {context : Context (Pose α)} {calls : List (Walker ρ (Pose α) × Symbol)}
    (hstream : ∀ call ∈ calls, call.1.current.stream = context.stream) :
    (calls.foldl (Walker.act table) context).state.rotation =
      (calls.filterMap (turn? habit)).foldl Quat.compose context.state.rotation := by
  induction calls generalizing context with
  | nil => rfl
  | cons call calls ih =>
    obtain ⟨hcall, hcalls⟩ := List.forall_mem_cons.1 hstream
    have hkeeps : (Walker.act table context call).stream = context.stream :=
      (keepsHandles_table ht).lookup call.2 _ _ _
    rw [List.foldl_cons, ih (hkeeps ▸ hcalls), rotation_act ht hcall, List.filterMap_cons]
    cases turn? habit call <;> rfl

/-- A row of instructions without `F` and `Q` does not move the pose. -/
theorem position_foldl {context : Context (Pose α)} {calls : List (Walker ρ (Pose α) × Symbol)}
    (hforward : 'F' ∉ calls.map (·.2)) (hdetail : 'Q' ∉ calls.map (·.2)) :
    (calls.foldl (Walker.act table) context).state.position = context.state.position := by
  induction calls generalizing context with
  | nil => rfl
  | cons call calls ih =>
    rw [List.map_cons, List.mem_cons, not_or] at hforward hdetail
    rw [List.foldl_cons, ih hforward.2 hdetail.2]
    exact position_run ht _ _ _ (Ne.symm hforward.1) (Ne.symm hdetail.1)

/-! ## Visits -/

/-- At every visit of a walk that succeeds the fields of the pose are made by the active symbols. -/
theorem madeByActive_of_mem {initial : Context (Pose α)} {streams : Streams ρ} {w : Word}
    {visits : List (Visit (Pose α))} (h : (trace table initial streams w).result = .ok visits)
    {v : Visit (Pose α)} (hv : v ∈ visits) : MadeByActive habit table initial streams w v := by
  obtain ⟨⟨next, hnext⟩, -⟩ := calls_of_trace_eq_ok h
  let calls := (Walker.start initial streams).callsAt table w (w.active v.position)
  obtain ⟨last, hlast⟩ := Walker.exists_through?_take table _ hnext v.position
  have hsymbols : calls.map (·.2) = w.activeSymbols v.position :=
    Walker.map_snd_callsAt hlast fun i hi => Word.le_of_mem_active hi
  have hturns : calls.filterMap (turn? habit) =
      activeTurns habit table initial streams w v.position := List.filterMap_filterMap
  have hstream : ∀ call ∈ calls, call.1.current.stream = initial.stream := by
    intro call hcall
    obtain ⟨i, hi⟩ := Walker.exists_through?_of_mem_callsAt hcall
    exact ((Walker.holdsStream_start initial streams).through? (keepsHandles_table ht) hi).current
  have hstate : v.state = (calls.foldl (Walker.act table) initial).state :=
    state_eq_foldl_of_mem_trace h hv
  have hrotation : v.state.rotation =
      (activeTurns habit table initial streams w v.position).foldl Quat.compose
        initial.state.rotation := by
    rw [hstate, rotation_foldl ht hstream, hturns]
  have hlength : (activeTurns habit table initial streams w v.position).length =
      (w.activeSymbols v.position).count '+' + (w.activeSymbols v.position).count '-' := by
    rw [← hturns, ← hsymbols]
    exact length_turns calls
  refine ⟨?_, hrotation, hlength, fun hpos hneg => ?_, fun hforward hdetail => ?_⟩
  · rw [hstate, stepLength_foldl ht, hsymbols]
  · have hnil : activeTurns habit table initial streams w v.position = [] := by
      refine List.eq_nil_of_length_eq_zero (hlength.trans ?_)
      rw [List.count_eq_zero_of_not_mem hpos, List.count_eq_zero_of_not_mem hneg]
    rw [hrotation, hnil]
    rfl
  · rw [hstate, position_foldl ht (hsymbols ▸ hforward) (hsymbols ▸ hdetail)]

end

/-- In every walk of a well-nested word with the instructions of the stock plant, from every pose
and on all streams, the fields of every visited pose are made by the active symbols, each one by its
own: the step length by `B`, the orientation by `+` and `-`, and the place by `F` and `Q`. -/
theorem fields_made_by_active {w : Word} (nested : WellNested w) (initial : Context (Pose Float))
    (streams : Streams Generator) :
    ∃ table visits, stockTable? = .ok table ∧ (trace table initial streams w).result = .ok visits ∧
      ∀ v ∈ visits, MadeByActive .stock table initial streams w v := by
  obtain ⟨table, htable, -⟩ := exists_table (ρ := Generator) Habit.stock
  obtain ⟨visits, hvisits⟩ : ∃ visits, (trace table initial streams w).result = .ok visits :=
    walk_eq_ok_iff.2 (wellNested_iff_balance?.1 nested)
  exact ⟨table, visits, htable, hvisits, fun v hv => madeByActive_of_mem htable hvisits hv⟩

/-- A plant with a branch that turns and shrinks, and that shrinks again behind this branch. At the
last symbol only the later shrinking counts, and no turn. -/
theorem fields_made_by_active_of_branch :
    WellNested ['F', '[', '+', 'B', 'Q', ']', 'B', 'F'] ∧
    ∃ table visits, stockTable? = .ok table ∧
      (trace table ⟨.atOrigin 1, 0⟩ (.single (.ofSeed 7))
        ['F', '[', '+', 'B', 'Q', ']', 'B', 'F']).result = .ok visits ∧
      ∀ v ∈ visits, MadeByActive .stock table ⟨.atOrigin 1, 0⟩ (.single (.ofSeed 7))
          ['F', '[', '+', 'B', 'Q', ']', 'B', 'F'] v ∧
        (v.position = 7 → v.state.stepLength = 1 * 0.65 ∧ v.state.rotation = Quat.identity) := by
  have nested : WellNested ['F', '[', '+', 'B', 'Q', ']', 'B', 'F'] := by decide
  have hactive : Word.activeSymbols ['F', '[', '+', 'B', 'Q', ']', 'B', 'F'] 7 =
      ['F', 'B', 'F'] := by decide
  obtain ⟨table, visits, htable, hvisits, hmade⟩ := fields_made_by_active nested
    ⟨.atOrigin 1, 0⟩ (.single (.ofSeed 7))
  refine ⟨nested, table, visits, htable, hvisits, fun v hv => ⟨hmade v hv, fun hposition => ?_⟩⟩
  have hlast := hmade v hv
  constructor
  · rw [hlast.stepLength, hposition, hactive]
    rfl
  · refine hlast.unturned ?_ ?_
    · rw [hposition, hactive]
      decide
    · rw [hposition, hactive]
      decide

end GrowthGrammar.Plant
