import GrowthGrammar.Plant.Basic
import GrowthGrammar.Proofs.Walk.Registry
import GrowthGrammar.Proofs.Walk.Scoping

/-!
# The instructions of a plant

The table of a plant's instructions exists for all proportions and all kinds of numbers, and holds
for each symbol its action or nothing that has an effect (`Plant.lookup_cases`). No instruction of
it looks at the stack or passes on another handle. The step length is changed by `B` alone, the
orientation by `+` and `-`, and the place by `F` and `Q` (`Plant.stepLength_run`,
`Plant.rotation_run`, `Plant.position_run`).
-/

namespace GrowthGrammar.Plant

section
variable {ρ α : Type} [Add α] [Sub α] [Mul α] [Div α] [Neg α] [OfNat α 0] [OfNat α 1] [OfNat α 2]
  [BEq α] [Trig α] [RandomSource ρ α] {habit : Habit α}

/-! ## Actions -/

namespace Action

theorem mem_all (a : Action) : a ∈ all := by cases a <;> decide

/-- No two actions claim one symbol. -/
theorem symbol_injective : Function.Injective symbol := by
  intro a b
  cases a <;> cases b <;> decide

/-- No action claims a branch marker. -/
theorem isMarker_symbol (a : Action) : Symbol.isMarker a.symbol = false := by cases a <;> rfl

theorem keepsHandle_instruction (a : Action) :
    (a.instruction habit : Instruction ρ (Pose α)).KeepsHandle := fun _ _ _ => rfl

/-- A detail is drawn by the step length alone, and then moved to in the frame of the pose. -/
theorem perform_detail (stream : StreamId) (p : Pose α) (streams : Streams ρ) :
    detail.perform habit stream p streams =
      Prod.map p.move id (detailOffset habit stream p.stepLength streams) := rfl

/-- Only shrinking changes the step length. -/
theorem stepLength_perform {a : Action} (ha : a ≠ shrink) (stream : StreamId) (p : Pose α)
    (streams : Streams ρ) : (a.perform habit stream p streams).1.stepLength = p.stepLength := by
  cases a with
  | shrink => exact absurd rfl ha
  | forward | detail | turnPositive | turnNegative => rfl

/-- Only a turn changes the orientation. -/
theorem rotation_perform {a : Action} (hpos : a ≠ turnPositive) (hneg : a ≠ turnNegative)
    (stream : StreamId) (p : Pose α) (streams : Streams ρ) :
    (a.perform habit stream p streams).1.rotation = p.rotation := by
  cases a with
  | turnPositive => exact absurd rfl hpos
  | turnNegative => exact absurd rfl hneg
  | forward | shrink | detail => rfl

/-- Only an advance and a detail change the place. -/
theorem position_perform {a : Action} (hforward : a ≠ forward) (hdetail : a ≠ detail)
    (stream : StreamId) (p : Pose α) (streams : Streams ρ) :
    (a.perform habit stream p streams).1.position = p.position := by
  cases a with
  | forward => exact absurd rfl hforward
  | detail => exact absurd rfl hdetail
  | shrink | turnPositive | turnNegative => rfl

end Action

/-! ## The table -/

/-- The instructions of a plant are those of its actions and two that are inert. -/
theorem mem_instructions_iff {i : Instruction ρ (Pose α)} :
    i ∈ instructions habit ↔
      (∃ a : Action, a.instruction habit = i) ∨ i = .inert 'X' ∨ i = .inert 'Y' := by
  simp [instructions, Action.mem_all]

/-- The table of a plant exists, and holds the first instruction with a symbol. -/
theorem exists_table (habit : Habit α) :
    ∃ t : InstructionTable ρ (Pose α), table? habit = .ok t ∧
      ∀ c, t.instructions[c]? = (instructions habit).find? (·.symbol == c) := by
  have hsymbols : (instructions (ρ := ρ) habit).map (·.symbol) =
      ['F', 'B', 'Q', '+', '-', 'X', 'Y'] := rfl
  have hmarker : ∀ i ∈ instructions (ρ := ρ) habit, Symbol.isMarker i.symbol = false := by
    intro i hi
    obtain ⟨a, rfl⟩ | rfl | rfl := mem_instructions_iff.1 hi
    · exact a.isMarker_symbol
    · rfl
    · rfl
  obtain ⟨t, ht, hget⟩ := InstructionTable.exists_foldlM_register (t := .empty) hmarker
    (by rw [hsymbols]; decide) fun _ _ => Std.HashMap.getElem?_empty
  refine ⟨t, ht, fun c => (hget c).trans ?_⟩
  rw [InstructionTable.empty, Std.HashMap.getElem?_empty, Option.or_none]

variable {t : InstructionTable ρ (Pose α)} (ht : table? habit = .ok t)
include ht

theorem getElem?_table (c : Symbol) :
    t.instructions[c]? = (instructions habit).find? (·.symbol == c) := by
  obtain ⟨t', ht', hget⟩ := exists_table (ρ := ρ) habit
  obtain rfl : t' = t := Except.ok.inj (ht'.symm.trans ht)
  exact hget c

/-- The instructions of a plant keep the handle that they are given. -/
theorem keepsHandles_table : t.KeepsHandles := by
  intro c i hi
  rw [getElem?_table ht] at hi
  obtain ⟨a, rfl⟩ | rfl | rfl := mem_instructions_iff.1 (List.mem_of_find?_eq_some hi)
  · exact a.keepsHandle_instruction
  · exact Instruction.keepsHandle_inert 'X'
  · exact Instruction.keepsHandle_inert 'Y'

/-- The table of a plant holds for a symbol its action, or nothing that has an effect. -/
theorem lookup_cases (c : Symbol) :
    (∃ a : Action, a.symbol = c ∧ (t.lookup c).instruction = a.instruction habit) ∨
      (∀ a : Action, a.symbol ≠ c) ∧ (t.lookup c).instruction = .inert c := by
  rw [InstructionTable.lookup, getElem?_table ht]
  by_cases hclaimed : ∃ a : Action, a.symbol = c
  · obtain ⟨a, rfl⟩ := hclaimed
    refine .inl ⟨a, rfl, ?_⟩
    cases a <;> rfl
  · push Not at hclaimed
    refine .inr ⟨hclaimed, ?_⟩
    cases hfind : (instructions (ρ := ρ) habit).find? (·.symbol == c) with
    | none => rfl
    | some i =>
      have hsymbol : i.symbol = c := by simpa using List.find?_some hfind
      obtain ⟨a, rfl⟩ | rfl | rfl := mem_instructions_iff.1 (List.mem_of_find?_eq_some hfind)
      · exact absurd hsymbol (hclaimed a)
      · exact congrArg Instruction.inert hsymbol
      · exact congrArg Instruction.inert hsymbol

/-- The table of a plant holds the action of a symbol that an action claims. -/
theorem instruction_lookup (a : Action) :
    (t.lookup a.symbol).instruction = a.instruction habit := by
  obtain ⟨b, hb, hrun⟩ | ⟨hinert, -⟩ := lookup_cases ht a.symbol
  · rw [hrun, Action.symbol_injective hb]
  · exact absurd rfl (hinert a)

variable {c : Symbol} (context : Context (Pose α)) (stack : BranchStack (Pose α))
  (streams : Streams ρ)

/-- What no action of a symbol changes in a pose, the instruction of the symbol does not change. -/
theorem field_run {β : Type} (field : Pose α → β)
    (h : ∀ a : Action, a.symbol = c → ∀ stream p (streams : Streams ρ),
      field (a.perform habit stream p streams).1 = field p) :
    field ((t.lookup c).instruction.run context stack streams).1.state = field context.state := by
  obtain ⟨a, ha, hrun⟩ | ⟨-, hrun⟩ := lookup_cases ht c
  · rw [hrun]
    exact h a ha _ _ _
  · rw [hrun]
    rfl

/-- Only `B` changes the step length. -/
theorem stepLength_run (hc : c ≠ 'B') :
    ((t.lookup c).instruction.run context stack streams).1.state.stepLength =
      context.state.stepLength := by
  refine field_run ht context stack streams Pose.stepLength fun a ha => ?_
  refine Action.stepLength_perform ?_
  rintro rfl
  exact hc ha.symm

/-- Only `+` and `-` change the orientation. -/
theorem rotation_run (hpos : c ≠ '+') (hneg : c ≠ '-') :
    ((t.lookup c).instruction.run context stack streams).1.state.rotation =
      context.state.rotation := by
  refine field_run ht context stack streams Pose.rotation fun a ha => ?_
  refine Action.rotation_perform ?_ ?_
  · rintro rfl
    exact hpos ha.symm
  · rintro rfl
    exact hneg ha.symm

/-- Only `F` and `Q` change the place. -/
theorem position_run (hforward : c ≠ 'F') (hdetail : c ≠ 'Q') :
    ((t.lookup c).instruction.run context stack streams).1.state.position =
      context.state.position := by
  refine field_run ht context stack streams Pose.position fun a ha => ?_
  refine Action.position_perform ?_ ?_
  · rintro rfl
    exact hforward ha.symm
  · rintro rfl
    exact hdetail ha.symm

/-- `B` shrinks the step and does nothing else. -/
theorem run_shrink :
    (t.lookup 'B').instruction.run context stack streams =
      (context.withState
        (context.state.withStepLength (context.state.stepLength * habit.shrink)), streams) := by
  have hrun := instruction_lookup ht .shrink
  rw [Action.symbol] at hrun
  rw [hrun]
  rfl

end

end GrowthGrammar.Plant
