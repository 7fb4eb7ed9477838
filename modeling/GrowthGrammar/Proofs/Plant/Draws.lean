import GrowthGrammar.Proofs.Plant.Fields
import GrowthGrammar.Proofs.Walk.Draws

/-!
# The words that a plant takes

Every turn of a plant draws once. A detail draws three times for its jitter, and once more for its
length if the interval of lengths can be sampled; that depends on the step length at which it is
made (`Plant.draws`). All other symbols draw nothing. So a walk takes from its stream the sum of
these numbers over the symbols that it gets to (`walk_takes_draws`), in branches as well as outside
of them, and the step length of each detail is the first one, shrunk once for every `B` on the path
to it.
-/

namespace GrowthGrammar.Plant

open Generator (Samplable)

/-- The number of words that the instruction of a symbol takes at a step length. -/
def draws (step : Float) (c : Symbol) : ℕ :=
  if c = '+' ∨ c = '-' then 1
  else if c = 'Q' then if Samplable (step / 15) (step / 3) then 4 else 3
  else 0

/-- Without a step there is no interval to draw the length of a detail from. -/
example : draws 1 'Q' = 4 ∧ draws 0 'Q' = 3 := by decide +kernel

namespace Action

variable (stream : StreamId) (streams : Streams Generator)

/-- A unit draw takes one word. -/
theorem unitDraw_snd :
    (unitDraw stream streams : Float × Streams Generator).2 = streams.skip stream 1 := by
  rw [unitDraw, Streams.real_snd, Generator.wordsFor_unit]

/-- A detail takes three words for its jitter and those that its length takes. -/
theorem detailOffset_snd (habit : Habit Float) (step : Float) :
    (detailOffset habit stream step streams).2 = streams.skip stream
      (3 + Generator.wordsFor (step / habit.leastDivisor) (step / habit.greatestDivisor)) := by
  have hbind : ∀ {β γ : Type} (x : StateM (Streams Generator) β)
      (f : β → StateM (Streams Generator) γ) (s : Streams Generator),
      (x >>= f) s = f (x s).1 (x s).2 := fun _ _ _ => rfl
  have hpure : ∀ {β : Type} (b : β) (s : Streams Generator),
      ((pure b : StateM (Streams Generator) β) s).2 = s := fun _ _ => rfl
  rw [detailOffset, hbind, hbind, hbind, hbind, hpure, Streams.real_snd, unitDraw_snd, unitDraw_snd,
    unitDraw_snd, Streams.skip_skip, Streams.skip_skip, Streams.skip_skip, ← Nat.add_assoc,
    ← Nat.add_assoc]

/-- An action takes the words of its symbol. -/
theorem perform_snd (a : Action) (p : Pose Float) :
    (a.perform Habit.stock stream p streams).2 =
      streams.skip stream (draws p.stepLength a.symbol) := by
  cases a with
  | forward | shrink => exact (Streams.skip_zero ..).symm
  | detail =>
    have hdetail : draws p.stepLength 'Q' =
        3 + Generator.wordsFor (p.stepLength / 15) (p.stepLength / 3) := by
      unfold Generator.wordsFor draws
      by_cases h : Samplable (p.stepLength / 15) (p.stepLength / 3) <;> simp [h]
    rw [perform_detail, symbol, hdetail]
    exact detailOffset_snd stream streams .stock p.stepLength
  | turnPositive | turnNegative => exact unitDraw_snd stream streams

end Action

/-- The instructions of the stock plant take the words of their symbols. -/
theorem takes_draws {table : InstructionTable Generator (Pose Float)}
    (ht : table? Habit.stock = .ok table) : table.Takes fun p c => draws p.stepLength c := by
  intro c context stack streams
  obtain ⟨a, rfl, hrun⟩ | ⟨hinert, hrun⟩ := lookup_cases ht c
  · rw [hrun]
    exact a.perform_snd context.stream streams context.state
  · have hnone : draws context.state.stepLength c = 0 := by
      have hpos : c ≠ '+' := (hinert .turnPositive).symm
      have hneg : c ≠ '-' := (hinert .turnNegative).symm
      have hdetail : c ≠ 'Q' := (hinert .detail).symm
      simp [draws, hpos, hneg, hdetail]
    dsimp only
    rw [hrun, hnone, Streams.skip_zero]
    rfl

/-- A walk with the instructions of the stock plant, of any word, from every pose and on every
stream, takes from the stream the words of the instructions that it calls, whatever it records and
also if it fails: one for every turn, three or four for every detail, and none for other symbols.
It calls the instructions of the symbols that it gets to, each with a step length that is the first
one, shrunk once for every `B` on the path to the symbol. -/
theorem walk_takes_draws (initial : Pose Float) (g : Generator) (w : Word) :
    ∃ table, stockTable? = .ok table ∧
      let calls := (Walker.start ⟨initial, 0⟩ (.single g)).calls table 0 w
      (∀ {α : Type} (record : Walker Generator (Pose Float) → Visit (Pose Float) → α),
        (walk record table ⟨initial, 0⟩ (.single g) w).streams = .single { g with
          drawn := g.drawn +
            (calls.map fun (m, v) => draws m.current.state.stepLength v.symbol).sum }) ∧
      calls.map (fun (_, v) => (v.symbol, v.position)) =
        w.processed.zipIdx.filter (fun (c, _) => !Symbol.isMarker c) ∧
      ∀ m v, (m, v) ∈ calls → m.current.state.stepLength =
        (fun x => x * Habit.stock.shrink)^[((w.path v.position).filterMap (w[·]?)).count 'B']
          initial.stepLength := by
  obtain ⟨table, htable, -⟩ := exists_table (ρ := Generator) Habit.stock
  refine ⟨table, htable, ?_⟩
  intro calls
  refine ⟨fun record => ?_, ?_, fun m v hcall => ?_⟩
  · exact (walkFrom_streams (takes_draws htable) (keepsHandles_table htable)
      (Walker.holdsStream_start ⟨initial, 0⟩ (.single g)) record 0 [] w).trans
        (Streams.skip_single g _)
  · exact map_calls_start table ⟨initial, 0⟩ (.single g) w
  · obtain ⟨hcurrent, hsymbols⟩ := Walker.current_of_mem_calls rfl hcall
    rw [hcurrent, stepLength_foldl htable, hsymbols]
    rfl

end GrowthGrammar.Plant
