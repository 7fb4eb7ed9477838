import GrowthGrammar.Proofs.Walk.Calls

/-!
# Invariants of a walk

A property of contexts that every instruction preserves (`InstructionTable.Preserves`) is kept by a
whole walk: if it holds for the current context and for all saved ones, it does so behind every
symbol (`Walker.Holds.step?`) and behind every word (`Walker.Holds.through?`), and so at every visit
(`forall_mem_trace`).
-/

namespace GrowthGrammar

variable {ρ S : Type}

/-- No instruction leads out of the contexts that satisfy `I`. -/
def InstructionTable.Preserves (I : Context S → Prop) (t : InstructionTable ρ S) : Prop :=
  ∀ c context stack streams, I context → I ((t.lookup c).instruction.run context stack streams).1

namespace Walker

/-- The current context and all saved ones satisfy `I`. -/
def Holds (I : Context S → Prop) (m : Walker ρ S) : Prop :=
  ∀ context ∈ m.current :: m.stack, I context

variable {I : Context S → Prop} {table : InstructionTable ρ S} {m next : Walker ρ S}

theorem Holds.current (h : m.Holds I) : I m.current := h _ List.mem_cons_self

theorem holds_start {initial : Context S} (h : I initial) (streams : Streams ρ) :
    (start initial streams).Holds I := by
  intro context hcontext
  obtain rfl := List.mem_singleton.1 hcontext
  exact h

/-- No symbol leads out of an invariant: a save doubles the current context, a restore goes back to
a saved one, and an instruction preserves it. -/
theorem Holds.step? (preserves : table.Preserves I) (h : m.Holds I) {c : Symbol}
    (hc : m.step? table c = some next) : next.Holds I := by
  obtain ⟨hcurrent, hsaved⟩ := List.forall_mem_cons.1 h
  obtain ⟨rfl, rfl⟩ | ⟨rfl, saved, stack, hstack, rfl⟩ | ⟨-, rfl⟩ := m.step?_cases table hc
  · exact List.forall_mem_cons.2 ⟨hcurrent, h⟩
  · rwa [hstack] at hsaved
  · exact List.forall_mem_cons.2 ⟨preserves c _ _ _ hcurrent, hsaved⟩

/-- Neither does a word. -/
theorem Holds.through? (preserves : table.Preserves I) (h : m.Holds I) {w : Word}
    (hw : m.through? table w = some next) : next.Holds I := by
  induction w generalizing m with
  | nil =>
    cases hw
    exact h
  | cons c w ih =>
    obtain ⟨after, hafter, hnext⟩ := Option.bind_eq_some_iff.1 hw
    exact ih (h.step? preserves hafter) hnext

end Walker

/-- A property of states that the instructions preserve holds for all visited states, if it holds
for the first one. -/
theorem forall_mem_trace {J : S → Prop} {table : InstructionTable ρ S}
    (preserves : table.Preserves fun context => J context.state) {initial : Context S}
    (h : J initial.state) {streams : Streams ρ} {w : Word} {visits : List (Visit S)}
    (hvisits : (trace table initial streams w).result = .ok visits) : ∀ v ∈ visits, J v.state := by
  intro v hv
  obtain ⟨-, rfl⟩ := calls_of_trace_eq_ok hvisits
  obtain ⟨i, c, m, -, hc, hthrough, rfl⟩ := (Walker.mem_visits_iff ..).1 hv
  have hm := (Walker.holds_start h streams).through? preserves hthrough
  exact (hm.step? preserves (Walker.step?_symbol table m hc)).current

end GrowthGrammar
