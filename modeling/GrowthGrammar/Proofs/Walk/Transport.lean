import GrowthGrammar.Proofs.Walk.Invariant

/-!
# Walks under a map of states

A map of states carries one table to another one if it does not matter whether an instruction runs
before the map or behind it, and the draws are the same (`InstructionTable.Carries`). It is enough
if this holds for the contexts of an invariant that the instructions preserve. Then a walk with the
second table from the image of a context visits the images of the states, or fails in the same way,
and leaves the same streams (`trace_map`).
-/

namespace GrowthGrammar

variable {ρ S T α β : Type}

/-! ## Images -/

/-- The context with the image of the state and the same handle. -/
def Context.map (f : S → T) (c : Context S) : Context T := ⟨f c.state, c.stream⟩

/-- The visit of the same symbol at the same depth and position, with the image of the state. -/
def Visit.map (f : S → T) (v : Visit S) : Visit T := ⟨f v.state, v.symbol, v.depth, v.position⟩

/-- The image of the result, with the same streams. -/
def Outcome.map (f : α → β) (o : Outcome ρ α) : Outcome ρ β := ⟨o.result.map f, o.streams⟩

namespace Walker

/-- The walker with the images of all contexts and the same streams. -/
def map (f : S → T) (m : Walker ρ S) : Walker ρ T :=
  ⟨m.current.map f, m.stack.map (Context.map f), m.streams⟩

@[simp] theorem map_current (f : S → T) (m : Walker ρ S) :
    (m.map f).current = m.current.map f := rfl

@[simp] theorem map_stack (f : S → T) (m : Walker ρ S) :
    (m.map f).stack = m.stack.map (Context.map f) := rfl

@[simp] theorem map_streams (f : S → T) (m : Walker ρ S) : (m.map f).streams = m.streams := rfl

@[simp] theorem map_save (f : S → T) (m : Walker ρ S) : (m.map f).save = m.save.map f := rfl

end Walker

/-! ## Instructions -/

namespace InstructionTable

/-- From the contexts that satisfy `I`, the instructions of `t'` do to the images what those of `t`
do to the contexts, and draw the same. -/
def Carries (I : Context S → Prop) (f : S → T) (t : InstructionTable ρ S)
    (t' : InstructionTable ρ T) : Prop :=
  ∀ c context stack streams, I context →
    (t'.lookup c).instruction.run (context.map f) (stack.map (Context.map f)) streams =
      Prod.map (Context.map f) id ((t.lookup c).instruction.run context stack streams)

end InstructionTable

namespace Walker

variable {I : Context S → Prop} {f : S → T} {t : InstructionTable ρ S} {t' : InstructionTable ρ T}
  {m : Walker ρ S}

/-- An instruction that is run on the image of a walker leaves the image of what it leaves. -/
theorem advance_map (carries : t.Carries I f t') (h : I m.current) (c : Symbol) :
    (m.map f).advance t' c = (m.advance t c).map f := by
  have hrun := carries c m.current m.stack m.streams h
  simp only [advance, map_current, map_stack, map_streams, hrun]
  rfl

theorem visit_map (carries : t.Carries I f t') (h : I m.current) (position : Nat)
    (c : Symbol) : (m.map f).visit t' position c = (m.visit t position c).map f := by
  rw [visit, advance_map carries h, map_stack, BranchStack.depth, List.length_map]
  rfl

end Walker

/-! ## Walks -/

section
variable {I : Context S → Prop} {f : S → T} {t : InstructionTable ρ S} {t' : InstructionTable ρ T}

/-- From the image of a walker, a walk records the images of the visits. -/
theorem walkFrom_map (preserves : t.Preserves I) (carries : t.Carries I f t') {m : Walker ρ S}
    (hm : m.Holds I) (position : Nat) (recorded : List (Visit S)) (w : Word) :
    walkFrom (fun _ visit => visit) t' (m.map f) position (recorded.map (Visit.map f)) w =
      (walkFrom (fun _ visit => visit) t m position recorded w).map (List.map (Visit.map f)) := by
  induction w using Word.markerInduction generalizing m position recorded with
  | nil =>
    cases hstack : m.stack with
    | nil =>
      rw [walkFrom_nil_of_stack_nil _ _ _ _ _ hstack,
        walkFrom_nil_of_stack_nil _ _ _ _ _ (by rw [Walker.map_stack, hstack]; rfl),
        ← List.map_reverse]
      rfl
    | cons saved stack =>
      rw [walkFrom_nil_of_stack_cons _ _ _ _ _ hstack,
        walkFrom_nil_of_stack_cons _ _ _ _ _ (by rw [Walker.map_stack, hstack]; rfl),
        BranchStack.depth, List.length_map]
      rfl
  | opening w ih =>
    rw [walkFrom_opening, walkFrom_opening, Walker.map_save]
    exact ih (hm.step? preserves (Walker.step?_opening t m)) (position + 1) recorded
  | closing w ih =>
    cases hstack : m.stack with
    | nil =>
      rw [walkFrom_closing_of_stack_nil _ _ _ _ _ hstack,
        walkFrom_closing_of_stack_nil _ _ _ _ _ (by rw [Walker.map_stack, hstack]; rfl)]
      rfl
    | cons saved stack =>
      rw [walkFrom_closing_of_stack_cons _ _ _ _ _ hstack,
        walkFrom_closing_of_stack_cons _ _ _ _ _ (by rw [Walker.map_stack, hstack]; rfl)]
      have hrestore := (Walker.step?_closing t m).trans (m.restore?_of_stack_cons hstack)
      exact ih (hm.step? preserves hrestore) (position + 1) recorded
  | symbol c w hc ih =>
    rw [walkFrom_symbol _ _ _ _ _ hc, walkFrom_symbol _ _ _ _ _ hc,
      Walker.advance_map carries hm.current, Walker.visit_map carries hm.current, ← List.map_cons]
    exact ih (hm.step? preserves (Walker.step?_symbol t m hc)) (position + 1) _

/-- A walk from the image of a context visits the images of the states, or fails in the same way,
and leaves the same streams. -/
theorem trace_map (preserves : t.Preserves I) (carries : t.Carries I f t') {initial : Context S}
    (h : I initial) (streams : Streams ρ) (w : Word) :
    trace t' (initial.map f) streams w = (trace t initial streams w).map (List.map (Visit.map f)) :=
  walkFrom_map preserves carries (Walker.holds_start h streams) 0 [] w

end

end GrowthGrammar
