import GrowthGrammar.Proofs.Walk.Verdict

/-!
# What a walk shows of a word alone

Which symbols a walk visits, where and how deep in branches, is decided by the word:
`Word.visitsFrom` lists these visits without walking, with no states. `walk_outline` says that a
walk records just these visits, or the fault of the word, whatever its instructions, contexts and
streams are.
-/

namespace GrowthGrammar

/-- A visit without its state. -/
def Visit.outline {S : Type} (v : Visit S) : Visit Unit := { v with state := () }

namespace Word

/-- The visits of a word that starts at a position with `depth` branches open. -/
def visitsFrom (depth position : Nat) : Word → List (Visit Unit)
  | [] => []
  | c :: w =>
    if c = Symbol.opening then visitsFrom (depth + 1) (position + 1) w
    else if c = Symbol.closing then visitsFrom (depth - 1) (position + 1) w
    else ⟨(), c, depth, position⟩ :: visitsFrom depth (position + 1) w

/-- The visits of a word, or the fault of its branch markers. -/
def outline (w : Word) : Except EvalError (List (Visit Unit)) :=
  match w.fault? with
  | none => .ok (w.visitsFrom 0 0)
  | some e => .error e

/-- The first symbol is visited inside a branch, and the last one behind it. -/
example : outline ['[', 'A', ']', 'B'] = .ok [⟨(), 'A', 1, 1⟩, ⟨(), 'B', 0, 3⟩] := rfl

variable (d p : Nat)

@[simp] theorem visitsFrom_opening (w : Word) :
    visitsFrom d p (Symbol.opening :: w) = visitsFrom (d + 1) (p + 1) w := rfl

@[simp] theorem visitsFrom_closing_succ (w : Word) :
    visitsFrom (d + 1) p (Symbol.closing :: w) = visitsFrom d (p + 1) w := rfl

theorem visitsFrom_symbol {c : Symbol} (hc : Symbol.isMarker c = false) (w : Word) :
    visitsFrom d p (c :: w) = ⟨(), c, d, p⟩ :: visitsFrom d (p + 1) w := by
  simp only [visitsFrom, Symbol.ne_opening hc, Symbol.ne_closing hc, if_false]

end Word

section
variable {ρ S α β : Type} {record : Walker ρ S → Visit S → α} {f : α → β} {g : Visit Unit → β}

/-- If what is looked at of a record does not come from the states, a walk records the visits of the
word. The induction is on the word: of the walker only the depth of its stack matters. -/
theorem walkFrom_outline (hrecord : ∀ m v, f (record m v) = g v.outline)
    (table : InstructionTable ρ S) (m : Walker ρ S) (position : Nat) (recorded : List α)
    (w : Word) :
    (walkFrom record table m position recorded w).result.map (·.map f) =
      match w.faultFrom? m.stack.depth position with
      | none => .ok (recorded.reverse.map f ++ (w.visitsFrom m.stack.depth position).map g)
      | some e => .error e := by
  induction w using Word.markerInduction generalizing m position recorded with
  | nil =>
    cases h : m.stack with
    | nil =>
      rw [walkFrom_nil_of_stack_nil _ _ _ _ _ h]
      simp [Except.map, Word.faultFrom?, Word.visitsFrom, BranchStack.depth]
    | cons saved stack =>
      rw [walkFrom_nil_of_stack_cons _ _ _ _ _ h]
      rfl
  | opening w ih =>
    rw [walkFrom_opening, ih]
    rfl
  | closing w ih =>
    cases h : m.stack with
    | nil =>
      rw [walkFrom_closing_of_stack_nil _ _ _ _ _ h]
      rfl
    | cons saved stack =>
      rw [walkFrom_closing_of_stack_cons _ _ _ _ _ h, ih]
      rfl
  | symbol c w hc ih =>
    rw [walkFrom_symbol _ _ _ _ _ hc, ih, Word.faultFrom?_symbol _ _ hc,
      Word.visitsFrom_symbol _ _ hc, Walker.advance_stack]
    have hvisit : f (record m (m.visit table position c)) = g ⟨(), c, m.stack.depth, position⟩ :=
      hrecord _ _
    simp [hvisit]

/-- A walk records the visits of its word, or fails with the fault of the word. -/
theorem walk_outline (hrecord : ∀ m v, f (record m v) = g v.outline)
    (table : InstructionTable ρ S) (initial : Context S) (streams : Streams ρ) (w : Word) :
    (walk record table initial streams w).result.map (·.map f) = w.outline.map (·.map g) := by
  refine (walkFrom_outline hrecord table _ 0 [] w).trans ?_
  show (match w.fault? with | none => _ | some e => _ : Except EvalError (List β)) = _
  unfold Word.outline
  cases w.fault? <;> rfl

end

section
variable {ρ S : Type} (table : InstructionTable ρ S) (initial : Context S) (streams : Streams ρ)
  (w : Word)

/-- But for their states the visits of a walk are those of the word. -/
theorem trace_outline :
    (trace table initial streams w).result.map (·.map Visit.outline) = w.outline := by
  have h : (trace table initial streams w).result.map (·.map Visit.outline) =
      w.outline.map (·.map id) :=
    walk_outline (f := Visit.outline) (g := id) (by intro m v; rfl) table initial streams w
  rw [h]
  cases w.outline with
  | ok visits => simp [Except.map]
  | error e => rfl

/-- A walk visits as many states as its word has visits. -/
theorem evaluate_outline :
    (evaluate table initial streams w).result.map (·.map fun _ => ()) =
      w.outline.map (·.map fun _ => ()) :=
  walk_outline (f := fun _ : S => ()) (g := fun _ => ()) (by intro m v; rfl) table initial streams w

end

end GrowthGrammar
