import GrowthGrammar.Proofs.System.Variants
import GrowthGrammar.Proofs.Walk.Outline

/-!
# Settings of the walk do not touch the structure

What a call on a system answers has a structure, which is all of it but the states: words, the
number of states, the places of visits and errors (`System.Reply.outline`). Instructions, the
initial state and the seed of the walk have no influence on it. `System.same_structure` states this
for two systems and the same history of calls: what joins them all the way is that they will expand
to the same words (`System.SameWords`).
-/

namespace GrowthGrammar

/-- What is generated but for the states, of which only the number is left. -/
def Generation.outline {S : Type} (g : Generation S) : Generation Unit :=
  ⟨g.word, g.states.map fun _ => ()⟩

/-- What is generated from a word but for the states. -/
def Word.generation (w : Word) : Except EvalError (Generation Unit) :=
  w.outline.map fun visits => ⟨w, visits.map fun _ => ()⟩

/-- The structure of a list that begins with a known element. -/
theorem Except.map_map_cons {ε α β : Type} (f : α → β) (a : α) (x : Except ε (List α)) :
    (x.map (a :: ·)).map (·.map f) = (x.map (·.map f)).map (f a :: ·) := by
  cases x <;> rfl

namespace System

/-- What a system answers to a call. -/
inductive Reply (S : Type) where
  | word (w : Word)
  | states (result : Except EvalError (List S))
  | visits (result : Except EvalError (List (Visit S)))
  | generation (result : Except SystemError (Generation S))
  | variants (result : Except SystemError (List (Generation S)))

/-- The structure of an answer: all of it but the states. -/
def Reply.outline {S : Type} : Reply S → Reply Unit
  | .word w => .word w
  | .states result => .states (result.map (·.map fun _ => ()))
  | .visits result => .visits (result.map (·.map Visit.outline))
  | .generation result => .generation (result.map Generation.outline)
  | .variants result => .variants (result.map (·.map Generation.outline))

section
variable {S T : Type}

/-- The answer to a call. -/
def reply (s : System S) : Call → Reply S
  | .expand fresh => .word (s.expand fresh).1
  | .evaluate w => .states (s.evaluate w)
  | .trace w => .visits (s.trace w)
  | .generate fresh => .generation (s.generate fresh).1
  | .generateVariants fresh count => .variants (s.generateVariants fresh count).1

/-- The answers to a series of calls. -/
def replies (s : System S) : List Call → List (Reply S)
  | [] => []
  | c :: calls => s.reply c :: (s.after c).replies calls

/-- Two systems will expand to the same words, if they get the same generators. -/
def SameWords (s : System S) (t : System T) : Prop :=
  ∀ fresh i, s.wordAhead fresh i = t.wordAhead fresh i

/-! ## One call on two systems -/

variable {s : System S} {t : System T}

/-- Systems of one grammar with one expansion seed will expand to the same words if they have made
the same number of expansions, or if the seed is fixed. -/
theorem sameWords_of_grammar_eq (hgrammar : s.engine.grammar = t.engine.grammar)
    (hseed : s.engine.seed = t.engine.seed)
    (hcalls : s.engine.calls = t.engine.calls ∨ ∃ v, s.engine.seed = .fixed v) :
    SameWords s t := by
  intro fresh i
  refine Engine.expand_fst_congr (e := { s.engine with calls := s.engine.calls + i })
    (f := { t.engine with calls := t.engine.calls + i }) hgrammar ?_
  show s.engine.seed.generator fresh _ = t.engine.seed.generator fresh _
  rw [← hseed]
  rcases hcalls with hcalls | ⟨v, hv⟩
  · rw [hcalls]
  · rw [hv]
    rfl

theorem wordAhead_withCalls (s : System S) (fresh : Generator) (i : Nat) :
    (s.withCalls (s.engine.calls + 1)).wordAhead fresh i = s.wordAhead fresh (i + 1) := by
  unfold wordAhead
  show (Engine.expand { s.engine with calls := s.engine.calls + 1 + i } fresh).1 = _
  rw [Nat.add_right_comm, Nat.add_assoc]

/-- An expansion on both sides keeps the words to come the same. -/
theorem SameWords.next (h : SameWords s t) :
    SameWords (s.withCalls (s.engine.calls + 1)) (t.withCalls (t.engine.calls + 1)) := by
  intro fresh i
  rw [wordAhead_withCalls, wordAhead_withCalls]
  exact h fresh (i + 1)

/-- But for its states a variant is decided by its word. -/
theorem variant_outline (s : System S) (fresh : Nat → Generator) (i : Nat) :
    (s.variant fresh i).map Generation.outline = (s.wordAhead (fresh i) i).generation := by
  have h := GrowthGrammar.evaluate_outline s.instructions ⟨s.initialState, 0⟩
    (.single (.ofSeed (s.seed + i.toUInt64))) (s.wordAhead (fresh i) i)
  unfold variant Word.generation
  dsimp only
  split
  · next states hstates =>
    rw [hstates] at h
    cases houtline : (s.wordAhead (fresh i) i).outline with
    | ok visits =>
      rw [houtline] at h
      exact congrArg Except.ok (congrArg (Generation.mk _) (Except.ok.inj h))
    | error cause =>
      rw [houtline] at h
      cases h
  · next cause hcause =>
    rw [hcause] at h
    cases houtline : (s.wordAhead (fresh i) i).outline with
    | ok visits =>
      rw [houtline] at h
      cases h
    | error cause' =>
      rw [houtline] at h
      exact congrArg Except.error (Except.error.inj h)

/-- But for the states, what is generated is decided by the next word. -/
theorem generate_outline (s : System S) (fresh : Generator) :
    (s.generate fresh).1.map Generation.outline =
      (s.wordAhead fresh 0).generation.mapError .eval := by
  rw [generate_fst, ← s.variant_outline (fun _ => fresh) 0]
  cases s.variant (fun _ => fresh) 0 <;> rfl

/-- A series of variants has the same structure on both sides, and the words to come are the same
behind it: both sides fail at the same variant, if at all. -/
theorem SameWords.variantsFrom (h : SameWords s t) (fresh : Nat → Generator) (base base' : UInt64)
    (i count : Nat) :
    (variantsFrom fresh base i count s).1.map (·.map Generation.outline) =
        (variantsFrom fresh base' i count t).1.map (·.map Generation.outline) ∧
      SameWords (variantsFrom fresh base i count s).2 (variantsFrom fresh base' i count t).2 := by
  induction count generalizing i s t with
  | zero => exact ⟨rfl, h⟩
  | succ count ih =>
    let u : System S := { s with seed := base + i.toUInt64 }
    let v : System T := { t with seed := base' + i.toUInt64 }
    have hsame : SameWords u v := h
    have houtline : (u.generate (fresh i)).1.map Generation.outline =
        (v.generate (fresh i)).1.map Generation.outline := by
      rw [generate_outline, generate_outline, hsame]
    have hnext : SameWords (u.generate (fresh i)).2 (v.generate (fresh i)).2 := by
      rw [generate_snd, generate_snd]
      exact hsame.next
    rcases hu : u.generate (fresh i) with ⟨e | g, u'⟩ <;>
      rcases hv : v.generate (fresh i) with ⟨e' | g', v'⟩ <;>
      rw [hu, hv] at houtline hnext
    · rw [variantsFrom_succ_of_error hu, variantsFrom_succ_of_error hv]
      exact ⟨congrArg Except.error (Except.error.inj houtline), hnext⟩
    · cases houtline
    · cases houtline
    · obtain ⟨hrest, hafter⟩ := ih hnext (i + 1)
      rw [variantsFrom_succ_of_ok hu, variantsFrom_succ_of_ok hv]
      refine ⟨?_, hafter⟩
      have hg : g.outline = g'.outline := Except.ok.inj houtline
      rw [Except.map_map_cons, Except.map_map_cons, hg, hrest]

/-- One call has the same structure on both sides, and the words to come are the same behind it. -/
theorem SameWords.call (h : SameWords s t) (c : Call) :
    (s.reply c).outline = (t.reply c).outline ∧ SameWords (s.after c) (t.after c) := by
  cases c with
  | expand fresh => exact ⟨congrArg Reply.word (h fresh 0), h.next⟩
  | evaluate w =>
    refine ⟨congrArg Reply.states ?_, h⟩
    exact (evaluate_outline _ _ _ w).trans (evaluate_outline _ _ _ w).symm
  | trace w =>
    refine ⟨congrArg Reply.visits ?_, h⟩
    exact (trace_outline _ _ _ w).trans (trace_outline _ _ _ w).symm
  | generate fresh =>
    constructor
    · refine congrArg Reply.generation ?_
      rw [generate_outline, generate_outline, h]
    · show SameWords (s.generate fresh).2 (t.generate fresh).2
      rw [generate_snd, generate_snd]
      exact h.next
  | generateVariants fresh count =>
    obtain ⟨hvariants, hafter⟩ := h.variantsFrom fresh s.seed t.seed 0 count
    exact ⟨congrArg Reply.variants hvariants, hafter⟩

/-- A history of calls has the same structure on both sides. -/
theorem SameWords.replies (h : SameWords s t) (calls : List Call) :
    (s.replies calls).map Reply.outline = (t.replies calls).map Reply.outline := by
  induction calls generalizing s t with
  | nil => rfl
  | cons c calls ih =>
    obtain ⟨hreply, hafter⟩ := h.call c
    exact congrArg₂ List.cons hreply (ih hafter)

end

/-- The settings of the walk have no influence on the structure of what a system answers. Take two
systems of one grammar and one expansion seed that have made the same number of expansions, or any
numbers if the seed is fixed; their instructions, their initial states, even the types of these, and
the seeds of their walks are arbitrary. The same series of calls is then answered with the same
words, the same numbers of states, the same symbols, depths and positions of visits, and the same
errors, call by call. -/
theorem same_structure {S T : Type} {s : System S} {t : System T}
    (hgrammar : s.engine.grammar = t.engine.grammar) (hseed : s.engine.seed = t.engine.seed)
    (hcalls : s.engine.calls = t.engine.calls ∨ ∃ v, s.engine.seed = .fixed v)
    (calls : List Call) :
    (s.replies calls).map Reply.outline = (t.replies calls).map Reply.outline :=
  (sameWords_of_grammar_eq hgrammar hseed hcalls).replies calls

/-- A table whose only instruction counts how often it is run. -/
def runCounter : InstructionTable Generator Nat :=
  ⟨(∅ : Std.HashMap Symbol (Instruction Generator Nat)).insert 'A'
    ⟨'A', fun context _ => pure (context.withState (context.state + 1))⟩⟩

/-- A system that counts and a fresh one without instructions answer with the same structure, also
where a walk fails, although the first one has expanded before. -/
theorem same_structure_runCounter :
    ∃ e, Engine.new? Engine.interleavedGrammar (.fixed 7) = .ok e ∧
      let s : System Nat := ⟨{ e with calls := 3 }, runCounter, 0, 1⟩
      let t : System Bool := ⟨e, .empty, true, 2⟩
      s.engine.calls ≠ t.engine.calls ∧
      (s.replies [.generate (.ofSeed 5), .evaluate ['A', '['], .trace ['A', '[', 'B', ']'],
          .generateVariants (fun i => .ofSeed i.toUInt64) 2]).map Reply.outline =
        (t.replies [.generate (.ofSeed 5), .evaluate ['A', '['], .trace ['A', '[', 'B', ']'],
          .generateVariants (fun i => .ofSeed i.toUInt64) 2]).map Reply.outline := by
  obtain ⟨e, he, -, hseed, hcalls⟩ := Engine.exists_new? Engine.interleavedGrammar (.fixed 7)
  let s : System Nat := ⟨{ e with calls := 3 }, runCounter, 0, 1⟩
  let t : System Bool := ⟨e, .empty, true, 2⟩
  have hdiffer : s.engine.calls ≠ t.engine.calls := by
    show 3 ≠ e.calls
    rw [hcalls]
    decide
  exact ⟨e, he, hdiffer, same_structure (s := s) (t := t) rfl rfl (.inr ⟨7, hseed⟩) _⟩

end System

end GrowthGrammar
