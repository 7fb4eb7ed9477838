import GrowthGrammar.Lint.Basic
import GrowthGrammar.Proofs.Grammar.Derivation
import GrowthGrammar.Proofs.System.Building
import GrowthGrammar.Proofs.System.History
import GrowthGrammar.Proofs.Walk.Verdict

/-!
# A clean grammar never fails on branches

The check of a grammar reports no error exactly if the grammar is balanced
(`Grammar.lint_errors_eq_nil_iff`). A balanced grammar derives balanced words only, and a walk of a
balanced word succeeds, so `System.generate_ok_of_clean` holds: a system with a clean grammar
generates without an error, at any time and with any settings.
-/

namespace GrowthGrammar

/-! ## What a clean report says -/

/-- A word has no fault if it closes what it opens, and nothing else. -/
theorem Grammar.branchFault?_eq_none_iff {name : WordOf} {w : Word} :
    branchFault? name w = none ↔ w.balance? = some 0 := by
  unfold branchFault?
  match w.balance? with
  | some 0 => simp
  | some (count + 1) => simp
  | none => simp

/-- A report has no errors exactly if the grammar is balanced. -/
theorem Grammar.lint_errors_eq_nil_iff {g : Grammar} {known : List Symbol} :
    (g.lint known).errors = [] ↔ g.Balanced := by
  show g.branchFaults = [] ↔ _
  rw [branchFaults, List.append_eq_nil_iff, Option.toList_eq_nil_iff, branchFault?_eq_none_iff,
    List.filterMap_eq_nil_iff]
  constructor
  · rintro ⟨hstart, hrules⟩
    exact ⟨hstart, fun r hr => branchFault?_eq_none_iff.1 (hrules r hr)⟩
  · rintro ⟨hstart, hrules⟩
    exact ⟨hstart, fun r hr => branchFault?_eq_none_iff.2 (hrules r hr)⟩

/-- Whether a grammar is balanced does not depend on the number of generations. -/
theorem Grammar.Balanced.withGenerations {g : Grammar} (h : g.Balanced) (n : ℕ) :
    (g.withGenerations n).Balanced := ⟨h.start, h.replacement⟩

namespace System

variable {S : Type}

/-- A balanced word is evaluated without an error. -/
theorem exists_evaluate_eq_ok (s : System S) {w : Word} (h : w.balance? = some 0) :
    ∃ states, s.evaluate w = .ok states := walk_eq_ok_iff.2 h

/-- The words that a balanced grammar expands to are balanced. -/
theorem balance?_expand (s : System S) (h : s.engine.grammar.Balanced) (fresh : Generator) :
    (s.expand fresh).1.balance? = some 0 :=
  h.balance?_of_generates (s.engine.generates_expand fresh)

/-- To generate succeeds if the expansion is evaluated without an error. -/
theorem generate_fst_of_evaluate {s : System S} {fresh : Generator} {states : List S}
    (h : (s.expand fresh).2.evaluate (s.expand fresh).1 = .ok states) :
    (s.generate fresh).1 = .ok ⟨(s.expand fresh).1, states⟩ := by
  unfold generate
  dsimp only
  rw [h]

/-- To generate with a balanced grammar succeeds, with a balanced word. -/
theorem exists_generate_eq_ok (s : System S) (h : s.engine.grammar.Balanced) (fresh : Generator) :
    ∃ r : Generation S, (s.generate fresh).1 = .ok r ∧ r.word.balance? = some 0 := by
  have hzero := s.balance?_expand h fresh
  obtain ⟨states, hstates⟩ := (s.expand fresh).2.exists_evaluate_eq_ok hzero
  exact ⟨⟨(s.expand fresh).1, states⟩, generate_fst_of_evaluate hstates, hzero⟩

/-- A series of variants of a balanced grammar succeeds, with as many variants as asked for. -/
theorem exists_variantsFrom_eq_ok (fresh : Nat → Generator) (base : UInt64) (i count : Nat)
    (s : System S) (h : s.engine.grammar.Balanced) :
    ∃ rs : List (Generation S), (variantsFrom fresh base i count s).1 = .ok rs ∧
      rs.length = count ∧ ∀ r ∈ rs, r.word.balance? = some 0 := by
  induction count generalizing i s with
  | zero => exact ⟨[], rfl, rfl, by simp⟩
  | succ count ih =>
    let t : System S := { s with seed := base + i.toUInt64 }
    obtain ⟨r, hr, hzero⟩ := exists_generate_eq_ok t h (fresh i)
    have hafter : t.generate (fresh i) = (.ok r, t.withCalls (t.engine.calls + 1)) :=
      Prod.ext hr (t.generate_snd (fresh i))
    obtain ⟨rs, hrs, hlength, hall⟩ := ih (i + 1) (t.withCalls (t.engine.calls + 1)) h
    refine ⟨r :: rs, ?_, congrArg (· + 1) hlength, List.forall_mem_cons.2 ⟨hzero, hall⟩⟩
    rw [variantsFrom_succ_of_ok hafter]
    dsimp only
    rw [hrs]
    rfl

/-- A system whose grammar has a clean report never fails on branches. Whatever settings it was
built with, and whatever calls were made on it before, it generates without an error, also a series
of variants, and every expansion of it is balanced: with the seed of its engine, with a generator of
the caller's, and with any other choice of rules. -/
theorem generate_ok_of_clean {S : Type} [Inhabited S] {g : Grammar} {known : List Symbol}
    (clean : (g.lint known).errors = []) (n : ℕ) {b : Builder S}
    (given : b.grammar? = some (g.withGenerations n)) (files : FileReader) :
    ∃ s, b.build files = .ok s ∧
      s.engine.grammar.generations = b.generations?.getD n ∧
      ∀ calls : List Call,
        (∀ fresh, ∃ r, ((s.afterAll calls).generate fresh).1 = .ok r ∧
          r.word.balance? = some 0) ∧
        (∀ fresh count, ∃ rs, ((s.afterAll calls).generateVariants fresh count).1 = .ok rs ∧
          rs.length = count ∧ ∀ r ∈ rs, r.word.balance? = some 0) ∧
        (∀ fresh, ((s.afterAll calls).expand fresh).1.balance? = some 0) ∧
        (∀ {ρ : Type} [RandomBits ρ] (rng : ρ),
          ((s.afterAll calls).engine.expandWith rng).1.balance? = some 0) ∧
        ∀ m w, (s.afterAll calls).engine.grammar.Generates m w →
          w.balance? = some 0 ∧ ∃ states, (s.afterAll calls).evaluate w = .ok states := by
  obtain ⟨s, hs, hgrammar⟩ := b.exists_build_eq_ok given files
  refine ⟨s, hs, by rw [hgrammar]; rfl, fun calls => ?_⟩
  have hbalanced : (s.afterAll calls).engine.grammar.Balanced := by
    obtain ⟨k, hk⟩ := s.exists_afterAll_eq calls
    rw [hk]
    show s.engine.grammar.Balanced
    rw [hgrammar]
    exact ((Grammar.lint_errors_eq_nil_iff.1 clean).withGenerations n).withGenerations _
  refine ⟨fun fresh => ?_, fun fresh count => ?_, fun fresh => ?_, ?_, fun m w hw => ?_⟩
  · exact exists_generate_eq_ok _ hbalanced fresh
  · exact exists_variantsFrom_eq_ok fresh _ 0 count _ hbalanced
  · exact balance?_expand _ hbalanced fresh
  · intro ρ _ rng
    exact hbalanced.balance?_of_generates (Engine.generates _ rng)
  · have hzero := hbalanced.balance?_of_generates hw
    exact ⟨hzero, exists_evaluate_eq_ok _ hzero⟩

/-- A grammar whose symbol grows a branch that holds the symbol again. -/
def branchingGrammar : Grammar where
  start := ['A']
  rules := [⟨'A', ['A', '[', 'A', ']'], 1⟩]
  generations := 0
  faultless := by
    rw [Rule.firstFault?_cons_eq_none_iff, Rule.fault?_eq_none_iff, Std.HashMap.getD_empty]
    exact ⟨⟨by decide, rfl, by decide⟩, rfl⟩

/-- The branching grammar grows for four generations without an error, also after other calls. -/
theorem generate_branchingGrammar :
    (branchingGrammar.lint ['A']).errors = [] ∧
    ∃ s, Builder.build (S := Nat) { grammar? := some (branchingGrammar.withGenerations 4) }
        (fun _ => .error .notFound) = .ok s ∧
      s.engine.grammar.generations = 4 ∧
      ∃ r, ((s.afterAll [.expand (.ofSeed 1), .generate (.ofSeed 2)]).generate
        (.ofSeed 3)).1 = .ok r ∧ r.word.balance? = some 0 := by
  have clean : (branchingGrammar.lint ['A']).errors = [] := rfl
  let b : Builder Nat := { grammar? := some (branchingGrammar.withGenerations 4) }
  have given : b.grammar? = some (branchingGrammar.withGenerations 4) := rfl
  obtain ⟨s, hs, hgenerations, h⟩ := generate_ok_of_clean clean 4 given fun _ => .error .notFound
  exact ⟨clean, s, hs, hgenerations, (h _).1 _⟩

end System

end GrowthGrammar
