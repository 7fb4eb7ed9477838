import GrowthGrammar.Proofs.Grammar.Depth
import GrowthGrammar.Proofs.System.CleanLint
import GrowthGrammar.Proofs.System.Variants

/-!
# Faults of the start word stay

If all replacements close what they open, and nothing else, the rules can neither mend nor make a
fault: every expansion has the balance of the start word (`System.balance?_wordAhead`). A start word
that leaves branches open makes every call of `System.generate` fail with their number, and one that
closes a branch that it never opened makes it fail at the first such close.
`System.faults_stay` states this for every number of generations and every seed, together with what
one generation does to the balance and to the depth of any word.
-/

namespace GrowthGrammar.System

variable {S : Type} {s : System S}

/-- An expansion has the balance of the start word. -/
theorem balance?_wordAhead
    (h : ∀ r ∈ s.engine.grammar.rules, r.replacement.balance? = some 0) (fresh : Generator)
    (i : Nat) : (s.wordAhead fresh i).balance? = s.engine.grammar.start.balance? :=
  Engine.balance?_expand (e := { s.engine with calls := s.engine.calls + i }) h fresh

/-- A start word that leaves branches open makes every walk end with so many of them open. -/
theorem generate_eq_unclosed
    (h : ∀ r ∈ s.engine.grammar.rules, r.replacement.balance? = some 0) {k : Nat} (hk : 0 < k)
    (hstart : s.engine.grammar.start.balance? = some k) (fresh : Generator) :
    (s.generate fresh).1 = .error (.eval (.unclosedBranch k)) := by
  refine generate_eq_error_iff.2 ⟨.unclosedBranch k, rfl, ?_⟩
  exact Word.faultFrom?_eq_unclosed_iff.2 ⟨(balance?_wordAhead h fresh 0).trans hstart, hk⟩

/-- A start word that closes a branch that it never opened makes every walk fail at the first such
close of its word. -/
theorem exists_generate_eq_unbalanced
    (h : ∀ r ∈ s.engine.grammar.rules, r.replacement.balance? = some 0)
    (hstart : s.engine.grammar.start.balance? = none) (fresh : Generator) :
    ∃ p, (s.expand fresh).1.ClosesUnopened p ∧
      (s.generate fresh).1 = .error (.eval (.unbalancedBranch p)) := by
  have hnone := (balance?_wordAhead h fresh 0).trans hstart
  obtain ⟨p, hp, -⟩ := Word.existsUnique_closesUnopened hnone
  exact ⟨p, hp, generate_eq_error_iff.2 ⟨_, rfl, Word.fault?_eq_unbalanced_iff.2 hp⟩⟩

/-- Rules whose replacements close what they open, and nothing else, keep the balance of every word,
also of one that leaves branches open, and of one that has none. One generation makes no word
flatter, and none deeper by more than the deepest replacement; so `n` generations make none deeper
by more than `n` times as much. Hence a faulty start word stays faulty: for every number of
generations, every seed, all instructions, initial states and seeds of the walk, and after any
calls, to generate fails with the number of branches that the start word leaves open, or at the
first close without an open if the start word has such a close. -/
theorem faults_stay {g : Grammar} (h : ∀ r ∈ g.rules, r.replacement.balance? = some 0) :
    (∀ e : Engine, e.grammar = g → ∀ {ρ : Type} [RandomBits ρ] w (rng : ρ),
      ((e.derive w rng).1.balance? = w.balance? ∧
        w.maxDepth ≤ (e.derive w rng).1.maxDepth ∧
        (e.derive w rng).1.maxDepth ≤ w.maxDepth + g.replacementDepth) ∧
      ∀ n, (e.deriveTimes n w rng).1.balance? = w.balance? ∧
        w.maxDepth ≤ (e.deriveTimes n w rng).1.maxDepth ∧
        (e.deriveTimes n w rng).1.maxDepth ≤ w.maxDepth + n * g.replacementDepth) ∧
    ∀ n seed, ∃ e, Engine.new? (g.withGenerations n) seed = .ok e ∧
      e.grammar = g.withGenerations n ∧
      ∀ {S : Type} (table : InstructionTable Generator S) (initial : S) (walkSeed : UInt64)
        (past : List Call) (fresh : Generator),
        let s : System S := afterAll ⟨e, table, initial, walkSeed⟩ past
        (∀ k, 0 < k → g.start.balance? = some k →
          (s.generate fresh).1 = .error (.eval (.unclosedBranch k))) ∧
        (g.start.balance? = none → ∃ p, (s.expand fresh).1.ClosesUnopened p ∧
          (s.generate fresh).1 = .error (.eval (.unbalancedBranch p))) := by
  constructor
  · rintro e rfl ρ _ w rng
    have hderives := e.derives w rng
    refine ⟨⟨hderives.balanceFrom? h 0, hderives.maxDepth h⟩, fun n => ⟨?_, ?_⟩⟩
    · exact Engine.balance?_deriveTimes h n w rng
    · exact Engine.maxDepth_deriveTimes h n w rng
  · intro n seed
    obtain ⟨e, he, hgrammar, -⟩ := Engine.exists_new? (g.withGenerations n) seed
    refine ⟨e, he, hgrammar, fun table initial walkSeed past fresh => ?_⟩
    obtain ⟨calls, hpast⟩ := exists_afterAll_eq ⟨e, table, initial, walkSeed⟩ past
    rw [hpast]
    -- the calls made before have left the grammar as it was
    have hrules : ∀ r ∈ e.grammar.rules, r.replacement.balance? = some 0 := by
      rw [hgrammar]
      exact h
    have hstart : e.grammar.start = g.start := by rw [hgrammar]; rfl
    refine ⟨fun k hk hbalance => ?_, fun hbalance => ?_⟩
    · exact generate_eq_unclosed hrules hk (hstart ▸ hbalance) fresh
    · exact exists_generate_eq_unbalanced hrules (hstart ▸ hbalance) fresh

/-- The branching grammar with a start word that leaves a branch open. -/
def openGrammar : Grammar := { branchingGrammar with start := ['A', '[', 'A'] }

/-- The branching grammar with a start word that closes a branch that it never opened. -/
def closingGrammar : Grammar := { branchingGrammar with start := ['A', ']', '['] }

/-- The rules of the branching grammar are balanced and one branch deep. With the one start word it
fails with one open branch after three generations, with the other one at a close. -/
theorem faults_stay_branchingGrammar :
    (∀ r ∈ branchingGrammar.rules, r.replacement.balance? = some 0) ∧
    openGrammar.start.balance? = some 1 ∧ closingGrammar.start.balance? = none ∧
    branchingGrammar.replacementDepth = 1 ∧
    (∃ e, Engine.new? (openGrammar.withGenerations 3) (.perCall 5) = .ok e ∧
      (e.derive ['A', '[', 'A'] (Generator.ofSeed 1)).1.maxDepth ≤ 2 ∧
      ∀ initial : Nat, (generate ⟨e, .empty, initial, 7⟩ (.ofSeed 1)).1 =
        .error (.eval (.unclosedBranch 1))) ∧
    ∃ e, Engine.new? (closingGrammar.withGenerations 3) .entropy = .ok e ∧
      ∀ initial : Nat, ∃ p, (generate ⟨e, .empty, initial, 7⟩ (.ofSeed 1)).1 =
        .error (.eval (.unbalancedBranch p)) := by
  have h : ∀ r ∈ branchingGrammar.rules, r.replacement.balance? = some 0 := by decide
  refine ⟨h, rfl, rfl, rfl, ?_, ?_⟩
  · obtain ⟨e, he, hgrammar, hgenerate⟩ := (faults_stay (g := openGrammar) h).2 3 (.perCall 5)
    have hdepth := ((faults_stay (g := openGrammar.withGenerations 3) h).1 e hgrammar
      ['A', '[', 'A'] (Generator.ofSeed 1)).1.2.2
    refine ⟨e, he, hdepth, fun initial => ?_⟩
    exact (hgenerate .empty initial 7 [] (.ofSeed 1)).1 1 Nat.one_pos rfl
  · obtain ⟨e, he, -, hgenerate⟩ := (faults_stay (g := closingGrammar) h).2 3 .entropy
    refine ⟨e, he, fun initial => ?_⟩
    obtain ⟨p, -, hp⟩ := (hgenerate .empty initial 7 [] (.ofSeed 1)).2 rfl
    exact ⟨p, hp⟩

end GrowthGrammar.System
