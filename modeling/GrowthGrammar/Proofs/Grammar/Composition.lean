import GrowthGrammar.Proofs.Grammar.Acceptance
import GrowthGrammar.Proofs.Grammar.Series
import GrowthGrammar.Proofs.Random.Draws
import Mathlib.Algebra.BigOperators.Intervals
import Mathlib.Tactic.Choose

/-!
# Derivations can be cut

An engine threads one generator through the symbols of a word and through its generations, and it
can be stopped and taken up again at any point of either loop: a word is derived part by part
(`Engine.derive_append`), and its generations one after the other (`Engine.deriveTimes_add`). Each
symbol with a choice takes one word from the generator and no other symbol takes any
(`Grammar.scanSymbol_snd`), so an expansion takes as many words as there are such symbols in the
words that it replaces (`Engine.deriveTimes_snd`). `Engine.derivation_composes` puts this together
for the engines of a grammar.
-/

namespace GrowthGrammar

variable {ρ : Type} [RandomBits ρ]

namespace Grammar

variable (g : Grammar)

/-- The symbol has at least two rules to choose from. -/
def hasChoice (c : Symbol) : Bool := 2 ≤ (g.rulesFor c).length

/-- A scan draws for a symbol with a choice, once, and for no other symbol. -/
theorem scanSymbol_snd (c : Symbol) (rng : ρ) :
    (g.scanSymbol c rng).2 = RandomBits.skip (if g.hasChoice c then 1 else 0) rng := by
  unfold scanSymbol hasChoice
  match g.rulesFor c with
  | [] => rfl
  | [r] => rfl
  | r₁ :: r₂ :: rules => simp [RandomBits.skip]

/-- A scan of a word draws once for each of its symbols with a choice. -/
theorem scan_snd (w : Word) (rng : ρ) :
    (g.scan w rng).2 = RandomBits.skip (w.countP g.hasChoice) rng := by
  induction w generalizing rng with
  | nil => rfl
  | cons c w ih =>
    rw [scan_cons, ih, scanSymbol_snd, RandomBits.skip_skip, List.countP_cons, Nat.add_comm]

/-- The second part of a word is scanned with the generator that the first part leaves. -/
theorem scan_append (u v : Word) (rng : ρ) :
    g.scan (u ++ v) rng =
      ((g.scan u rng).1 ++ (g.scan v (g.scan u rng).2).1, (g.scan v (g.scan u rng).2).2) := by
  induction u generalizing rng with
  | nil => rfl
  | cons c u ih =>
    rw [List.cons_append, scan_cons, scan_cons, ih, List.append_assoc]

end Grammar

namespace Engine

variable (e : Engine)

/-- Engines with the same rules derive alike. -/
theorem derive_eq_of_rules_eq {e f : Engine} (h : e.grammar.rules = f.grammar.rules) :
    e.derive (ρ := ρ) = f.derive := by
  funext w
  rw [derive_eq_scan, derive_eq_scan]
  refine Grammar.scan_congr fun c _ => ?_
  rw [Grammar.rulesFor, Grammar.rulesFor, h]

/-- The second part of a word is derived with the generator that the first part leaves. -/
theorem derive_append (u v : Word) (rng : ρ) :
    e.derive (u ++ v) rng =
      ((e.derive u rng).1 ++ (e.derive v (e.derive u rng).2).1,
        (e.derive v (e.derive u rng).2).2) := by
  simp only [derive_eq_scan, Grammar.scan_append]

/-- One generation draws once for each symbol with a choice. -/
theorem derive_snd (w : Word) (rng : ρ) :
    (e.derive w rng).2 = RandomBits.skip (w.countP e.grammar.hasChoice) rng := by
  rw [derive_eq_scan, Grammar.scan_snd]

/-- Later generations are derived from the word and with the generator that the earlier ones
leave. -/
theorem deriveTimes_add (m n : ℕ) (w : Word) (rng : ρ) :
    e.deriveTimes (m + n) w rng =
      e.deriveTimes n (e.deriveTimes m w rng).1 (e.deriveTimes m w rng).2 := by
  induction m generalizing w rng with
  | zero => rw [Nat.zero_add]; rfl
  | succ m ih =>
    rw [Nat.add_right_comm]
    exact ih (e.derive w rng).1 (e.derive w rng).2

/-- All generations together draw once for each symbol with a choice in each word that is replaced.
The last generation is not replaced any more. -/
theorem deriveTimes_snd (n : ℕ) (w : Word) (rng : ρ) :
    (e.deriveTimes n w rng).2 =
      RandomBits.skip
        (∑ i ∈ Finset.range n, (e.deriveTimes i w rng).1.countP e.grammar.hasChoice) rng := by
  induction n with
  | zero => rfl
  | succ n ih =>
    have hlast : (e.deriveTimes (n + 1) w rng).2 =
        (e.derive (e.deriveTimes n w rng).1 (e.deriveTimes n w rng).2).2 := by
      rw [deriveTimes_add]
      rfl
    rw [hlast, derive_snd, ih, RandomBits.skip_skip, Finset.sum_range_succ]

/-- Derivations compose along the word and along the generations, and their draws can be counted.
Let `e n` be the engine of a grammar for `n` generations. Two parts of a word are derived one after
the other. An expansion for `m + n` generations is one for `m` generations, whose word is then the
start word of an expansion for `n` generations with the same rules. In both cases the second part
goes on with the generator that the first one leaves, and leaves the same generator as the whole.
An expansion for `n` generations takes one word from the generator for each symbol with at least two
rules in each generation before the last one; a `Generator` counts the words taken. -/
theorem derivation_composes (g : Grammar) (seed : ExpansionSeed) :
    ∃ e : ℕ → Engine, (∀ n, new? (g.withGenerations n) seed = .ok (e n)) ∧
      (∀ {ρ : Type} [RandomBits ρ] n u v (rng : ρ),
        let (u', rng') := (e n).derive u rng
        let (v', rng'') := (e n).derive v rng'
        (e n).derive (u ++ v) rng = (u' ++ v', rng'')) ∧
      (∀ {ρ : Type} [RandomBits ρ] m n (rng : ρ),
        let (w, rng') := (e m).expandWith rng
        ∃ h f, Grammar.new? w g.rules n = .ok h ∧ new? h seed = .ok f ∧
          (e (m + n)).expandWith rng = f.expandWith rng') ∧
      (∀ {ρ : Type} [RandomBits ρ] n (rng : ρ), ((e n).expandWith rng).2 =
        RandomBits.skip (∑ i ∈ Finset.range n,
          ((e i).expandWith rng).1.countP fun c => 2 ≤ (g.rulesFor c).length) rng) ∧
      ∀ n (rng : Generator), ((e n).expandWith rng).2 =
        { rng with drawn := rng.drawn + ∑ i ∈ Finset.range n,
          ((e i).expandWith rng).1.countP fun c => 2 ≤ (g.rulesFor c).length } := by
  choose e he hgrammar _ _ using fun n => exists_new? (g.withGenerations n) seed
  have hrules : ∀ n, (e n).grammar.rules = g.rules := fun n => by rw [hgrammar]; rfl
  -- the engines differ in their numbers of generations only
  have htimes : ∀ {ρ : Type} [RandomBits ρ] m n,
      (e m).deriveTimes (ρ := ρ) n = (e 0).deriveTimes n := fun m =>
    deriveTimes_congr (derive_eq_of_rules_eq ((hrules m).trans (hrules 0).symm))
  have hexpand : ∀ {ρ : Type} [RandomBits ρ] n,
      (e n).expandWith (ρ := ρ) = (e 0).deriveTimes n g.start := by
    intro ρ _ n
    rw [expandWith, htimes, hgrammar]
    rfl
  have hdrawn : ∀ {ρ : Type} [RandomBits ρ] n (rng : ρ), ((e n).expandWith rng).2 =
      RandomBits.skip (∑ i ∈ Finset.range n,
        ((e i).expandWith rng).1.countP fun c => 2 ≤ (g.rulesFor c).length) rng := by
    intro ρ _ n rng
    have hchoice : (e 0).grammar.hasChoice = fun c => decide (2 ≤ (g.rulesFor c).length) := by
      rw [hgrammar]
      rfl
    simp only [hexpand]
    rw [deriveTimes_snd, hchoice]
  refine ⟨e, he, ?_, ?_, hdrawn, fun n rng => (hdrawn n rng).trans (rng.skip_eq _)⟩
  · intro ρ _ n u v rng
    exact (e n).derive_append u v rng
  · intro ρ _ m n rng
    obtain ⟨h, hh, hstart, hrules', hgenerations⟩ :=
      (@Grammar.exists_new?_iff ((e m).expandWith rng).1 g.rules n).2 g.acceptable
    obtain ⟨f, hf, rfl, -, -⟩ := exists_new? h seed
    refine ⟨f.grammar, f, hh, hf, ?_⟩
    have hlater : f.deriveTimes (ρ := ρ) n = (e 0).deriveTimes n :=
      deriveTimes_congr (derive_eq_of_rules_eq (hrules'.trans (hrules 0).symm)) n
    have hf : f.expandWith (ρ := ρ) = (e 0).deriveTimes n ((e m).expandWith rng).1 := by
      rw [← hlater, ← hstart, ← hgenerations]
      rfl
    rw [hexpand, deriveTimes_add, ← hexpand m]
    exact (congrFun hf _).symm

end Engine

end GrowthGrammar
