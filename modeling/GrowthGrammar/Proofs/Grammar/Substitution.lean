import GrowthGrammar.Proofs.Grammar.Series

/-!
# Grammars without a choice

If no predecessor has two rules, there is nothing to draw, and a derivation is a literal
substitution: `Grammar.image` is what a symbol is replaced by, and `Grammar.grown` lets each symbol
grow on its own, by recursion. An engine goes the other way: it derives the whole word before it
comes to the next generation. `Engine.expand_of_deterministic` says that both arrive at the same
word, that no generator is touched on the way, and that so neither the seed nor the weights nor the
calls made before have an influence.
-/

namespace GrowthGrammar

variable {ρ : Type} [RandomBits ρ]

/-- A rule without its weight. -/
def Rule.production (r : Rule) : Symbol × Word := (r.predecessor, r.replacement)

namespace Grammar

/-- No predecessor has two rules. -/
def Deterministic (g : Grammar) : Prop := (g.rules.map (·.predecessor)).Nodup

instance (g : Grammar) : Decidable g.Deterministic :=
  inferInstanceAs (Decidable (g.rules.map (·.predecessor)).Nodup)

/-- What a symbol is replaced by if there is no choice: by its only rule, or by itself. -/
def image (g : Grammar) (c : Symbol) : Word := ((g.rulesFor c).map (·.replacement)).headD [c]

/-- The word that a symbol alone grows into: each symbol of its image grows on for the remaining
generations. -/
def grown (g : Grammar) : ℕ → Symbol → Word
  | 0, c => [c]
  | n + 1, c => (g.image c).flatMap (g.grown n)

variable {g h : Grammar}

/-- A symbol without rules does not grow. -/
theorem grown_of_forall_ne {c : Symbol} (hc : ∀ r ∈ g.rules, r.predecessor ≠ c) (n : ℕ) :
    g.grown n c = [c] := by
  have hrules : g.rulesFor c = [] := by
    rw [rulesFor, List.filter_eq_nil_iff]
    simpa using hc
  have himage : g.image c = [c] := by
    rw [image, hrules]
    rfl
  induction n with
  | zero => rfl
  | succ n ih => rw [grown, himage, List.flatMap_singleton, ih]

/-- Without a choice a symbol has no rule or a single one. -/
theorem Deterministic.rulesFor_cases (det : g.Deterministic) (c : Symbol) :
    g.rulesFor c = [] ∨ ∃ r, g.rulesFor c = [r] := by
  have hcount : (g.rulesFor c).length = (g.rules.map (·.predecessor)).count c := by
    rw [List.count, List.countP_map, List.countP_eq_length_filter]
    rfl
  have hle : (g.rulesFor c).length ≤ 1 := hcount.trans_le (List.nodup_iff_count_le_one.1 det c)
  rcases Nat.le_one_iff_eq_zero_or_eq_one.1 hle with hzero | hone
  · exact .inl (List.length_eq_zero_iff.1 hzero)
  · exact .inr (List.length_eq_one_iff.1 hone)

/-- Without a choice a symbol is replaced by its image, and nothing is drawn. -/
theorem Deterministic.scanSymbol_eq (det : g.Deterministic) (c : Symbol) (rng : ρ) :
    g.scanSymbol c rng = (g.image c, rng) := by
  rcases det.rulesFor_cases c with hnil | ⟨r, hr⟩
  · rw [scanSymbol_of_nil hnil, image, hnil]
    rfl
  · rw [scanSymbol_of_singleton hr, image, hr]
    rfl

/-- Without a choice a word is replaced symbol by symbol, and nothing is drawn. -/
theorem Deterministic.scan_eq (det : g.Deterministic) (w : Word) (rng : ρ) :
    g.scan w rng = (w.flatMap g.image, rng) := by
  induction w with
  | nil => rfl
  | cons c w ih => rw [scan_cons, det.scanSymbol_eq, ih, List.flatMap_cons]

/-! ## Other weights -/

/-- The replacements of a symbol do not depend on the weights. -/
theorem map_replacement_rulesFor (g : Grammar) (c : Symbol) :
    (g.rulesFor c).map (·.replacement) =
      ((g.rules.map Rule.production).filter (·.1 == c)).map (·.2) := by
  rw [List.filter_map, List.map_map]
  rfl

theorem image_congr (hrules : h.rules.map Rule.production = g.rules.map Rule.production) :
    h.image = g.image := by
  funext c
  rw [image, image, map_replacement_rulesFor, map_replacement_rulesFor, hrules]

theorem grown_congr (himage : h.image = g.image) (n : ℕ) : h.grown n = g.grown n := by
  induction n with
  | zero => rfl
  | succ n ih =>
    funext c
    rw [grown, grown, himage, ih]

/-- Whether there is a choice does not depend on the weights. -/
theorem Deterministic.congr (det : g.Deterministic)
    (hrules : h.rules.map Rule.production = g.rules.map Rule.production) : h.Deterministic := by
  have hpredecessors : ∀ rules : List Rule,
      rules.map (·.predecessor) = (rules.map Rule.production).map (·.1) := by
    intro rules
    rw [List.map_map]
    rfl
  rw [Deterministic, hpredecessors, hrules, ← hpredecessors]
  exact det

end Grammar

namespace Engine

/-- Generation by generation a word becomes what its symbols grow into. The first generation is
taken off both sides: an engine derives it for the whole word, and each symbol grows on from its own
image. -/
theorem deriveTimes_of_deterministic {e : Engine} (det : e.grammar.Deterministic) (n : ℕ)
    (w : Word) (rng : ρ) : e.deriveTimes n w rng = (w.flatMap (e.grammar.grown n), rng) := by
  induction n generalizing w with
  | zero => exact Prod.ext (List.flatMap_singleton' w).symm rfl
  | succ n ih =>
    have hderive : e.derive w rng = (w.flatMap e.grammar.image, rng) := by
      rw [derive_eq_scan, det.scan_eq]
    have hstep : e.deriveTimes (n + 1) w rng =
        e.deriveTimes n (e.derive w rng).1 (e.derive w rng).2 := rfl
    rw [hstep, hderive, ih, List.flatMap_assoc]
    rfl

/-- A grammar without a choice is a literal substitution. For every number of generations and every
seed, the engine of the grammar expands to what the symbols of the start word grow into, each of
them on its own and one after the other, and leaves every generator as it was. It does so again on
every later call, whatever was done with it before; and other weights of the rules, as long as they
make a grammar, make no difference. -/
theorem expand_of_deterministic {g : Grammar} (det : g.Deterministic) (n : ℕ) {h : Grammar}
    (hstart : h.start = g.start)
    (hrules : h.rules.map Rule.production = g.rules.map Rule.production) (seed : ExpansionSeed) :
    ∃ e, new? (h.withGenerations n) seed = .ok e ∧ ∀ past : List Call,
      (∀ {ρ : Type} [RandomBits ρ] (rng : ρ),
        (past.foldl after e).expandWith rng = (g.start.flatMap (g.grown n), rng)) ∧
      (∀ fresh, ((past.foldl after e).expand fresh).1 = g.start.flatMap (g.grown n)) ∧
      ∀ fresh, ((past.foldl after e).expandText fresh).1 =
        Word.render (g.start.flatMap (g.grown n)) := by
  obtain ⟨e, he, hgrammar, -, -⟩ := exists_new? (h.withGenerations n) seed
  refine ⟨e, he, fun past => ?_⟩
  have hpast : (past.foldl after e).grammar = h.withGenerations n :=
    (grammar_foldl_after e past).trans hgrammar
  have hdet : (past.foldl after e).grammar.Deterministic := by
    rw [hpast]
    exact det.congr hrules
  have hgrown : (h.withGenerations n).grown n = g.grown n :=
    Grammar.grown_congr (h := h.withGenerations n) (Grammar.image_congr hrules) n
  have hwith : ∀ {ρ : Type} [RandomBits ρ] (rng : ρ), (past.foldl after e).expandWith rng =
      (g.start.flatMap (g.grown n), rng) := by
    intro ρ _ rng
    rw [expandWith, deriveTimes_of_deterministic hdet, hpast, ← hgrown, ← hstart]
    rfl
  refine ⟨hwith, fun fresh => ?_, fun fresh => ?_⟩
  · exact congrArg Prod.fst (hwith (ρ := Generator) _)
  · exact congrArg (fun p => Word.render p.1) (hwith (ρ := Generator) _)

/-- Two kinds of cells: the first one buds the second one, which ripens to the first one. -/
def buddingGrammar : Grammar where
  start := ['A']
  rules := [⟨'A', ['A', 'B'], 1⟩, ⟨'B', ['A'], 1⟩]
  generations := 0
  faultless := by
    rw [Rule.firstFault?_cons_eq_none_iff, Rule.firstFault?_cons_eq_none_iff]
    simp only [Rule.fault?_eq_none_iff, Std.HashMap.getD_insert, Std.HashMap.getD_empty]
    exact ⟨by decide, by decide, rfl⟩

/-- The budding grammar with other weights. -/
def reweightedGrammar : Grammar where
  start := ['A']
  rules := [⟨'A', ['A', 'B'], 0.5⟩, ⟨'B', ['A'], 3⟩]
  generations := 7
  faultless := by
    rw [Rule.firstFault?_cons_eq_none_iff, Rule.firstFault?_cons_eq_none_iff]
    simp only [Rule.fault?_eq_none_iff, Std.HashMap.getD_insert, Std.HashMap.getD_empty]
    exact ⟨by decide, by decide, rfl⟩

/-- Four generations of budding make eight cells, also with other weights, with a seed for every
call, and after an expansion. -/
theorem expand_buddingGrammar :
    buddingGrammar.Deterministic ∧ reweightedGrammar.start = buddingGrammar.start ∧
    reweightedGrammar.rules.map Rule.production = buddingGrammar.rules.map Rule.production ∧
    ∃ e, new? (reweightedGrammar.withGenerations 4) (.perCall 5) = .ok e ∧
      ((e.after (.expand (.ofSeed 1))).expand (.ofSeed 2)).1 =
        ['A', 'B', 'A', 'A', 'B', 'A', 'B', 'A'] := by
  have det : buddingGrammar.Deterministic := by decide
  have hrules : reweightedGrammar.rules.map Rule.production =
      buddingGrammar.rules.map Rule.production := by decide
  have hgrown : buddingGrammar.start.flatMap (buddingGrammar.grown 4) =
      ['A', 'B', 'A', 'A', 'B', 'A', 'B', 'A'] := by decide
  obtain ⟨e, he, hall⟩ := expand_of_deterministic det 4 (h := reweightedGrammar) rfl hrules
    (.perCall 5)
  obtain ⟨-, hexpand, -⟩ := hall [.expand (.ofSeed 1)]
  rw [hgrown] at hexpand
  exact ⟨det, rfl, hrules, e, he, hexpand (.ofSeed 2)⟩

end Engine

end GrowthGrammar
