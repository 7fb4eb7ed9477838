import GrowthGrammar.Proofs.Lint.Pruning

/-!
# Rules of different predecessors can be interleaved in any way

Two lists of rules that have the same rules for every predecessor, in the same order
(`Rule.SameGroups`), differ at most in how the rules of different predecessors are interleaved. The
check goes through all rules in one pass and stops at the first fault, and the engine goes through
the groups of the rules in an order of its own; but both keep apart what they gather for different
predecessors. So the check accepts both lists or neither, though it may report another fault, and
the indices hold the same alternatives. `Grammar.interleaving_changes_nothing` concludes that the
engines cannot be told apart by the words that they derive.
-/

namespace GrowthGrammar

/-! ## Lists of rules with the same groups -/

namespace Rule

/-- Both lists have the same rules for every predecessor, in the same order. -/
def SameGroups (rules rules' : List Rule) : Prop :=
  ∀ c, rules.filter (·.predecessor == c) = rules'.filter (·.predecessor == c)

variable {rules rules' : List Rule}

theorem SameGroups.symm (h : SameGroups rules rules') : SameGroups rules' rules :=
  fun c => (h c).symm

/-- Neighbouring rules of different predecessors can change places. -/
theorem SameGroups.swap {r s : Rule} (hne : r.predecessor ≠ s.predecessor) (u v : List Rule) :
    SameGroups (u ++ r :: s :: v) (u ++ s :: r :: v) := by
  intro c
  rw [List.filter_append, List.filter_append]
  congr 1
  by_cases hr : r.predecessor = c
  · have hs : s.predecessor ≠ c := fun hs => hne (hr.trans hs.symm)
    simp [hr, hs]
  · simp [List.filter_cons, hr]

/-- A rule is found among the rules of its own predecessor, so both lists have the same rules. -/
theorem SameGroups.mem_iff (h : SameGroups rules rules') {r : Rule} : r ∈ rules ↔ r ∈ rules' := by
  have hmem : ∀ rules : List Rule,
      r ∈ rules.filter (·.predecessor == r.predecessor) ↔ r ∈ rules := by
    intro rules
    simp
  rw [← hmem rules, h, hmem rules']

/-- The totals of the check are those of the groups, so it does not matter how they are
interleaved. -/
theorem SameGroups.acceptable (h : SameGroups rules rules') (ha : Acceptable rules) :
    Acceptable rules' where
  weight r hr := ha.weight r (h.mem_iff.2 hr)
  predecessor r hr := ha.predecessor r (h.mem_iff.2 hr)
  total c t ht := ha.total c t (h c ▸ ht)

theorem SameGroups.acceptable_iff (h : SameGroups rules rules') :
    Acceptable rules ↔ Acceptable rules' :=
  ⟨h.acceptable, h.symm.acceptable⟩

end Rule

/-! ## Grammars with the same groups -/

namespace Grammar

/-- A grammar that is accepted is made of what is asked for. -/
theorem new?_eq_ok {start : Word} {rules : List Rule} {generations : ℕ} {g : Grammar}
    (h : new? start rules generations = .ok g) :
    g.start = start ∧ g.rules = rules ∧ g.generations = generations := by
  unfold new? at h
  split at h
  · cases h
    exact ⟨rfl, rfl, rfl⟩
  · cases h

/-- What a grammar is made of is accepted again. -/
theorem new?_self (g : Grammar) : new? g.start g.rules g.generations = .ok g := by
  unfold new?
  split
  · rfl
  · next e he => cases g.faultless.symm.trans he

/-- Some grammar is accepted exactly if the rules are acceptable. -/
theorem accepted_iff {start : Word} {rules : List Rule} {generations : ℕ} :
    (∃ g, new? start rules generations = .ok g) ↔ Rule.Acceptable rules := by
  rw [← @exists_new?_iff start rules generations]
  exact exists_congr fun g => ⟨fun h => ⟨h, new?_eq_ok h⟩, And.left⟩

variable {g h : Grammar}

/-- Grammars with the same groups have the same rules for all symbols, so for those that occur. -/
theorem sameReached_of_sameGroups (hstart : h.start = g.start)
    (hrules : Rule.SameGroups g.rules h.rules) : g.SameReached h where
  start := hstart
  rulesFor c _ := (hrules c).symm

/-- An index holds what the rules of a predecessor say and nothing else, so grammars with the same
groups have indices that cannot be told apart. -/
theorem Indexes.getElem?_eq {index index' : RuleIndex} (hindex : g.Indexes index)
    (hindex' : h.Indexes index') (hrules : Rule.SameGroups g.rules h.rules) (c : Symbol) :
    index[c]? = index'[c]? := by
  have hsame : g.rulesFor c = h.rulesFor c := hrules c
  by_cases hc : g.rulesFor c = []
  · rw [hindex.none_of_nil c hc, hindex'.none_of_nil c (hsame ▸ hc)]
  · obtain ⟨a, ha, hget⟩ := hindex.some_of_ne_nil c hc
    obtain ⟨a', ha', hget'⟩ := hindex'.some_of_ne_nil c (hsame ▸ hc)
    rw [weightedFor_eq_map, hsame, ← weightedFor_eq_map] at ha
    rw [hget, hget', Except.ok.inj (ha.symm.trans ha')]

end Grammar

/-! ## Engines of grammars with the same groups -/

namespace Engine

/-- Both engines have the same start word, groups, number of generations and seed. They may have
made different calls. -/
structure SameGroups (e f : Engine) : Prop where
  start : f.grammar.start = e.grammar.start
  rules : Rule.SameGroups e.grammar.rules f.grammar.rules
  generations : f.grammar.generations = e.grammar.generations
  seed : f.seed = e.seed

namespace SameGroups

variable {ρ : Type} [RandomBits ρ] {e f : Engine}

/-- A history of calls counts its expansions, which do not matter here. -/
theorem foldl_after (h : e.SameGroups f) (past past' : List Call) :
    (past.foldl after e).SameGroups (past'.foldl after f) := by
  rw [foldl_after_eq, foldl_after_eq]
  exact ⟨h.start, h.rules, h.generations, h.seed⟩

/-- Every word is derived alike, draw by draw. -/
theorem derive_eq (h : e.SameGroups f) : f.derive (ρ := ρ) = e.derive := by
  have hreplace : f.replace (ρ := ρ) = e.replace := by
    funext c
    rw [replace, replace, e.indexes.getElem?_eq f.indexes h.rules c]
  funext w
  rw [derive, derive, hreplace]

/-- The start word is derived alike for all generations. -/
theorem expandWith_eq (h : e.SameGroups f) : f.expandWith (ρ := ρ) = e.expandWith :=
  (Grammar.sameReached_of_sameGroups h.start h.rules).expandWith_eq h.generations

/-- Expansions with the same number make the same word. The generators that the caller supplies
matter for the seed `entropy` alone. -/
theorem expand_fst_eq (h : e.SameGroups f) (hcalls : f.calls = e.calls) {fresh fresh' : Generator}
    (hfresh : e.seed = .entropy → fresh' = fresh) : (f.expand fresh').1 = (e.expand fresh).1 := by
  refine expand_fst_of_expandWith h.expandWith_eq ?_
  rw [h.seed, hcalls]
  exact ExpansionSeed.generator_congr hfresh e.calls

end SameGroups

end Engine

namespace Grammar

/-- Only the order of the rules within one predecessor matters. Of two lists of rules with the same
groups both make a grammar, or neither does. If both do, their indices hold the same alternatives,
in whatever order either goes through its groups. Their engines derive every word, and on a
generator of the caller's expand, to the same word and leave the generator in the same state,
whatever calls were made on them before; after equally many expansions the next one makes the same
word. -/
theorem interleaving_changes_nothing {rules rules' : List Rule} (h : Rule.SameGroups rules rules')
    (start : Word) (generations : ℕ) :
    ((∃ g, new? start rules generations = .ok g) ↔ ∃ g, new? start rules' generations = .ok g) ∧
    ∀ g g', new? start rules generations = .ok g → new? start rules' generations = .ok g' →
      (∀ groups groups', groups.Perm (RuleIndex.groupRules rules).toList →
        groups'.Perm (RuleIndex.groupRules rules').toList →
        ∃ index index', RuleIndex.ofGroups? groups = .ok index ∧
          RuleIndex.ofGroups? groups' = .ok index' ∧ ∀ c : Symbol, index[c]? = index'[c]?) ∧
      ∀ seed, ∃ e f, Engine.new? g seed = .ok e ∧ Engine.new? g' seed = .ok f ∧
        ∀ past past' : List Engine.Call,
          let e := past.foldl Engine.after e
          let f := past'.foldl Engine.after f
          (∀ {ρ : Type} [RandomBits ρ] w (rng : ρ), f.derive w rng = e.derive w rng) ∧
          (∀ {ρ : Type} [RandomBits ρ] (rng : ρ), f.expandWith rng = e.expandWith rng) ∧
          (past'.countP (·.counts) = past.countP (·.counts) →
            ∀ fresh fresh', (seed = .entropy → fresh' = fresh) →
              (f.expand fresh').1 = (e.expand fresh).1) := by
  refine ⟨by rw [accepted_iff, accepted_iff, h.acceptable_iff], fun g g' hg hg' => ?_⟩
  obtain ⟨rfl, rfl, rfl⟩ := new?_eq_ok hg
  obtain ⟨hstart, rfl, hgenerations⟩ := new?_eq_ok hg'
  refine ⟨fun groups groups' hperm hperm' => ?_, fun seed => ?_⟩
  · obtain ⟨index, hindex, hindexes⟩ := g.exists_index_of_perm hperm
    obtain ⟨index', hindex', hindexes'⟩ := g'.exists_index_of_perm hperm'
    exact ⟨index, index', hindex, hindex', hindexes.getElem?_eq hindexes' h⟩
  · obtain ⟨e, he, rfl, rfl, hcalls⟩ := Engine.exists_new? g seed
    obtain ⟨f, hf, rfl, hseed, hcalls'⟩ := Engine.exists_new? g' e.seed
    refine ⟨e, f, he, hf, fun past past' => ?_⟩
    have hengines : e.SameGroups f := ⟨hstart, h, hgenerations, hseed⟩
    have hlater := hengines.foldl_after past past'
    refine ⟨?_, ?_, fun hcount fresh fresh' hfresh => ?_⟩
    · intro ρ _ w rng
      rw [hlater.derive_eq]
    · intro ρ _ rng
      rw [hlater.expandWith_eq]
    · refine hlater.expand_fst_eq ?_ fun hentropy => hfresh ?_
      · rw [Engine.foldl_after_eq, Engine.foldl_after_eq, hcalls, hcalls', hcount]
      · rwa [Engine.foldl_after_eq] at hentropy

/-- The rules of one symbol can be put together, before the rule that stands between them. -/
theorem interleaving_changes_nothing_swap :
    ∃ g, new? ['A'] [⟨'A', ['A', 'B'], 1⟩, ⟨'A', ['B'], 3⟩, ⟨'B', ['A'], 1⟩] 3 = .ok g ∧
      ∃ e f, Engine.new? (Engine.interleavedGrammar.withGenerations 3) (.perCall 5) = .ok e ∧
        Engine.new? g (.perCall 5) = .ok f ∧
        (∀ rng : Generator, f.derive ['A', 'B'] rng = e.derive ['A', 'B'] rng) ∧
        ∀ rng rng', ((f.expand rng').2.expand rng').1 = ((e.expand rng).2.expand rng).1 := by
  have hswap : Rule.SameGroups Engine.interleavedGrammar.rules
      [⟨'A', ['A', 'B'], 1⟩, ⟨'A', ['B'], 3⟩, ⟨'B', ['A'], 1⟩] :=
    .swap (by decide) [⟨'A', ['A', 'B'], 1⟩] []
  have hself := new?_self (Engine.interleavedGrammar.withGenerations 3)
  obtain ⟨haccepted, hsame⟩ := interleaving_changes_nothing hswap ['A'] 3
  obtain ⟨g, hg⟩ := haccepted.1 ⟨_, hself⟩
  obtain ⟨e, f, he, hf, halike⟩ := (hsame _ g hself hg).2 (.perCall 5)
  refine ⟨g, hg, e, f, he, hf, (halike [] []).1 _, fun rng rng' => ?_⟩
  exact (halike [.expand rng] [.expand rng']).2.2 rfl rng rng' (fun h => by cases h)

end Grammar

end GrowthGrammar
