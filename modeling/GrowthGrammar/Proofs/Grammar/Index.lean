import GrowthGrammar.Grammar.Engine
import GrowthGrammar.Proofs.Grammar.Weights

/-!
# The index of a grammar

The index groups the rules by their predecessors. `getElem?_groupRules` says that the group of a
predecessor holds its rules in their order, however they are interleaved with other rules;
`Grammar.exists_index_of_perm` concludes that every grammar has an index, in whatever order the
groups are gone through, which holds for every predecessor the alternatives made of its own rules
and nothing for the other symbols.
-/

namespace GrowthGrammar

namespace RuleIndex

/-- The weighted replacements that some rules have for a predecessor. -/
def weightedFor (rules : List Rule) (c : Symbol) : List (Float × Word) :=
  (rules.filter (·.predecessor == c)).map fun r => (r.weight, r.replacement)

theorem weightedFor_cons_self (r : Rule) (rules : List Rule) :
    weightedFor (r :: rules) r.predecessor =
      (r.weight, r.replacement) :: weightedFor rules r.predecessor := by
  simp [weightedFor]

theorem weightedFor_cons_of_ne {r : Rule} {c : Symbol} (h : r.predecessor ≠ c)
    (rules : List Rule) : weightedFor (r :: rules) c = weightedFor rules c := by
  simp [weightedFor, h]

/-- Grouping further rules appends their replacements to the groups of their predecessors and
leaves the other groups as they are. -/
theorem getElem?_foldl_group (groups : Std.HashMap Symbol (List (Float × Word)))
    (rules : List Rule) (c : Symbol) :
    (rules.foldl (fun groups r => groups.insert r.predecessor
      (groups.getD r.predecessor [] ++ [(r.weight, r.replacement)])) groups)[c]? =
        if weightedFor rules c = [] then groups[c]?
        else some (groups.getD c [] ++ weightedFor rules c) := by
  induction rules generalizing groups with
  | nil => rfl
  | cons r rules ih =>
    rw [List.foldl_cons, ih]
    by_cases hc : r.predecessor = c
    · subst hc
      rw [weightedFor_cons_self, if_neg (List.cons_ne_nil _ _), Std.HashMap.getD_insert_self,
        Std.HashMap.getElem?_insert_self]
      split_ifs with h
      · rw [h]
      · simp
    · have hbeq : ¬ (r.predecessor == c) = true := by simpa using hc
      rw [weightedFor_cons_of_ne hc, Std.HashMap.getD_insert, Std.HashMap.getElem?_insert,
        if_neg hbeq, if_neg hbeq]

/-- The group of a predecessor holds its rules in their order; other symbols have no group. -/
theorem getElem?_groupRules (rules : List Rule) (c : Symbol) :
    (groupRules rules)[c]? =
      if weightedFor rules c = [] then none else some (weightedFor rules c) := by
  rw [groupRules, getElem?_foldl_group, Std.HashMap.getElem?_empty, Std.HashMap.getD_empty,
    List.nil_append]

/-- Further groups that can be drawn from are put into the index under their symbols, and leave the
other symbols as they are. -/
theorem foldlM_groups {groups : List (Symbol × List (Float × Word))} (index : RuleIndex)
    (hdistinct : groups.Pairwise fun p q => p.1 ≠ q.1)
    (hok : ∀ p ∈ groups, ∃ a, Alternatives.ofList? p.2 = .ok a) :
    ∃ index', (groups.foldlM (fun index (c, weighted) =>
        match Alternatives.ofList? weighted with
        | .ok alternatives => Except.ok (index.insert c alternatives)
        | .error cause => .error (GrammarError.weights c cause)) index) = .ok index' ∧
      (∀ p ∈ groups, ∃ a, Alternatives.ofList? p.2 = .ok a ∧ index'[p.1]? = some a) ∧
      ∀ c, (∀ p ∈ groups, p.1 ≠ c) → index'[c]? = index[c]? := by
  induction groups generalizing index with
  | nil => exact ⟨index, rfl, by simp, fun _ _ => rfl⟩
  | cons p groups ih =>
    obtain ⟨c, weighted⟩ := p
    obtain ⟨hhead, htail⟩ := List.pairwise_cons.1 hdistinct
    obtain ⟨a, ha⟩ := hok _ List.mem_cons_self
    obtain ⟨index', hindex, hmem, hother⟩ :=
      ih (index.insert c a) htail fun q hq => hok q (List.mem_cons_of_mem _ hq)
    refine ⟨index', ?_, ?_, ?_⟩
    · dsimp only at ha
      rw [List.foldlM_cons]
      dsimp only
      rw [ha]
      exact hindex
    · rintro q (_ | ⟨_, hq⟩)
      · refine ⟨a, ha, ?_⟩
        rw [hother c fun q hq => (hhead q hq).symm, Std.HashMap.getElem?_insert_self]
      · exact hmem q hq
    · intro d hd
      have hne : c ≠ d := hd _ List.mem_cons_self
      rw [hother d fun q hq => hd q (List.mem_cons_of_mem _ hq), Std.HashMap.getElem?_insert,
        if_neg (by simpa using hne)]

end RuleIndex

open RuleIndex

namespace Alternatives

variable {weighted : List (Float × Word)}

/-- A single replacement has no choice. -/
theorem ofList?_of_length_le_one (h : weighted.length ≤ 1) :
    ofList? weighted = .ok ⟨weighted.map (·.2), none⟩ := by
  rw [ofList?, if_neg (Nat.not_lt.2 h)]

/-- Several replacements have the choice of their weights. -/
theorem ofList?_of_one_lt_length (h : 1 < weighted.length) {choice : WeightedIndex}
    (hchoice : WeightedIndex.ofWeights? (weighted.map (·.1)) = .ok choice) :
    ofList? weighted = .ok ⟨weighted.map (·.2), some choice⟩ := by
  rw [ofList?, if_pos h, hchoice]
  rfl

/-- The alternatives are the replacements of some rules, with the choice of their weights if there
are several ones. -/
structure MadeOf (rules : List Rule) (a : Alternatives) : Prop where
  replacements : a.replacements = rules.map (·.replacement)
  single : rules.length ≤ 1 → a.choice? = none
  several : 1 < rules.length → ∃ choice, a.choice? = some choice ∧
    WeightedIndex.ofWeights? (rules.map (·.weight)) = .ok choice

theorem map_weight_ne_nil {rules : List Rule} (h : 1 < rules.length) :
    rules.map (·.weight) ≠ [] := by
  rw [ne_eq, List.map_eq_nil_iff]
  exact List.ne_nil_of_length_pos (Nat.zero_lt_of_lt h)

/-- Rules whose weights can be drawn from make alternatives. -/
theorem exists_madeOf {rules : List Rule} (h : Drawable (rules.map (·.weight))) :
    ∃ a, ofList? (rules.map fun r => (r.weight, r.replacement)) = .ok a ∧ a.MadeOf rules := by
  let weighted := rules.map fun r => (r.weight, r.replacement)
  have hlength : weighted.length = rules.length := List.length_map _
  have hreplacements : weighted.map (·.2) = rules.map (·.replacement) := List.map_map
  have hweights : weighted.map (·.1) = rules.map (·.weight) := List.map_map
  rcases Nat.lt_or_ge 1 rules.length with hseveral | hsingle
  · obtain ⟨choice, hchoice, -⟩ := WeightedIndex.ofWeights?_eq_ok (map_weight_ne_nil hseveral) h
    refine ⟨_, ofList?_of_one_lt_length (hlength.symm ▸ hseveral) (hweights ▸ hchoice),
      hreplacements, fun hle => ?_, fun _ => ⟨choice, rfl, hchoice⟩⟩
    exact absurd hseveral (Nat.not_lt.2 hle)
  · refine ⟨_, ofList?_of_length_le_one (hlength.symm ▸ hsingle), hreplacements, fun _ => rfl,
      fun hlt => ?_⟩
    exact absurd hlt (Nat.not_lt.2 hsingle)

namespace MadeOf

variable {ρ : Type} [RandomBits ρ] {rules : List Rule} {a : Alternatives} (hmade : a.MadeOf rules)

include hmade

/-- The number of a single rule is zero, without a draw. -/
theorem number_of_length_le_one (h : rules.length ≤ 1) (rng : ρ) : a.number rng = (0, rng) := by
  rw [number, hmade.single h]
  rfl

/-- The replacement of the rule is chosen whose number is drawn. -/
theorem choose_eq {rng : ρ} {r : Rule} (hr : rules[(a.number rng).1]? = some r) :
    a.choose rng = (r.replacement, (a.number rng).2) := by
  have hchoose : a.choose rng =
      (a.replacements.getD (a.number rng).1 [], (a.number rng).2) := rfl
  rw [hchoose, hmade.replacements, List.getD_eq_getElem?_getD, List.getElem?_map, hr]
  rfl

variable (hdrawable : Drawable (rules.map (·.weight)))

include hdrawable

/-- The number of one of several rules is the one that a draw selects, which takes one word. -/
theorem number_of_one_lt_length (h : 1 < rules.length) (rng : ρ) :
    let weights := rules.map (·.weight)
    let x := (Uniform.halfOpen 0 (totalWeight weights)).valueOf (unitOfWord (RandomBits.next rng).1)
    a.number rng = (drawnIndex weights x, (RandomBits.next rng).2) := by
  intro weights x
  obtain ⟨choice, hsome, hchoice⟩ := hmade.several h
  rw [number, hsome]
  exact WeightedIndex.sample_eq (map_weight_ne_nil h) hdrawable hchoice rng

/-- A choice draws from the interval that ends with the total of the weights. -/
theorem sampler_eq {choice : WeightedIndex} (hsome : a.choice? = some choice) :
    choice.sampler = Uniform.halfOpen 0 (totalWeight (rules.map (·.weight))) := by
  have hseveral : 1 < rules.length := Nat.lt_of_not_le fun hle =>
    Option.some_ne_none choice (hsome.symm.trans (hmade.single hle))
  obtain ⟨choice', hsome', hchoice⟩ := hmade.several hseveral
  obtain rfl : choice' = choice := Option.some.inj (hsome'.symm.trans hsome)
  obtain ⟨drawn, hdrawn, -, hsampler⟩ :=
    WeightedIndex.ofWeights?_eq_ok (map_weight_ne_nil hseveral) hdrawable
  obtain rfl : drawn = choice' := Except.ok.inj (hdrawn.symm.trans hchoice)
  exact hsampler

/-- The number that is drawn is that of a rule. -/
theorem number_lt_length (hne : rules ≠ []) (rng : ρ) : (a.number rng).1 < rules.length := by
  rcases Nat.lt_or_ge 1 rules.length with hseveral | hsingle
  · rw [hmade.number_of_one_lt_length hdrawable hseveral, ← List.length_map (·.weight)]
    exact drawnIndex_lt (mt List.map_eq_nil_iff.1 hne) _
  · rw [hmade.number_of_length_le_one hsingle]
    exact List.length_pos_iff.2 hne

end MadeOf

end Alternatives

namespace Grammar

/-- The weighted replacements of a predecessor in the order of its rules. -/
def weightedFor (g : Grammar) (c : Symbol) : List (Float × Word) :=
  RuleIndex.weightedFor g.rules c

theorem weightedFor_eq_map (g : Grammar) (c : Symbol) :
    g.weightedFor c = (g.rulesFor c).map fun r => (r.weight, r.replacement) := rfl

theorem weightedFor_eq_nil_iff {g : Grammar} {c : Symbol} :
    g.weightedFor c = [] ↔ g.rulesFor c = [] := List.map_eq_nil_iff

/-- The index of a grammar holds for every predecessor the alternatives made of its rules, and
nothing for a symbol without rules. -/
structure Indexes (g : Grammar) (index : RuleIndex) : Prop where
  none_of_nil : ∀ c, g.rulesFor c = [] → index[c]? = none
  some_of_ne_nil : ∀ c, g.rulesFor c ≠ [] →
    ∃ a, Alternatives.ofList? (g.weightedFor c) = .ok a ∧ index[c]? = some a

/-- Every grammar has an index, in whatever order the groups of its rules are gone through. -/
theorem exists_index_of_perm (g : Grammar) {groups : List (Symbol × List (Float × Word))}
    (hperm : groups.Perm (groupRules g.rules).toList) :
    ∃ index, RuleIndex.ofGroups? groups = .ok index ∧ g.Indexes index := by
  have hgroup : ∀ c weighted, (c, weighted) ∈ groups ↔
      g.rulesFor c ≠ [] ∧ weighted = g.weightedFor c := by
    intro c weighted
    rw [hperm.mem_iff, Std.HashMap.mem_toList_iff_getElem?_eq_some, getElem?_groupRules]
    show (if g.weightedFor c = [] then none else some (g.weightedFor c)) = some weighted ↔ _
    rw [ne_eq, ← weightedFor_eq_nil_iff]
    split_ifs with h
    · simp [h]
    · simp [h, eq_comm]
  have hok : ∀ p ∈ groups, ∃ a, Alternatives.ofList? p.2 = .ok a := by
    rintro ⟨c, weighted⟩ hp
    obtain ⟨hne, rfl⟩ := (hgroup c weighted).1 hp
    obtain ⟨a, ha, -⟩ := Alternatives.exists_madeOf (g.drawable_weightsFor c)
    exact ⟨a, ha⟩
  have hdistinct : (groupRules g.rules).toList.Pairwise fun p q => p.1 ≠ q.1 :=
    Std.HashMap.distinct_keys_toList.imp fun h => by simpa using h
  obtain ⟨index, hindex, hmem, hother⟩ :=
    foldlM_groups ∅ (hperm.symm.pairwise hdistinct Ne.symm) hok
  refine ⟨index, hindex, fun c hc => ?_, fun c hc => ?_⟩
  · rw [hother c, Std.HashMap.getElem?_empty]
    rintro ⟨d, weighted⟩ hp rfl
    exact ((hgroup d weighted).1 hp).1 hc
  · exact hmem (c, g.weightedFor c) ((hgroup c _).2 ⟨hc, rfl⟩)

/-- Every grammar has an index. -/
theorem exists_index (g : Grammar) :
    ∃ index, RuleIndex.ofRules? g.rules = .ok index ∧ g.Indexes index :=
  g.exists_index_of_perm (.refl _)

end Grammar

/-- The index of an engine is the one of its grammar. -/
theorem Engine.indexes (e : Engine) : e.grammar.Indexes e.index := by
  obtain ⟨index, hindex, h⟩ := e.grammar.exists_index
  obtain rfl : index = e.index := Except.ok.inj (hindex.symm.trans e.indexed)
  exact h

/-- An engine has alternatives for every symbol with rules, and they are made of the rules. -/
theorem Engine.exists_alternatives (e : Engine) {c : Symbol} (hc : e.grammar.rulesFor c ≠ []) :
    ∃ a, e.index[c]? = some a ∧ a.MadeOf (e.grammar.rulesFor c) := by
  obtain ⟨a, ha, hget⟩ := e.indexes.some_of_ne_nil c hc
  obtain ⟨a', ha', hmade⟩ := Alternatives.exists_madeOf (e.grammar.drawable_weightsFor c)
  obtain rfl : a' = a := Except.ok.inj (ha'.symm.trans ha)
  exact ⟨a', hget, hmade⟩

/-- Every grammar has an engine, which has made no call yet. -/
theorem Engine.exists_new? (g : Grammar) (seed : ExpansionSeed) :
    ∃ e, Engine.new? g seed = .ok e ∧ e.grammar = g ∧ e.seed = seed ∧ e.calls = 0 := by
  obtain ⟨index, hindex, -⟩ := g.exists_index
  unfold Engine.new?
  split
  · next index' h => exact ⟨_, rfl, rfl, rfl, rfl⟩
  · next err h => cases hindex.symm.trans h

end GrowthGrammar
