import GrowthGrammar.Proofs.Grammar.Index

/-!
# Accepted grammars have working engines

The check of a grammar and the engine sum up the weights apart from one another: the check for all
predecessors at once in one pass over the rules, the engine for the group of each predecessor.
`Rule.Acceptable` says without the pass which rules the check accepts (`Grammar.exists_new?_iff`).
The engine draws the number of a replacement and looks it up, with the empty word in place of one
that is not there; `Alternatives.choose?` fails instead, and `Engine.derive?` and `Engine.expand?`
derive by it. `Grammar.working_engine` says that every grammar is acceptable, has an engine, whose
samplers have intervals that can be drawn from, and that every number is in range, so that no
look-up fails.
-/

namespace GrowthGrammar

open Double

/-! ## What the check accepts -/

namespace Rule

/-- Rules that can be drawn from: their weights are positive and finite, none replaces a branch
marker, and the weights of no predecessor add up beyond the greatest total, in the order of its
rules. -/
structure Acceptable (rules : List Rule) : Prop where
  weight : ∀ r ∈ rules, 0 < r.weight ∧ r.weight.isFinite = true
  predecessor : ∀ r ∈ rules, Symbol.isMarker r.predecessor = false
  total : ∀ c, ∀ t ∈ ((rules.filter (·.predecessor == c)).map (·.weight)).scanl (· + ·) 0,
    t ≤ maxTotalWeight

/-- A finite total that is not beyond the greatest one is at most the greatest one. -/
theorem le_maxTotalWeight_iff {t : Float} (ht : t.isFinite = true) :
    t ≤ maxTotalWeight ↔ ¬ t > maxTotalWeight := by
  have hmax := isNaN_of_isFinite isFinite_maxTotalWeight
  have hnan := isNaN_of_isFinite ht
  rw [le_iff_value hnan hmax, gt_iff_lt, lt_iff_value hmax hnan, not_lt]

/-- The check accepts exactly the acceptable rules. -/
theorem firstFault?_empty_eq_none_iff {rules : List Rule} :
    firstFault? ∅ rules = none ↔ Acceptable rules := by
  have hzero : ∀ c, (∅ : Std.HashMap Symbol Float).getD c 0 = 0 := fun _ => Std.HashMap.getD_empty
  rw [firstFault?_eq_none_iff]
  simp only [hzero]
  constructor
  · rintro ⟨hrules, htotals⟩
    refine ⟨fun r hr => (hrules r hr).1, fun r hr => (hrules r hr).2, fun c t ht => ?_⟩
    have hpos := value_pos_of_mem_weights (fun r hr => (hrules r hr).1) c
    have hfinite := isFinite_scanl isFinite_zero value_zero.ge hpos (htotals c) t ht
    rcases mem_scanl.1 ht with rfl | ht
    · decide
    · exact (le_maxTotalWeight_iff hfinite).2 (htotals c t ht)
  · intro h
    refine ⟨fun r hr => ⟨h.weight r hr, h.predecessor r hr⟩, fun c t ht hgt => ?_⟩
    have hle := le_iff.1 (h.total c t (mem_scanl.2 (.inr ht)))
    exact not_lt_of_ge hle.2.2 (lt_iff.1 hgt).2.2

end Rule

/-- A rule with the least weight, and one that brings the total to the greatest one. -/
example : Rule.Acceptable
    [⟨'A', ['B'], Float.ofBits 1⟩, ⟨'B', [], 1⟩, ⟨'A', ['A'], maxTotalWeight⟩] := by
  rw [← Rule.firstFault?_empty_eq_none_iff]
  simp only [Rule.firstFault?_cons_eq_none_iff, Rule.fault?_eq_none_iff, Std.HashMap.getD_insert,
    Std.HashMap.getD_empty]
  exact ⟨by decide, by decide, by decide +kernel, rfl⟩

namespace Grammar

/-- Acceptable rules make a grammar, and no other rules do. -/
theorem exists_new?_iff {start : Word} {rules : List Rule} {generations : ℕ} :
    (∃ g, new? start rules generations = .ok g ∧ g.start = start ∧ g.rules = rules ∧
      g.generations = generations) ↔ Rule.Acceptable rules := by
  rw [← Rule.firstFault?_empty_eq_none_iff]
  constructor
  · rintro ⟨g, -, -, rfl, -⟩
    exact g.faultless
  · intro h
    unfold new?
    split
    · exact ⟨_, rfl, rfl, rfl, rfl⟩
    · next e he => cases h.symm.trans he

/-- The rules of every grammar are acceptable. -/
theorem acceptable (g : Grammar) : Rule.Acceptable g.rules :=
  Rule.firstFault?_empty_eq_none_iff.1 g.faultless

end Grammar

/-! ## The total of a predecessor -/

/-- The values of running totals depend on the value of the first one only. -/
theorem map_value_scanl_congr {first first' : Float} {weights : List Float}
    (hvalue : value first = value first') (hpos : ∀ w ∈ weights, w.isFinite = true)
    (hfinite : ∀ t ∈ weights.scanl (· + ·) first, t.isFinite = true)
    (hfinite' : ∀ t ∈ weights.scanl (· + ·) first', t.isFinite = true) :
    (weights.scanl (· + ·) first).map value = (weights.scanl (· + ·) first').map value := by
  induction weights generalizing first first' with
  | nil => simp [hvalue]
  | cons w weights ih =>
    rw [List.scanl_cons] at hfinite hfinite' ⊢
    have hw := hpos w List.mem_cons_self
    have hsum := value_add (hfinite first List.mem_cons_self) hw
    have hsum' := value_add (hfinite' first' List.mem_cons_self) hw
    rw [List.scanl_cons, List.map_cons, List.map_cons, hvalue]
    refine congrArg _ (ih ?_ (fun v hv => hpos v (List.mem_cons_of_mem w hv))
      (fun t ht => hfinite t (List.mem_cons_of_mem _ ht))
      fun t ht => hfinite' t (List.mem_cons_of_mem _ ht))
    rw [hsum.2, hsum'.2, hvalue]

namespace Grammar

/-- The totals of the engine have the values of those of the check, so they are not beyond the
greatest one either. -/
theorem le_maxTotalWeight_of_mem (g : Grammar) {c : Symbol} {t : Float}
    (ht : t ∈ runningTotals (g.weightsFor c)) : t ≤ maxTotalWeight := by
  have htotal : ∀ t ∈ (g.weightsFor c).scanl (· + ·) 0, t ≤ maxTotalWeight := g.acceptable.total c
  have hdrawable := g.drawable_weightsFor c
  have hmax := isNaN_of_isFinite isFinite_maxTotalWeight
  cases hws : g.weightsFor c with
  | nil =>
    rw [hws] at ht
    cases ht
  | cons w ws =>
    rw [hws] at ht hdrawable htotal
    rw [List.scanl_cons] at htotal
    obtain ⟨hw, hws⟩ := List.forall_mem_cons.1 hdrawable.positive
    obtain ⟨hnan, hadd⟩ := value_add isFinite_zero hw.1
    have hfirst : value w = value (0 + w) := by
      rw [hadd, value_zero, zero_add, nearest_value]
    have hsum : (0 + w).isFinite = true := isFinite_congr hnan hw.1 hfirst.symm
    have hfinite : ∀ u ∈ ws.scanl (· + ·) (0 + w), u.isFinite = true :=
      isFinite_scanl_congr hfirst hsum (fun v hv => (hws v hv).1) hdrawable.finite
    have hvalues := map_value_scanl_congr hfirst (fun v hv => (hws v hv).1) hdrawable.finite hfinite
    obtain ⟨u, hu, hvalue⟩ := List.mem_map.1 (hvalues ▸ List.mem_map_of_mem ht)
    have hle := htotal u (List.mem_cons_of_mem _ hu)
    rw [le_iff_value (isNaN_of_isFinite (hdrawable.finite t ht)) hmax, ← hvalue]
    exact (le_iff.1 hle).2.2

/-- The total that the engine draws from is positive, finite and not beyond the greatest one. -/
theorem totalWeight_range (g : Grammar) {c : Symbol} (h : g.rulesFor c ≠ []) :
    0 < totalWeight (g.weightsFor c) ∧ totalWeight (g.weightsFor c) ≤ maxTotalWeight ∧
      (totalWeight (g.weightsFor c)).isFinite = true ∧
      (totalWeight (g.weightsFor c) - 0).isFinite = true := by
  have hne : g.weightsFor c ≠ [] := by simpa [weightsFor] using h
  obtain ⟨hfinite, hpos⟩ := (g.drawable_weightsFor c).totalWeight_pos hne
  obtain ⟨hnan, hwidth⟩ := value_sub hfinite isFinite_zero
  rw [value_zero, sub_zero, nearest_value] at hwidth
  refine ⟨?_, g.le_maxTotalWeight_of_mem (totalWeight_mem hne), hfinite,
    isFinite_congr hnan hfinite hwidth⟩
  exact (lt_iff_value rfl (isNaN_of_isFinite hfinite)).2 (value_zero.trans_lt hpos)

end Grammar

/-! ## Looking up by number -/

section
variable {ρ : Type} [RandomBits ρ]

namespace Alternatives

/-- Chooses a replacement by its number. There is none if the number is out of range. -/
def choose? (a : Alternatives) : StateT ρ Option Word := fun rng =>
  let (k, rng) := a.number rng
  a.replacements[k]?.map (·, rng)

/-- No number is out of range. -/
theorem MadeOf.choose?_eq {rules : List Rule} {a : Alternatives} (hmade : a.MadeOf rules)
    (hdrawable : Drawable (rules.map (·.weight))) (hne : rules ≠ []) (rng : ρ) :
    a.choose? rng = some (a.choose rng) := by
  have hr := List.getElem?_eq_getElem (hmade.number_lt_length hdrawable hne rng)
  have hchoose : a.choose? rng =
      a.replacements[(a.number rng).1]?.map (·, (a.number rng).2) := rfl
  rw [hchoose, hmade.choose_eq hr, hmade.replacements, List.getElem?_map, hr]
  rfl

end Alternatives

namespace Engine

/-- The replacement of a symbol, looked up by its number. -/
def replace? (e : Engine) (c : Symbol) : StateT ρ Option Word :=
  match e.index[c]? with
  | some alternatives => alternatives.choose?
  | none => pure [c]

/-- Replaces every symbol of a word once, by number. -/
def derive? (e : Engine) (w : Word) : StateT ρ Option Word := w.flatMapM e.replace?

/-- Derives a word for a number of generations, by number. -/
def deriveTimes? (e : Engine) : ℕ → Word → StateT ρ Option Word
  | 0, w => pure w
  | generations + 1, w => do e.deriveTimes? generations (← e.derive? w)

/-- Derives the start word for the generations of the grammar, by number. -/
def expandWith? (e : Engine) : StateT ρ Option Word :=
  e.deriveTimes? e.grammar.generations e.grammar.start

/-- Derives the start word with a generator that the engine seeds, by number, and counts the
call. -/
def expand? (e : Engine) (fresh : Generator) : Option (Word × Engine) :=
  (e.expandWith? (e.seed.generator fresh e.calls)).map fun (w, _) =>
    (w, { e with calls := e.calls + 1 })

variable (e : Engine)

/-- What the index holds for a symbol is made of the rules of the symbol, and there is one. -/
theorem madeOf_of_index {c : Symbol} {a : Alternatives} (ha : e.index[c]? = some a) :
    e.grammar.rulesFor c ≠ [] ∧ a.MadeOf (e.grammar.rulesFor c) := by
  have hrules : e.grammar.rulesFor c ≠ [] := fun hnil =>
    Option.some_ne_none a (ha.symm.trans (e.indexes.none_of_nil c hnil))
  obtain ⟨a', hget, hmade⟩ := e.exists_alternatives hrules
  obtain rfl : a' = a := Option.some.inj (hget.symm.trans ha)
  exact ⟨hrules, hmade⟩

theorem replace?_eq (c : Symbol) (rng : ρ) : e.replace? c rng = some (e.replace c rng) := by
  rw [replace?, replace]
  cases h : e.index[c]? with
  | none => rfl
  | some a =>
    obtain ⟨hne, hmade⟩ := e.madeOf_of_index h
    exact hmade.choose?_eq (e.grammar.drawable_weightsFor c) hne rng

theorem derive?_eq (w : Word) (rng : ρ) : e.derive? w rng = some (e.derive w rng) := by
  induction w generalizing rng with
  | nil => rfl
  | cons c w ih =>
    have hw : List.flatMapM e.replace? w (e.replace c rng).2 =
        some (List.flatMapM e.replace w (e.replace c rng).2) := ih _
    rw [derive?, derive, List.flatMapM_cons, List.flatMapM_cons]
    simp only [bind, StateT.bind, replace?_eq, Option.bind_some, hw]
    rfl

theorem deriveTimes?_eq (n : ℕ) (w : Word) (rng : ρ) :
    e.deriveTimes? n w rng = some (e.deriveTimes n w rng) := by
  induction n generalizing w rng with
  | zero => rfl
  | succ n ih =>
    rw [deriveTimes?, deriveTimes]
    simp only [bind, StateT.bind, derive?_eq, Option.bind_some, ih]
    rfl

end Engine

end

namespace Engine

variable (e : Engine)

theorem expand?_eq (fresh : Generator) : e.expand? fresh = some (e.expand fresh) := by
  rw [expand?, expandWith?, deriveTimes?_eq]
  rfl

/-- What an engine draws is in range, whatever generator it draws from. -/
structure InRange (e : Engine) : Prop where
  /-- The replacements of a symbol are those of its rules, and there is one. -/
  replacements : ∀ c alternatives, e.index[c]? = some alternatives →
    alternatives.replacements = (e.grammar.rulesFor c).map (·.replacement) ∧
      alternatives.replacements ≠ []
  /-- A draw among several replacements is one from zero to the total of the weights, and this
  interval has an interior and a finite width. -/
  interval : ∀ c alternatives choice, e.index[c]? = some alternatives →
    alternatives.choice? = some choice →
    let total := totalWeight (e.grammar.weightsFor c)
    choice.sampler = Uniform.halfOpen 0 total ∧ 0 < total ∧ total ≤ maxTotalWeight ∧
      total.isFinite = true ∧ (total - 0).isFinite = true
  /-- The number that is drawn is that of a replacement. -/
  number : ∀ (c : Symbol) (alternatives : Alternatives), e.index[c]? = some alternatives →
    ∀ {ρ : Type} [RandomBits ρ] (rng : ρ),
      (alternatives.number rng).1 < alternatives.replacements.length
  /-- So no look-up of a replacement fails when a word is derived. -/
  derive : ∀ {ρ : Type} [RandomBits ρ] w (rng : ρ), e.derive? w rng = some (e.derive w rng)
  /-- Nor when the start word is derived for all generations. -/
  expandWith : ∀ {ρ : Type} [RandomBits ρ] (rng : ρ),
    e.expandWith? rng = some (e.expandWith rng)
  expand : ∀ fresh, e.expand? fresh = some (e.expand fresh)

theorem inRange : e.InRange where
  replacements c a h := by
    obtain ⟨hne, hmade⟩ := e.madeOf_of_index h
    refine ⟨hmade.replacements, ?_⟩
    rw [hmade.replacements]
    exact mt List.map_eq_nil_iff.1 hne
  interval c a choice h hsome := by
    obtain ⟨hne, hmade⟩ := e.madeOf_of_index h
    exact ⟨hmade.sampler_eq (e.grammar.drawable_weightsFor c) hsome,
      e.grammar.totalWeight_range hne⟩
  number c a h := by
    obtain ⟨hne, hmade⟩ := e.madeOf_of_index h
    rw [hmade.replacements, List.length_map]
    exact hmade.number_lt_length (e.grammar.drawable_weightsFor c) hne
  derive := e.derive?_eq
  expandWith := e.deriveTimes?_eq _ _
  expand := e.expand?_eq

end Engine

/-- Rules make a grammar exactly if they are acceptable, so those of every grammar are, also with
another number of generations. Every grammar has an engine for every seed, and whatever was done
with an engine, what it draws is in range: the intervals that it draws from have a positive finite
width, and it never looks up a replacement that is not there. -/
theorem Grammar.working_engine :
    (∀ start rules generations,
      (∃ g, Grammar.new? start rules generations = .ok g ∧ g.start = start ∧ g.rules = rules ∧
        g.generations = generations) ↔ Rule.Acceptable rules) ∧
    (∀ g : Grammar, Rule.Acceptable g.rules ∧
      (∀ generations, Rule.Acceptable (g.withGenerations generations).rules) ∧
      ∀ seed, ∃ e, Engine.new? g seed = .ok e ∧ e.grammar = g ∧ e.seed = seed ∧ e.calls = 0) ∧
    ∀ e : Engine, e.InRange :=
  ⟨fun _ _ _ => Grammar.exists_new?_iff,
    fun g => ⟨g.acceptable, fun generations => (g.withGenerations generations).acceptable,
      Engine.exists_new? g⟩,
    Engine.inRange⟩

end GrowthGrammar
