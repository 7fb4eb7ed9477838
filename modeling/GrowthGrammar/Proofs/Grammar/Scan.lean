import GrowthGrammar.Proofs.Grammar.Index

/-!
# Derivation by a scan of the rules

`Grammar.scan` derives a word with no index: for every symbol it goes through the declared rules,
keeps those of the symbol, and selects one of them by the running totals of their weights.
`Engine.agrees_with_scan` says that the engine of a grammar derives every word just so, draw by
draw and on every generator, and which rule a draw selects.
-/

namespace GrowthGrammar

variable {ρ : Type} [RandomBits ρ]

namespace Grammar

/-- The draw for a symbol: the next word as a value below the total of the weights of its rules. -/
def drawFor (g : Grammar) (c : Symbol) (rng : ρ) : Float :=
  (Uniform.halfOpen 0 (totalWeight (g.weightsFor c))).valueOf (unitOfWord (RandomBits.next rng).1)

/-- The replacement of a symbol. A symbol without rules is kept and a single rule is applied, both
without a draw; of several rules the one is applied whose number is selected by a draw, which takes
one word. -/
def scanSymbol (g : Grammar) (c : Symbol) : StateM ρ Word := fun rng =>
  match g.rulesFor c with
  | [] => ([c], rng)
  | [r] => (r.replacement, rng)
  | r :: rules =>
    let k := drawnIndex (g.weightsFor c) (g.drawFor c rng)
    (((r :: rules).getD k r).replacement, (RandomBits.next rng).2)

/-- The replacements of the symbols of a word from left to right, joined together. -/
def scan (g : Grammar) : Word → StateM ρ Word
  | [] => pure []
  | c :: w => do
    let u ← g.scanSymbol c
    let v ← g.scan w
    return u ++ v

/-- The rest of a word is scanned with the generator that its first symbol leaves. -/
theorem scan_cons (g : Grammar) (c : Symbol) (w : Word) (rng : ρ) :
    g.scan (c :: w) rng =
      ((g.scanSymbol c rng).1 ++ (g.scan w (g.scanSymbol c rng).2).1,
        (g.scan w (g.scanSymbol c rng).2).2) := rfl

variable {g : Grammar} {c : Symbol}

theorem scanSymbol_of_nil (h : g.rulesFor c = []) (rng : ρ) :
    g.scanSymbol c rng = ([c], rng) := by
  simp [scanSymbol, h]

theorem scanSymbol_of_singleton {r : Rule} (h : g.rulesFor c = [r]) (rng : ρ) :
    g.scanSymbol c rng = (r.replacement, rng) := by
  simp [scanSymbol, h]

theorem length_weightsFor (g : Grammar) (c : Symbol) :
    (g.weightsFor c).length = (g.rulesFor c).length := by
  simp [weightsFor]

/-- The number that a draw selects is that of a rule. -/
theorem drawnIndex_lt_length (h : g.rulesFor c ≠ []) (x : Float) :
    drawnIndex (g.weightsFor c) x < (g.rulesFor c).length := by
  rw [← length_weightsFor]
  exact drawnIndex_lt (by simpa [weightsFor] using h) x

/-- Of several rules the one with the selected number is applied. -/
theorem scanSymbol_of_two_le (h : 2 ≤ (g.rulesFor c).length) (rng : ρ) {r : Rule}
    (hr : (g.rulesFor c)[drawnIndex (g.weightsFor c) (g.drawFor c rng)]? = some r) :
    g.scanSymbol c rng = (r.replacement, (RandomBits.next rng).2) := by
  unfold scanSymbol
  match hrules : g.rulesFor c, h, hr with
  | r₁ :: r₂ :: rules, _, hr =>
    simp only
    rw [List.getD_eq_getElem?_getD, hr]
    rfl

/-- Of a grammar a scan of a symbol sees only the rules of the symbol. -/
theorem scanSymbol_congr {h : Grammar} (hrules : h.rulesFor c = g.rulesFor c) :
    (h.scanSymbol c : StateM ρ Word) = g.scanSymbol c := by
  funext rng
  simp only [scanSymbol, drawFor, weightsFor, hrules]

/-- Grammars that have the same rules for the symbols of a word scan it alike. -/
theorem scan_congr {h : Grammar} {w : Word} (hrules : ∀ c ∈ w, h.rulesFor c = g.rulesFor c) :
    (h.scan w : StateM ρ Word) = g.scan w := by
  induction w with
  | nil => rfl
  | cons c w ih =>
    obtain ⟨hc, hw⟩ := List.forall_mem_cons.1 hrules
    rw [scan, scan, scanSymbol_congr hc, ih hw]

end Grammar

namespace Engine

/-- An engine replaces a symbol as the scan does. -/
theorem replace_eq_scanSymbol (e : Engine) (c : Symbol) :
    (e.replace c : StateM ρ Word) = e.grammar.scanSymbol c := by
  funext rng
  by_cases hnil : e.grammar.rulesFor c = []
  · rw [Grammar.scanSymbol_of_nil hnil, replace, e.indexes.none_of_nil c hnil]
    rfl
  · obtain ⟨a, hget, hmade⟩ := e.exists_alternatives hnil
    have hdrawable := e.grammar.drawable_weightsFor c
    have hchoose : e.replace c rng = a.choose rng := by rw [replace, hget]
    -- the rule whose number the engine draws
    obtain ⟨r, hr⟩ : ∃ r, (e.grammar.rulesFor c)[(a.number rng).1]? = some r :=
      ⟨_, List.getElem?_eq_getElem (hmade.number_lt_length hdrawable hnil rng)⟩
    rw [hchoose, hmade.choose_eq hr]
    rcases Nat.lt_or_ge 1 (e.grammar.rulesFor c).length with hseveral | hsingle
    · rw [hmade.number_of_one_lt_length hdrawable hseveral] at hr ⊢
      exact (Grammar.scanSymbol_of_two_le hseveral rng hr).symm
    · obtain ⟨s, hs⟩ := List.length_eq_one_iff.1
        (Nat.le_antisymm hsingle (List.length_pos_iff.2 hnil))
      rw [hmade.number_of_length_le_one hsingle, hs] at hr
      rw [hmade.number_of_length_le_one hsingle, Grammar.scanSymbol_of_singleton hs,
        ← Option.some.inj hr]

/-- An engine derives a word as the scan does. -/
theorem derive_eq_scan (e : Engine) (w : Word) :
    (e.derive w : StateM ρ Word) = e.grammar.scan w := by
  induction w with
  | nil => rfl
  | cons c w ih =>
    rw [derive, List.flatMapM_cons, replace_eq_scanSymbol, ← derive, ih, Grammar.scan]

/-- Every grammar has engines, and they derive every word, on every generator, as the scan of the
declared rules does. The scan keeps a symbol without rules and applies a single rule, both without a
draw. Of several rules it applies the one with the number `drawnIndex` by a draw `x` that takes one
word and lies between zero and the total: the rule whose running total is the first one above `x`.
In exact arithmetic rule number `i` owns the interval between the sum of the weights before it and
the sum up to it. -/
theorem agrees_with_scan (g : Grammar) :
    (∀ seed, ∃ e, Engine.new? g seed = .ok e ∧ e.grammar = g) ∧
    ∀ {ρ : Type} [RandomBits ρ],
    (∀ e : Engine, e.grammar = g → ∀ w (rng : ρ), e.derive w rng = g.scan w rng) ∧
    ∀ c (rng : ρ),
      let rules := g.rulesFor c
      let weights := g.weightsFor c
      let totals := runningTotals weights
      let x :=
        (Uniform.halfOpen 0 (totalWeight weights)).valueOf (unitOfWord (RandomBits.next rng).1)
      (rules = [] → g.scanSymbol c rng = ([c], rng)) ∧
      (∀ r, rules = [r] → g.scanSymbol c rng = (r.replacement, rng)) ∧
      (2 ≤ rules.length →
        0 ≤ x ∧ x < totalWeight weights ∧
        ∃ k, ∃ hk : k < rules.length, ∃ hk' : k < totals.length,
          k = totals.dropLast.countP (· ≤ x) ∧
          (0 :: totals).get ⟨k, Nat.lt_succ_of_lt hk'⟩ ≤ x ∧ x < totals[k] ∧
          g.scanSymbol c rng = (rules[k].replacement, (RandomBits.next rng).2)) ∧
      ∀ i < rules.length, ∀ q : ℚ, 0 ≤ q → q < (weights.map Double.value).sum →
        (drawnIndex (weights.map Double.value) q = i ↔
          ((weights.map Double.value).take i).sum ≤ q ∧
            q < ((weights.map Double.value).take (i + 1)).sum) := by
  refine ⟨fun seed => ?_, ⟨?_, fun c rng => ⟨?_, ?_, ?_, ?_⟩⟩⟩
  · obtain ⟨e, he, hg, -⟩ := exists_new? g seed
    exact ⟨e, he, hg⟩
  · rintro e rfl w rng
    rw [e.derive_eq_scan]
  · exact fun h => Grammar.scanSymbol_of_nil h rng
  · exact fun r h => Grammar.scanSymbol_of_singleton h rng
  · intro h
    have hne : g.rulesFor c ≠ [] := List.ne_nil_of_length_pos (by omega)
    have hweights : g.weightsFor c ≠ [] := by simpa [Grammar.weightsFor] using hne
    have hdrawable := g.drawable_weightsFor c
    obtain ⟨hx, hx'⟩ := hdrawable.draw_range hweights (RandomBits.next rng).1
    have hk := Grammar.drawnIndex_lt_length hne (g.drawFor c rng)
    have hk' : drawnIndex (g.weightsFor c) (g.drawFor c rng) <
        (runningTotals (g.weightsFor c)).length := by
      rwa [length_runningTotals, Grammar.length_weightsFor]
    obtain ⟨hlow, hhigh⟩ := (hdrawable.drawnIndex_eq_iff hx hx' hk').1 rfl
    refine ⟨hx, hx', _, hk, hk', rfl, hlow, hhigh, ?_⟩
    exact Grammar.scanSymbol_of_two_le h rng (List.getElem?_eq_getElem hk)
  · intro i hi q hq hq'
    refine drawnIndex_eq_iff (fun w hw => ?_) hq hq' ?_
    · obtain ⟨v, hv, rfl⟩ := List.mem_map.1 hw
      exact ((g.drawable_weightsFor c).positive v hv).2
    · rwa [List.length_map, Grammar.length_weightsFor]

/-- A grammar with a rule of another predecessor between the two rules of the first one. -/
def interleavedGrammar : Grammar where
  start := ['A']
  rules := [⟨'A', ['A', 'B'], 1⟩, ⟨'B', ['A'], 1⟩, ⟨'A', ['B'], 3⟩]
  generations := 0
  faultless := by
    rw [Rule.firstFault?_cons_eq_none_iff, Rule.firstFault?_cons_eq_none_iff,
      Rule.firstFault?_cons_eq_none_iff]
    simp only [Rule.fault?_eq_none_iff, Std.HashMap.getD_insert, Std.HashMap.getD_empty]
    exact ⟨by decide, by decide, by decide, rfl⟩

/-- One word decides between the two rules of the first symbol; the rule between them is applied
without a draw, and a symbol without rules is kept. -/
theorem derive_interleavedGrammar :
    ∃ e, Engine.new? interleavedGrammar (.fixed 0) = .ok e ∧
      ∀ rng : Generator, e.derive ['B', 'C'] rng = (['A', 'C'], rng) ∧
        (e.derive ['A'] rng).2 = { rng with drawn := rng.drawn + 1 } ∧
        ((e.derive ['A'] rng).1 = ['A', 'B'] ∨ (e.derive ['A'] rng).1 = ['B']) := by
  obtain ⟨hnew, hall⟩ := agrees_with_scan interleavedGrammar
  obtain ⟨hscan, hsymbol⟩ := hall (ρ := Generator)
  obtain ⟨e, he, hg⟩ := hnew (.fixed 0)
  refine ⟨e, he, fun rng => ?_⟩
  obtain ⟨-, -, hdraw, -⟩ := hsymbol 'A' rng
  obtain ⟨-, -, k, hk, -, -, -, -, hA⟩ := hdraw (by decide)
  have hB : interleavedGrammar.scanSymbol 'B' rng = (['A'], rng) := (hsymbol 'B' rng).2.1 _ rfl
  have hC : interleavedGrammar.scanSymbol 'C' rng = (['C'], rng) := (hsymbol 'C' rng).1 rfl
  rw [hscan e hg, hscan e hg, Grammar.scan_cons, Grammar.scan_cons, Grammar.scan_cons, hB, hC, hA]
  have hk' : k < 2 := hk
  refine ⟨rfl, rfl, ?_⟩
  match k, hk' with
  | 0, _ => exact .inl rfl
  | 1, _ => exact .inr rfl

end Engine

end GrowthGrammar
