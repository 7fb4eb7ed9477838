import GrowthGrammar.Proofs.Grammar.Acceptance
import GrowthGrammar.Proofs.Grammar.Series
import GrowthGrammar.Proofs.Lint.Reachability

/-!
# Rules that are never reached can be left out

`Grammar.keptRules` are the rules of a grammar without those whose predecessor the check reports as
never reached. What such a rule replaces occurs in no derivation, so the other rules derive just the
same words; and they draw just the same, since no draw is made for a symbol that does not occur.
Both grammars have the same rules for all symbols that occur (`Grammar.SameReached`), and everything
else follows from that. `Grammar.left_out_changes_nothing` puts it together, for the words, for the
generators, and for the report of the grammar that is left.
-/

namespace GrowthGrammar

/-! ## What a report says about symbols -/

namespace LintWarning

/-- The predecessor that a warning says to be never reached. -/
def unreached? : LintWarning → Option Symbol
  | unreached c => some c
  | lowShare _ _ | inert _ => none

/-- The symbol that a warning says to be inert. -/
def inert? : LintWarning → Option Symbol
  | inert c => some c
  | lowShare _ _ | unreached _ => none

@[simp] theorem unreached?_unreached (c : Symbol) : (unreached c).unreached? = some c := rfl

@[simp] theorem unreached?_inert (c : Symbol) : (inert c).unreached? = none := rfl

@[simp] theorem inert?_unreached (c : Symbol) : (unreached c).inert? = none := rfl

@[simp] theorem inert?_inert (c : Symbol) : (inert c).inert? = some c := rfl

end LintWarning

namespace Grammar

/-- Warnings about low shares say nothing about symbols. -/
theorem filterMap_lowShares {f : LintWarning → Option Symbol}
    (hf : ∀ r share, f (.lowShare r share) = none) (g : Grammar) :
    g.lowShares.filterMap f = [] := by
  refine List.filterMap_eq_nil_iff.2 fun w hw => ?_
  obtain ⟨r, share, rfl⟩ := exists_of_mem_lowShares hw
  exact hf r share

theorem filterMap_unreached? (g : Grammar) (known : List Symbol) :
    (g.lint known).warnings.filterMap LintWarning.unreached? = g.unreached := by
  have hlow : g.lowShares.filterMap LintWarning.unreached? = [] :=
    filterMap_lowShares (fun _ _ => rfl) g
  simp [lint, hlow, Function.comp_def]

theorem filterMap_inert? (g : Grammar) (known : List Symbol) :
    (g.lint known).warnings.filterMap LintWarning.inert? = g.inertSymbols known := by
  have hlow : g.lowShares.filterMap LintWarning.inert? = [] :=
    filterMap_lowShares (fun _ _ => rfl) g
  simp [lint, hlow, Function.comp_def]

/-- The rules without those whose predecessor the check reports as never reached. -/
def keptRules (g : Grammar) (known : List Symbol) : List Rule :=
  let reported := (g.lint known).warnings.filterMap LintWarning.unreached?
  g.rules.filter (·.predecessor ∉ reported)

/-! ## Leaving out predecessors -/

end Grammar

/-- Where the rules of some predecessors are left out, a predecessor has all its rules or none. -/
theorem Rule.filter_predecessor_filter (rules : List Rule) (p : Symbol → Bool) (c : Symbol) :
    (rules.filter fun r => p r.predecessor).filter (·.predecessor == c) =
      if p c then rules.filter (·.predecessor == c) else [] := by
  rw [List.filter_filter]
  split_ifs with hc
  · refine List.filter_congr fun r _ => ?_
    by_cases hr : r.predecessor = c
    · simp [hr, hc]
    · simp [hr]
  · refine List.filter_eq_nil_iff.2 fun r _ hr => hc ?_
    obtain ⟨hpred, hp⟩ := Bool.and_eq_true_iff.1 hr
    exact eq_of_beq hpred ▸ hp

/-- Acceptable rules stay acceptable if the rules of some predecessors are left out. -/
theorem Rule.Acceptable.filter {rules : List Rule} (h : Acceptable rules) (p : Symbol → Bool) :
    Acceptable (rules.filter fun r => p r.predecessor) where
  weight r hr := h.weight r (List.mem_of_mem_filter hr)
  predecessor r hr := h.predecessor r (List.mem_of_mem_filter hr)
  total c t ht := by
    rw [filter_predecessor_filter] at ht
    split_ifs at ht
    · exact h.total c t ht
    · obtain rfl : t = 0 := by simpa using ht
      exact h.total c 0 (mem_scanl.2 (.inl rfl))

namespace Grammar

/-! ## Grammars that differ where nothing occurs -/

/-- The second grammar starts from the same word as the first one and has the same rules for the
symbols that occur in the first one. -/
structure SameReached (g h : Grammar) : Prop where
  start : h.start = g.start
  rulesFor : ∀ c, g.Occurs c → h.rulesFor c = g.rulesFor c

section
variable {ρ : Type} [RandomBits ρ] {g h : Grammar}

/-- The symbols of a word that is derived from symbols that occur do occur. -/
theorem Derives.occurs {u v : Word} (hd : g.Derives u v) (hu : ∀ c ∈ u, g.Occurs c) :
    ∀ c ∈ v, g.Occurs c := by
  intro c hc
  rcases hd.mem_cases hc with hmem | ⟨r, hr, hpred, hmem⟩
  · exact hu c hmem
  · exact (hu _ hpred).replacement hr hmem

/-- Numbers of generations do not matter here. -/
theorem SameReached.withGenerations (same : g.SameReached h) (n : ℕ) :
    (g.withGenerations n).SameReached (h.withGenerations n) where
  start := same.start
  rulesFor c hc := by
    obtain ⟨m, w, hw, hmem⟩ := hc
    exact same.rulesFor c ⟨m, w, hw.of_withGenerations, hmem⟩

/-- For a predecessor that occurs both grammars have the same rules. -/
theorem SameReached.mem_rules_iff (same : g.SameReached h) {r : Rule}
    (hr : g.Occurs r.predecessor) : r ∈ h.rules ↔ r ∈ g.rules := by
  have hmem : ∀ g : Grammar, r ∈ g.rulesFor r.predecessor ↔ r ∈ g.rules := by
    intro g
    simp [Grammar.rulesFor]
  rw [← hmem, same.rulesFor _ hr, hmem]

/-- The same symbols occur in both grammars. -/
theorem SameReached.occurs_iff (same : g.SameReached h) {c : Symbol} :
    h.Occurs c ↔ g.Occurs c := by
  constructor
  · intro hc
    refine hc.induction (p := g.Occurs) ?_ ?_
    · intro d hd
      exact occurs_of_mem_start (same.start ▸ hd)
    · intro r hr hpred d hd
      exact hpred.replacement ((same.mem_rules_iff hpred).1 hr) hd
  · intro hc
    -- only a rule that is reached in the first grammar is known to be one of the second
    refine (hc.induction (p := fun d => g.Occurs d ∧ h.Occurs d) ?_ ?_).2
    · intro d hd
      exact ⟨occurs_of_mem_start hd, occurs_of_mem_start (same.start ▸ hd)⟩
    · rintro r hr ⟨hpred, hpred'⟩ d hd
      exact ⟨hpred.replacement hr hd, hpred'.replacement ((same.mem_rules_iff hpred).2 hr) hd⟩

/-- Words of symbols that occur are derived alike, draw by draw: a derivation leads to such words
only. -/
theorem SameReached.deriveTimes_eq {e f : Engine} (same : e.grammar.SameReached f.grammar) (n : ℕ)
    {w : Word} (hw : ∀ c ∈ w, e.grammar.Occurs c) (rng : ρ) :
    f.deriveTimes n w rng = e.deriveTimes n w rng := by
  induction n generalizing w rng with
  | zero => rfl
  | succ n ih =>
    have hderive : (f.derive w : StateM ρ Word) = e.derive w := by
      rw [f.derive_eq_scan, e.derive_eq_scan]
      exact scan_congr fun c hc => same.rulesFor c (hw c hc)
    have hstep : ∀ e : Engine, e.deriveTimes (n + 1) w rng =
        e.deriveTimes n (e.derive w rng).1 (e.derive w rng).2 := fun _ => rfl
    rw [hstep, hstep, hderive]
    exact ih ((e.derives w rng).occurs hw) _

/-- Engines of both grammars expand alike on every generator, and leave it alike. -/
theorem SameReached.expandWith_eq {e f : Engine} (same : e.grammar.SameReached f.grammar)
    (hgenerations : f.grammar.generations = e.grammar.generations) :
    f.expandWith (ρ := ρ) = e.expandWith := by
  funext rng
  rw [Engine.expandWith, Engine.expandWith, hgenerations, same.start]
  exact same.deriveTimes_eq _ (fun c => occurs_of_mem_start) rng

/-- Engines of both grammars expand alike if they use the same generator. -/
theorem SameReached.expand_fst_eq {e f : Engine} (same : e.grammar.SameReached f.grammar)
    (hgenerations : f.grammar.generations = e.grammar.generations) {fresh : Generator}
    (hrng : f.seed.generator fresh f.calls = e.seed.generator fresh e.calls) :
    (f.expand fresh).1 = (e.expand fresh).1 :=
  Engine.expand_fst_of_expandWith (same.expandWith_eq hgenerations) hrng

/-! ## The report of what is left -/

/-- The same symbols are inert in both grammars, in the same order. -/
theorem SameReached.inertSymbols_eq (same : g.SameReached h) (known : List Symbol) :
    h.inertSymbols known = g.inertSymbols known := by
  have hsorted : Word.sorted h.reachable = Word.sorted g.reachable :=
    Word.sorted_congr h.nodup_reachable g.nodup_reachable fun c => by
      rw [mem_reachable_iff, mem_reachable_iff, same.occurs_iff]
  unfold inertSymbols
  dsimp only
  rw [hsorted]
  refine List.filter_congr fun c hc => ?_
  have hoccurs : g.Occurs c := mem_reachable_iff.1 (Word.mem_sorted.1 hc)
  have hruled : c ∈ h.predecessors ↔ c ∈ g.predecessors := by
    rw [mem_predecessors, mem_predecessors]
    constructor
    · rintro ⟨r, hr, rfl⟩
      exact ⟨r, (same.mem_rules_iff hoccurs).1 hr, rfl⟩
    · rintro ⟨r, hr, rfl⟩
      exact ⟨r, (same.mem_rules_iff hoccurs).2 hr, rfl⟩
  simp only [hruled]

end

/-- A rule is kept exactly if its predecessor is not reported. -/
theorem keptRules_eq_filter (g : Grammar) (known : List Symbol) :
    g.keptRules known = g.rules.filter fun r => decide (r.predecessor ∉ g.unreached) := by
  rw [keptRules, filterMap_unreached?]

/-- The rules that are kept are those of the symbols that occur. -/
theorem sameReached_of_keptRules {g h : Grammar} {known : List Symbol} (hstart : h.start = g.start)
    (hrules : h.rules = g.keptRules known) : g.SameReached h where
  start := hstart
  rulesFor c hc := by
    have hkept : c ∉ g.unreached := fun hmem => (mem_unreached_iff.1 hmem).2 hc
    rw [Grammar.rulesFor, hrules, keptRules_eq_filter,
      Rule.filter_predecessor_filter g.rules (fun c => decide (c ∉ g.unreached)),
      if_pos (decide_eq_true hkept)]
    rfl

/-- No predecessor of a rule that is kept is unreached among these rules. -/
theorem unreached_of_keptRules {g h : Grammar} {known : List Symbol} (hstart : h.start = g.start)
    (hrules : h.rules = g.keptRules known) : h.unreached = [] := by
  refine List.eq_nil_iff_forall_not_mem.2 fun c hc => ?_
  obtain ⟨⟨r, hr, rfl⟩, hnot⟩ := mem_unreached_iff.1 hc
  rw [hrules, keptRules_eq_filter, List.mem_filter] at hr
  refine of_decide_eq_true hr.2 (mem_unreached_iff.2 ⟨⟨r, hr.1, rfl⟩, ?_⟩)
  exact fun hoccurs => hnot ((sameReached_of_keptRules hstart hrules).occurs_iff.2 hoccurs)

/-- Rules that the check reports as never reached can be left out. What is left makes a grammar. For
every number of generations and every generator it expands to the same word, and leaves the
generator in the same state; for every seed its engine makes the same series of expansions, whatever
calls are made in between. Its own report finds no rule that is never reached, and the same inert
symbols. -/
theorem left_out_changes_nothing (g : Grammar) (known : List Symbol) :
    ∃ h, new? g.start (g.keptRules known) g.generations = .ok h ∧
      (h.start = g.start ∧ h.rules = g.keptRules known ∧ h.generations = g.generations) ∧
      (∀ n seed, ∃ e f, Engine.new? (g.withGenerations n) seed = .ok e ∧
        Engine.new? (h.withGenerations n) seed = .ok f ∧
        (∀ {ρ : Type} [RandomBits ρ] (rng : ρ), f.expandWith rng = e.expandWith rng) ∧
        ∀ (past : List Engine.Call) (fresh : Generator),
          ((past.foldl Engine.after f).expand fresh).1 =
            ((past.foldl Engine.after e).expand fresh).1) ∧
      ∀ known',
        (h.lint known').warnings.filterMap LintWarning.unreached? = [] ∧
        (h.lint known').warnings.filterMap LintWarning.inert? =
          (g.lint known').warnings.filterMap LintWarning.inert? := by
  have hacceptable : Rule.Acceptable (g.keptRules known) := by
    rw [keptRules_eq_filter]
    exact g.acceptable.filter fun c => decide (c ∉ g.unreached)
  obtain ⟨h, hnew, hstart, hrules, hgenerations⟩ := exists_new?_iff.2 hacceptable
  have same := sameReached_of_keptRules hstart hrules
  refine ⟨h, hnew, ⟨hstart, hrules, hgenerations⟩, fun n seed => ?_, fun known' => ⟨?_, ?_⟩⟩
  · obtain ⟨e, he, hegrammar, heseed, hecalls⟩ := Engine.exists_new? (g.withGenerations n) seed
    obtain ⟨f, hf, hfgrammar, hfseed, hfcalls⟩ := Engine.exists_new? (h.withGenerations n) seed
    have hengines : e.grammar.SameReached f.grammar := by
      rw [hegrammar, hfgrammar]
      exact same.withGenerations n
    have hcount : f.grammar.generations = e.grammar.generations := by
      rw [hegrammar, hfgrammar]
      rfl
    refine ⟨e, f, he, hf, ?_, fun past fresh => ?_⟩
    · intro ρ _ rng
      rw [hengines.expandWith_eq hcount]
    · let later (e : Engine) : Engine := { e with calls := e.calls + past.countP (·.counts) }
      rw [Engine.foldl_after_eq, Engine.foldl_after_eq]
      refine SameReached.expand_fst_eq (e := later e) (f := later f) hengines hcount ?_
      simp only [later, hfseed, heseed, hfcalls, hecalls]
  · rw [filterMap_unreached?]
    exact unreached_of_keptRules hstart hrules
  · rw [filterMap_inert?, filterMap_inert?]
    exact same.inertSymbols_eq known'

end Grammar

end GrowthGrammar
