import GrowthGrammar.Lint.Basic
import GrowthGrammar.Proofs.Grammar.Derivation
import GrowthGrammar.Proofs.Word.Sorted
import Mathlib.Data.List.Nodup

/-!
# The check knows which symbols occur

The check of a grammar passes over the rules until a pass adds no symbol. `Settles` is that loop
without a bound on its passes; `Grammar.exists_settles_reachable` says that it comes to an end, and
that `Grammar.reachable` is where it ends. What it has then seen are exactly the symbols that occur
in some derivation (`Grammar.mem_reachable_iff`): a symbol that it sees is derived by a chain of
rules, and no rule leads out of the symbols that it has seen. `Grammar.lint_reports_occurrence`
draws the conclusions for the warnings and for the words of engines.
-/

namespace GrowthGrammar

namespace Grammar

/-! ## The symbols of derivations -/

section
variable {g : Grammar}

/-- Every word has a word of the next generation. -/
theorem exists_derives (g : Grammar) (w : Word) : ∃ v, g.Derives w v := by
  induction w with
  | nil => exact ⟨[], .nil⟩
  | cons c w ih =>
    obtain ⟨v, hv⟩ := ih
    by_cases hc : ∃ r ∈ g.rules, r.predecessor = c
    · obtain ⟨r, hr, rfl⟩ := hc
      exact ⟨_, .replace hr hv⟩
    · exact ⟨_, .keep (fun r hr h => hc ⟨r, hr, h⟩) hv⟩

/-- Wherever the predecessor of a rule stands in a word, the rule can be applied. -/
theorem exists_derives_replacement {r : Rule} (hr : r ∈ g.rules) {w : Word}
    (hw : r.predecessor ∈ w) : ∃ v, g.Derives w v ∧ r.replacement ⊆ v := by
  obtain ⟨a, b, rfl⟩ := List.append_of_mem hw
  obtain ⟨a', ha⟩ := g.exists_derives a
  obtain ⟨b', hb⟩ := g.exists_derives b
  refine ⟨a' ++ (r.replacement ++ b'), ha.append (.replace hr hb), ?_⟩
  intro c hc
  exact List.mem_append_right _ (List.mem_append_left _ hc)

/-- A symbol of a derived word was kept, or a rule for a symbol of the first word put it there. -/
theorem Derives.mem_cases {u v : Word} (h : g.Derives u v) {c : Symbol} (hc : c ∈ v) :
    c ∈ u ∨ ∃ r ∈ g.rules, r.predecessor ∈ u ∧ c ∈ r.replacement := by
  induction h with
  | nil => exact .inl hc
  | @replace r u v hr _ ih =>
    rcases List.mem_append.1 hc with hc | hc
    · exact .inr ⟨r, hr, List.mem_cons_self, hc⟩
    · rcases ih hc with hu | ⟨s, hs, hu, hc⟩
      · exact .inl (List.mem_cons_of_mem _ hu)
      · exact .inr ⟨s, hs, List.mem_cons_of_mem _ hu, hc⟩
  | @keep d u v _ _ ih =>
    rcases List.mem_cons.1 hc with rfl | hc
    · exact .inl List.mem_cons_self
    · rcases ih hc with hu | ⟨s, hs, hu, hc⟩
      · exact .inl (List.mem_cons_of_mem _ hu)
      · exact .inr ⟨s, hs, List.mem_cons_of_mem _ hu, hc⟩

/-- The symbols of the start word occur. -/
theorem occurs_of_mem_start {c : Symbol} (hc : c ∈ g.start) : g.Occurs c := ⟨0, g.start, .start, hc⟩

/-- If the predecessor of a rule occurs, so do the symbols of its replacement. -/
theorem Occurs.replacement {r : Rule} (hr : r ∈ g.rules) (h : g.Occurs r.predecessor) {c : Symbol}
    (hc : c ∈ r.replacement) : g.Occurs c := by
  obtain ⟨n, u, hu, hmem⟩ := h
  obtain ⟨v, hv, hsub⟩ := exists_derives_replacement hr hmem
  exact ⟨n + 1, v, hu.next hv, hsub hc⟩

/-- What holds of the symbols of the start word, and of the replacement of a rule whenever it holds
of the predecessor, holds of all symbols that occur. -/
theorem Occurs.induction {p : Symbol → Prop} (start : ∀ c ∈ g.start, p c)
    (rule : ∀ r ∈ g.rules, p r.predecessor → ∀ c ∈ r.replacement, p c) {c : Symbol}
    (h : g.Occurs c) : p c := by
  obtain ⟨n, w, hw, hc⟩ := h
  induction hw generalizing c with
  | start => exact start c hc
  | next _ hd ih =>
    rcases hd.mem_cases hc with hu | ⟨r, hr, hu, hc⟩
    · exact ih hu
    · exact rule r hr (ih hu) c hc

/-- The number of generations does not decide which words the generations have. -/
theorem Generates.of_withGenerations {n k : ℕ} {w : Word}
    (h : (g.withGenerations n).Generates k w) : g.Generates k w := by
  have hderives : ∀ {u v}, (g.withGenerations n).Derives u v → g.Derives u v := by
    intro u v h
    induction h with
    | nil => exact .nil
    | replace hr _ ih => exact .replace hr ih
    | keep hc _ ih => exact .keep hc ih
  induction h with
  | start => exact .start
  | next _ hd ih => exact ih.next (hderives hd)

end

/-! ## One pass over the rules -/

@[simp] theorem mem_addSymbols {seen : List Symbol} {w : Word} {c : Symbol} :
    c ∈ addSymbols seen w ↔ c ∈ seen ∨ c ∈ w := by
  induction w generalizing seen with
  | nil => simp [addSymbols]
  | cons d w ih =>
    show c ∈ addSymbols (seen.insert d) w ↔ _
    rw [ih, List.mem_insert_iff, List.mem_cons]
    tauto

theorem nodup_addSymbols {seen : List Symbol} (h : seen.Nodup) (w : Word) :
    (addSymbols seen w).Nodup := by
  induction w generalizing seen with
  | nil => exact h
  | cons d w ih => exact ih h.insert

/-- The symbols that are seen after one rule of a pass. -/
theorem reachStep_cons (r : Rule) (rules : List Rule) (seen : List Symbol) :
    reachStep (r :: rules) seen =
      reachStep rules (if r.predecessor ∈ seen then addSymbols seen r.replacement else seen) := rfl

/-- A pass forgets no symbol. -/
theorem subset_reachStep (rules : List Rule) (seen : List Symbol) :
    seen ⊆ reachStep rules seen := by
  induction rules generalizing seen with
  | nil => exact List.Subset.refl seen
  | cons r rules ih =>
    rw [reachStep_cons]
    split_ifs
    · intro c hc
      exact ih _ (mem_addSymbols.2 (.inl hc))
    · exact ih seen

theorem nodup_reachStep (rules : List Rule) {seen : List Symbol} (h : seen.Nodup) :
    (reachStep rules seen).Nodup := by
  induction rules generalizing seen with
  | nil => exact h
  | cons r rules ih =>
    rw [reachStep_cons]
    split_ifs
    · exact ih (nodup_addSymbols h _)
    · exact ih h

/-- A pass sees the replacements of all predecessors that were seen before it. -/
theorem replacement_subset_reachStep {rules : List Rule} {r : Rule} (hr : r ∈ rules)
    {seen : List Symbol} (h : r.predecessor ∈ seen) : r.replacement ⊆ reachStep rules seen := by
  induction rules generalizing seen with
  | nil => cases hr
  | cons s rules ih =>
    rw [reachStep_cons]
    rcases List.mem_cons.1 hr with rfl | hr
    · rw [if_pos h]
      intro c hc
      exact subset_reachStep _ _ (mem_addSymbols.2 (.inr hc))
    · -- the rules before it may have added symbols, which takes nothing away
      refine ih hr ?_
      split_ifs
      · exact mem_addSymbols.2 (.inl h)
      · exact h

/-- What holds of the symbols seen so far, and of the replacement of a rule whenever it holds of the
predecessor, holds of the symbols seen after a pass. -/
theorem reachStep_induction {p : Symbol → Prop} {rules : List Rule} {seen : List Symbol}
    (hseen : ∀ c ∈ seen, p c)
    (rule : ∀ r ∈ rules, p r.predecessor → ∀ c ∈ r.replacement, p c) :
    ∀ c ∈ reachStep rules seen, p c := by
  induction rules generalizing seen with
  | nil => exact hseen
  | cons r rules ih =>
    obtain ⟨hr, hrules⟩ := List.forall_mem_cons.1 rule
    rw [reachStep_cons]
    refine ih ?_ hrules
    split_ifs with hpred
    · intro c hc
      rcases mem_addSymbols.1 hc with hc | hc
      · exact hseen c hc
      · exact hr (hseen _ hpred) c hc
    · exact hseen

end Grammar

/-! ## Passes until nothing is added -/

open Grammar

/-- The loop of the check: passes over the rules are made as long as a pass adds a symbol.
`Settles rules passes seen settled` says that the loop, started with the symbols `seen`, ends after
so many passes with the symbols `settled`. -/
inductive Settles (rules : List Rule) : ℕ → List Symbol → List Symbol → Prop where
  | stop {seen : List Symbol} : (reachStep rules seen).length = seen.length →
      Settles rules 1 seen (reachStep rules seen)
  | again {passes : ℕ} {seen settled : List Symbol} :
      (reachStep rules seen).length ≠ seen.length →
      Settles rules passes (reachStep rules seen) settled →
      Settles rules (passes + 1) seen settled

namespace Settles

variable {rules : List Rule} {passes : ℕ} {seen settled : List Symbol}

/-- The loop takes one course only. -/
theorem unique {passes' : ℕ} {settled' : List Symbol} (h : Settles rules passes seen settled)
    (h' : Settles rules passes' seen settled') : passes' = passes ∧ settled' = settled := by
  induction h generalizing passes' with
  | stop heq =>
    cases h' with
    | stop => exact ⟨rfl, rfl⟩
    | again hne _ => exact absurd heq hne
  | again hne _ ih =>
    cases h' with
    | stop heq => exact absurd heq hne
    | again _ h' =>
      obtain ⟨rfl, rfl⟩ := ih h'
      exact ⟨rfl, rfl⟩

/-- The loop forgets no symbol. -/
theorem subset (h : Settles rules passes seen settled) : seen ⊆ settled := by
  induction h with
  | stop _ => exact subset_reachStep _ _
  | again _ _ ih => exact fun c hc => ih (subset_reachStep _ _ hc)

theorem nodup (h : Settles rules passes seen settled) (hseen : seen.Nodup) : settled.Nodup := by
  induction h with
  | stop _ => exact nodup_reachStep _ hseen
  | again _ _ ih => exact ih (nodup_reachStep _ hseen)

/-- What holds of the symbols at the start, and of the replacement of a rule whenever it holds of
the predecessor, holds of the symbols at the end. -/
theorem induction {p : Symbol → Prop} (h : Settles rules passes seen settled)
    (hseen : ∀ c ∈ seen, p c) (rule : ∀ r ∈ rules, p r.predecessor → ∀ c ∈ r.replacement, p c) :
    ∀ c ∈ settled, p c := by
  induction h with
  | stop _ => exact reachStep_induction hseen rule
  | again _ _ ih => exact ih (reachStep_induction hseen rule)

/-- No rule leads out of the symbols at the end. The last pass has the symbols that it found, since
it has as many and no symbol twice; so the replacements that it saw were seen before. -/
theorem closed (h : Settles rules passes seen settled) (hseen : seen.Nodup) :
    ∀ r ∈ rules, r.predecessor ∈ settled → ∀ c ∈ r.replacement, c ∈ settled := by
  induction h with
  | @stop seen heq =>
    intro r hr hpred c hc
    have hperm : seen.Perm (reachStep rules seen) :=
      (hseen.subperm (subset_reachStep _ _)).perm_of_length_le heq.le
    exact replacement_subset_reachStep hr (hperm.mem_iff.2 hpred) hc
  | again _ _ ih => exact ih (nodup_reachStep _ hseen)

end Settles

namespace Grammar

theorem replacementSize_eq_length (rules : List Rule) :
    replacementSize rules = (rules.flatMap (·.replacement)).length := by
  induction rules with
  | nil => rfl
  | cons r rules ih => rw [replacementSize, ih, List.flatMap_cons, List.length_append]

/-- As long as the loop goes on, it sees more and more of the symbols of some list. So many passes
are enough as the symbols that it can still see, and one more. -/
theorem settles_reachFrom {rules : List Rule} (symbols : List Symbol)
    (hrules : ∀ r ∈ rules, r.replacement ⊆ symbols) {fuel : ℕ} {seen : List Symbol}
    (hnodup : seen.Nodup) (hseen : seen ⊆ symbols) (hfuel : symbols.length < seen.length + fuel) :
    ∃ passes ≤ fuel, Settles rules passes seen (reachFrom rules fuel seen) := by
  induction fuel generalizing seen with
  | zero =>
    have hle : seen.length ≤ symbols.length := (hnodup.subperm hseen).length_le
    omega
  | succ fuel ih =>
    have hnext : reachStep rules seen ⊆ symbols := fun c hc =>
      reachStep_induction (p := (· ∈ symbols)) hseen (fun r hr _ => hrules r hr) c hc
    have hle : seen.length ≤ (reachStep rules seen).length :=
      (hnodup.subperm (subset_reachStep _ _)).length_le
    unfold reachFrom
    dsimp only
    split_ifs with hlength
    · exact ⟨1, by omega, .stop hlength⟩
    · obtain ⟨passes, hpasses, h⟩ := ih (nodup_reachStep _ hnodup) hnext (by omega)
      exact ⟨passes + 1, by omega, .again hlength h⟩

/-- The loop ends, and `reachable` is what it has seen then. -/
theorem exists_settles_reachable (g : Grammar) :
    ∃ passes ≤ replacementSize g.rules + 1,
      Settles g.rules passes (addSymbols [] g.start) g.reachable := by
  refine settles_reachFrom (addSymbols [] g.start ++ g.rules.flatMap (·.replacement)) ?_ ?_ ?_ ?_
  · intro r hr c hc
    exact List.mem_append_right _ (List.mem_flatMap.2 ⟨r, hr, hc⟩)
  · exact nodup_addSymbols List.nodup_nil _
  · exact List.subset_append_left _ _
  · rw [List.length_append, ← replacementSize_eq_length]
    omega

/-- The symbols that the check has seen at the end are those that occur. -/
theorem mem_reachable_iff {g : Grammar} {c : Symbol} : c ∈ g.reachable ↔ g.Occurs c := by
  obtain ⟨passes, -, hsettles⟩ := g.exists_settles_reachable
  constructor
  · intro hc
    refine hsettles.induction (p := g.Occurs) ?_ ?_ c hc
    · intro d hd
      exact occurs_of_mem_start (by simpa using hd)
    · intro r hr hpred d hd
      exact hpred.replacement hr hd
  · intro hc
    refine hc.induction (p := (· ∈ g.reachable)) ?_ ?_
    · intro d hd
      exact hsettles.subset (by simpa using hd)
    · exact hsettles.closed (nodup_addSymbols List.nodup_nil _)

theorem nodup_reachable (g : Grammar) : g.reachable.Nodup := by
  obtain ⟨passes, -, hsettles⟩ := g.exists_settles_reachable
  exact hsettles.nodup (nodup_addSymbols List.nodup_nil _)

/-- The words of a generation of the grammar, for any number of them, hold no other symbols. -/
theorem mem_reachable_of_generates {g : Grammar} {n m : ℕ} {w : Word}
    (hw : (g.withGenerations n).Generates m w) {c : Symbol} (hc : c ∈ w) : c ∈ g.reachable :=
  mem_reachable_iff.2 ⟨_, _, hw.of_withGenerations, hc⟩

end Grammar

/-! ## The reports -/

/-- Warnings about symbols are worded like no other warning. -/
theorem LintWarning.eq_of_message_eq {w w' : LintWarning} (h : w.message = w'.message)
    (hw' : ∀ r share, w' ≠ lowShare r share) : w = w' := by
  have hlist := congrArg String.toList h
  cases w' with
  | lowShare r share => exact absurd rfl (hw' r share)
  | unreached c =>
    cases w with
    | lowShare r share => simp [message, Rule.describe] at hlist
    | unreached d => simpa [message] using hlist
    | inert d => simp [message] at hlist
  | inert c =>
    cases w with
    | lowShare r share => simp [message, Rule.describe] at hlist
    | unreached d => simp [message] at hlist
    | inert d => simpa [message] using hlist

namespace Grammar

section
variable {g : Grammar} {known : List Symbol} {c : Symbol}

theorem mem_predecessors : c ∈ g.predecessors ↔ ∃ r ∈ g.rules, r.predecessor = c := by
  simp [predecessors]

/-- The unreached symbols are the predecessors that do not occur. -/
theorem mem_unreached_iff :
    c ∈ g.unreached ↔ (∃ r ∈ g.rules, r.predecessor = c) ∧ ¬ g.Occurs c := by
  simp [unreached, mem_predecessors, mem_reachable_iff]

/-- The inert symbols are those that occur and that no one gives a meaning. -/
theorem mem_inertSymbols_iff :
    c ∈ g.inertSymbols known ↔
      g.Occurs c ∧ Symbol.isMarker c = false ∧ c ∉ known ∧ ∀ r ∈ g.rules, r.predecessor ≠ c := by
  simp [inertSymbols, mem_predecessors, mem_reachable_iff, and_assoc]

/-- Warnings about low shares are about rules. -/
theorem exists_of_mem_lowShares {w : LintWarning} (h : w ∈ g.lowShares) :
    ∃ r share, w = .lowShare r share := by
  obtain ⟨r, -, hr⟩ := List.mem_filterMap.1 h
  dsimp only at hr
  split_ifs at hr
  exact ⟨r, _, (Option.some.inj hr).symm⟩

/-- The warnings that are not about low shares are about symbols. -/
theorem mem_warnings_iff {w : LintWarning} (hw : ∀ r share, w ≠ .lowShare r share) :
    w ∈ (g.lint known).warnings ↔
      (∃ c ∈ g.unreached, .unreached c = w) ∨ ∃ c ∈ g.inertSymbols known, .inert c = w := by
  have hlow : w ∉ g.lowShares := by
    intro h
    obtain ⟨r, share, rfl⟩ := exists_of_mem_lowShares h
    exact hw r share rfl
  simp [lint, hlow]

/-- No symbol is reported twice for the same reason. -/
theorem nodup_symbol_warnings (g : Grammar) (known : List Symbol) :
    (g.unreached.map LintWarning.unreached ++
      (g.inertSymbols known).map LintWarning.inert).Nodup := by
  have hpredecessors : g.predecessors.Nodup := nodup_addSymbols List.nodup_nil _
  refine List.nodup_append.2 ⟨?_, ?_, ?_⟩
  · exact (hpredecessors.mergeSort.filter _).map fun _ _ => LintWarning.unreached.inj
  · exact (g.nodup_reachable.mergeSort.filter _).map fun _ _ => LintWarning.inert.inj
  · intro w hw w' hw' h
    obtain ⟨c, -, rfl⟩ := List.mem_map.1 hw
    obtain ⟨d, -, rfl⟩ := List.mem_map.1 hw'
    cases h

/-- The text of a warning about a symbol is reported exactly if the warning is, and once only. -/
theorem report_symbol_warning (g : Grammar) (known : List Symbol) {w : LintWarning}
    (hw : ∀ r share, w ≠ .lowShare r share) :
    (w.message ∈ (g.lint known).warnings.map (·.message) ↔ w ∈ (g.lint known).warnings) ∧
      ((g.lint known).warnings.map (·.message)).count w.message ≤ 1 := by
  constructor
  · rw [List.mem_map]
    constructor
    · rintro ⟨w', hw', hmessage⟩
      exact LintWarning.eq_of_message_eq hmessage hw ▸ hw'
    · intro h
      exact ⟨w, h, rfl⟩
  · have hlow : w.message ∉ g.lowShares.map (·.message) := by
      intro h
      obtain ⟨w', hw', hmessage⟩ := List.mem_map.1 h
      obtain ⟨r, share, rfl⟩ := exists_of_mem_lowShares hw'
      exact hw r share (LintWarning.eq_of_message_eq hmessage hw).symm
    have hnodup : ((g.unreached.map LintWarning.unreached ++
        (g.inertSymbols known).map LintWarning.inert).map (·.message)).Nodup := by
      refine (g.nodup_symbol_warnings known).map_on fun w _ w' hw' h => ?_
      refine LintWarning.eq_of_message_eq h ?_
      rintro r share rfl
      simp at hw'
    rw [lint, List.append_assoc, List.map_append, List.count_append,
      List.count_eq_zero_of_not_mem hlow, Nat.zero_add]
    exact List.nodup_iff_count_le_one.1 hnodup _

end

/-- The check of a grammar knows exactly which symbols occur. Its loop comes to an end, with the
symbols that some generation of some derivation holds. So no engine of the grammar ever makes a word
with another symbol, for any number of generations and any generator. A predecessor is reported as
never reached, once, exactly if it does not occur; and a symbol is reported as inert, once, exactly
if it occurs, is no branch marker, and has neither an instruction nor a rule. -/
theorem lint_reports_occurrence (g : Grammar) (known : List Symbol) :
    (∃ passes ≤ replacementSize g.rules + 1, ∀ k settled,
      Settles g.rules k (addSymbols [] g.start) settled ↔ k = passes ∧ settled = g.reachable) ∧
    (∀ c, c ∈ g.reachable ↔ g.Occurs c) ∧
    (∀ n (e : Engine), e.grammar = g.withGenerations n →
      (∀ {ρ : Type} [RandomBits ρ] (rng : ρ), ∀ c ∈ (e.expandWith rng).1, c ∈ g.reachable) ∧
      ∀ fresh, ∀ c ∈ (e.expand fresh).1, c ∈ g.reachable) ∧
    (∀ c, let text := "Rule for '" ++ c.toString ++ "' is never reached from the axiom"
      let texts := (g.lint known).warnings.map (·.message)
      (text ∈ texts ↔ (∃ r ∈ g.rules, r.predecessor = c) ∧ ¬ g.Occurs c) ∧
        texts.count text ≤ 1) ∧
    ∀ c, let text := "Symbol '" ++ c.toString ++
        "' has no rule and no instruction; it will be inert"
      let texts := (g.lint known).warnings.map (·.message)
      (text ∈ texts ↔ g.Occurs c ∧ Symbol.isMarker c = false ∧ c ∉ known ∧
        ∀ r ∈ g.rules, r.predecessor ≠ c) ∧
        texts.count text ≤ 1 := by
  refine ⟨?_, fun c => mem_reachable_iff, fun n e he => ⟨?_, fun fresh c => ?_⟩,
    fun c => ?_, fun c => ?_⟩
  · obtain ⟨passes, hpasses, hsettles⟩ := g.exists_settles_reachable
    refine ⟨passes, hpasses, fun k settled => ⟨hsettles.unique, ?_⟩⟩
    rintro ⟨rfl, rfl⟩
    exact hsettles
  · intro ρ _ rng c
    exact mem_reachable_of_generates (he ▸ e.generates rng)
  · exact mem_reachable_of_generates (he ▸ e.generates_expand fresh)
  · have hw : ∀ r share, LintWarning.unreached c ≠ .lowShare r share := nofun
    obtain ⟨hmem, hcount⟩ := g.report_symbol_warning known hw
    refine ⟨hmem.trans ?_, hcount⟩
    rw [mem_warnings_iff hw, ← mem_unreached_iff]
    simp
  · have hw : ∀ r share, LintWarning.inert c ≠ .lowShare r share := nofun
    obtain ⟨hmem, hcount⟩ := g.report_symbol_warning known hw
    refine ⟨hmem.trans ?_, hcount⟩
    rw [mem_warnings_iff hw, ← mem_inertSymbols_iff]
    simp

end Grammar

end GrowthGrammar
