import GrowthGrammar.Proofs.Grammar.Weights
import GrowthGrammar.System.Config

/-!
# The first fault of a grammar

`Rule.FaultAt` says what is wrong with a rule of a list, from the rule itself and from the rules of
the same predecessor before it. The check takes the rules one by one: with one rule more it finds
what it has found before, or else what is wrong with that rule (`Rule.firstFault?_take_succ`). So it
answers the fault of the first faulty rule. A file is checked for the predecessors of all rules
before that, because a rule is made of its entry first. `Grammar.first_fault` puts both together.
-/

namespace GrowthGrammar

namespace Rule

/-! ## The totals of the check -/

/-- The weight that a predecessor has gathered from some rules, in their order. -/
def total (rules : List Rule) (c : Symbol) : Float :=
  ((rules.filter (·.predecessor == c)).map (·.weight)).foldl (· + ·) 0

/-- The totals after some more rules. -/
def tally (totals : Std.HashMap Symbol Float) (rules : List Rule) : Std.HashMap Symbol Float :=
  rules.foldl (fun totals r =>
    totals.insert r.predecessor (totals.getD r.predecessor 0 + r.weight)) totals

/-- A predecessor gathers the weights of its own rules only. -/
theorem getD_tally (totals : Std.HashMap Symbol Float) (rules : List Rule) (c : Symbol) :
    (tally totals rules).getD c 0 =
      ((rules.filter (·.predecessor == c)).map (·.weight)).foldl (· + ·) (totals.getD c 0) := by
  induction rules generalizing totals with
  | nil => rfl
  | cons r rules ih =>
    refine (ih _).trans ?_
    rw [Std.HashMap.getD_insert, List.filter_cons]
    by_cases hc : r.predecessor = c
    · subst hc
      rw [if_pos (beq_self_eq_true _), if_pos (beq_self_eq_true _)]
      rfl
    · rw [if_neg (mt eq_of_beq hc), if_neg (mt eq_of_beq hc)]

theorem getD_tally_empty (rules : List Rule) (c : Symbol) :
    (tally ∅ rules).getD c 0 = total rules c := by
  rw [getD_tally, Std.HashMap.getD_empty, total]

/-- Another rule adds its weight to the total of its predecessor. -/
theorem total_append_singleton (rules : List Rule) (r : Rule) :
    total (rules ++ [r]) r.predecessor = total rules r.predecessor + r.weight := by
  simp [total]

/-- More rules are checked if there is no fault in those before, with the totals that these
leave. -/
theorem firstFault?_append (totals : Std.HashMap Symbol Float) (rules more : List Rule) :
    firstFault? totals (rules ++ more) =
      (firstFault? totals rules).or (firstFault? (tally totals rules) more) := by
  induction rules generalizing totals with
  | nil => rfl
  | cons r rules ih =>
    rw [List.cons_append, firstFault?, firstFault?]
    cases r.fault? (totals.getD r.predecessor 0 + r.weight) with
    | some e => rfl
    | none => exact ih _

/-! ## Faulty rules -/

/-- What is wrong with the rule number `i` of a list: its weight, or else its predecessor, or else
the total that it brings its predecessor to. -/
inductive FaultAt (rules : List Rule) (i : ℕ) : GrammarError → Prop
  | weight {r : Rule} : rules[i]? = some r → ¬ (r.weight > 0 ∧ r.weight.isFinite = true) →
      FaultAt rules i (.nonPositiveWeight r.predecessor r.weight)
  | marker {r : Rule} : rules[i]? = some r → r.weight > 0 ∧ r.weight.isFinite = true →
      Symbol.isMarker r.predecessor = true → FaultAt rules i (.reservedPredecessor r.predecessor)
  | total {r : Rule} : rules[i]? = some r → r.weight > 0 ∧ r.weight.isFinite = true →
      Symbol.isMarker r.predecessor = false →
      total (rules.take (i + 1)) r.predecessor > maxTotalWeight →
      FaultAt rules i (.weightOverflow r.predecessor (total (rules.take (i + 1)) r.predecessor))

/-- The rule number `i` is the first one that is faulty. -/
def FirstFaultAt (rules : List Rule) (i : ℕ) (e : GrammarError) : Prop :=
  FaultAt rules i e ∧ ∀ j < i, ∀ e', ¬ FaultAt rules j e'

/-- The fault of the rule number `i`, if there is one. -/
def faultAt? (rules : List Rule) (i : ℕ) : Option GrammarError :=
  rules[i]?.bind fun r => r.fault? (total (rules.take (i + 1)) r.predecessor)

variable {rules : List Rule} {i k : ℕ} {e : GrammarError}

theorem faultAt?_eq_some_iff : faultAt? rules i = some e ↔ FaultAt rules i e := by
  constructor
  · intro h
    obtain ⟨r, hr, hfault⟩ := Option.bind_eq_some_iff.1 h
    unfold fault? at hfault
    split at hfault
    · next hweight =>
      cases hfault
      exact .weight hr hweight
    next hweight =>
    split at hfault
    · next hmarker =>
      cases hfault
      exact .marker hr (not_not.1 hweight) hmarker
    next hmarker =>
    split at hfault
    · next htotal =>
      cases hfault
      exact .total hr (not_not.1 hweight) (Bool.eq_false_iff.2 hmarker) htotal
    · cases hfault
  · rintro (⟨hr, hweight⟩ | ⟨hr, hweight, hmarker⟩ | ⟨hr, hweight, hmarker, htotal⟩)
    all_goals rw [faultAt?, hr, Option.bind_some, fault?]
    · rw [if_pos hweight]
    · rw [if_neg (not_not.2 hweight), if_pos hmarker]
    · rw [if_neg (not_not.2 hweight), if_neg (Bool.eq_false_iff.1 hmarker), if_pos htotal]

theorem faultAt?_eq_none_iff : faultAt? rules i = none ↔ ∀ e, ¬ FaultAt rules i e := by
  simp only [← faultAt?_eq_some_iff, Option.eq_none_iff_forall_ne_some, ne_eq]

/-- A rule is faulty if one of the three checks fails. -/
theorem exists_faultAt_iff :
    (∃ e, FaultAt rules i e) ↔ ∃ r, rules[i]? = some r ∧
      (¬ (r.weight > 0 ∧ r.weight.isFinite = true) ∨ Symbol.isMarker r.predecessor = true ∨
        total (rules.take (i + 1)) r.predecessor > maxTotalWeight) := by
  constructor
  · rintro ⟨_, ⟨hr, hweight⟩ | ⟨hr, -, hmarker⟩ | ⟨hr, -, -, htotal⟩⟩
    · exact ⟨_, hr, .inl hweight⟩
    · exact ⟨_, hr, .inr (.inl hmarker)⟩
    · exact ⟨_, hr, .inr (.inr htotal)⟩
  · rintro ⟨r, hr, hfault⟩
    by_contra hnone
    have hfault? : r.fault? (total (rules.take (i + 1)) r.predecessor) = none := by
      have h := faultAt?_eq_none_iff.2 (not_exists.1 hnone)
      rwa [faultAt?, hr, Option.bind_some] at h
    obtain ⟨hweight, hmarker, htotal⟩ := fault?_eq_none_iff.1 hfault?
    rcases hfault with hfault | hfault | hfault
    · exact hfault hweight
    · exact Bool.eq_false_iff.1 hmarker hfault
    · exact htotal hfault

theorem FaultAt.lt_length (h : FaultAt rules i e) : i < rules.length := by
  obtain ⟨r, hr, -⟩ := exists_faultAt_iff.1 ⟨e, h⟩
  exact (List.getElem?_eq_some_iff.1 hr).1

/-! ## The first faulty rule -/

/-- With one rule more the check finds what it has found before, or else what is wrong with that
rule. -/
theorem firstFault?_take_succ (rules : List Rule) (k : ℕ) :
    firstFault? ∅ (rules.take (k + 1)) = (firstFault? ∅ (rules.take k)).or (faultAt? rules k) := by
  rw [faultAt?, List.take_add_one, firstFault?_append]
  congr 1
  cases rules[k]? with
  | none => rfl
  | some r =>
    rw [Option.toList_some, Option.bind_some, total_append_singleton, firstFault?,
      getD_tally_empty]
    cases r.fault? (total (rules.take k) r.predecessor + r.weight) <;> rfl

/-- The check finds nothing if no rule is faulty. -/
theorem firstFault?_take_eq_none_iff :
    firstFault? ∅ (rules.take k) = none ↔ ∀ j < k, ∀ e, ¬ FaultAt rules j e := by
  induction k with
  | zero => exact iff_of_true rfl fun _ hj => absurd hj (Nat.not_lt_zero _)
  | succ k ih =>
    rw [firstFault?_take_succ, Option.or_eq_none_iff, ih, faultAt?_eq_none_iff,
      Nat.forall_lt_succ_right]

/-- The check finds what is wrong with the first rule that is faulty. -/
theorem firstFault?_take_eq_some_iff :
    firstFault? ∅ (rules.take k) = some e ↔ ∃ i < k, FirstFaultAt rules i e := by
  induction k with
  | zero => exact iff_of_false nofun fun ⟨_, hi, _⟩ => Nat.not_lt_zero _ hi
  | succ k ih =>
    rw [firstFault?_take_succ, Option.or_eq_some_iff, ih, firstFault?_take_eq_none_iff,
      faultAt?_eq_some_iff, Nat.exists_lt_succ_right, and_comm]
    rfl

theorem firstFault?_eq_some_iff :
    firstFault? ∅ rules = some e ↔ ∃ i, FirstFaultAt rules i e := by
  rw [← rules.take_length, firstFault?_take_eq_some_iff, rules.take_length]
  exact exists_congr fun i => and_iff_right_of_imp fun h => h.1.lt_length

theorem exists_firstFault?_eq_some_iff :
    (∃ e, firstFault? ∅ rules = some e) ↔ ∃ i e, FaultAt rules i e := by
  constructor
  · rintro ⟨e, h⟩
    obtain ⟨i, h, -⟩ := firstFault?_eq_some_iff.1 h
    exact ⟨i, e, h⟩
  · rintro ⟨i, e, h⟩
    refine Option.ne_none_iff_exists'.1 fun hnone => ?_
    rw [← rules.take_length, firstFault?_take_eq_none_iff] at hnone
    exact hnone i h.lt_length e h

/-- The rule number `i` is the first one that is faulty if the rules before it pass the check and
fail together with it. -/
theorem firstFaultAt_iff_take :
    FirstFaultAt rules i e ↔
      firstFault? ∅ (rules.take i) = none ∧ firstFault? ∅ (rules.take (i + 1)) = some e := by
  rw [firstFault?_take_succ, firstFault?_take_eq_none_iff, FirstFaultAt, ← faultAt?_eq_some_iff,
    and_comm]
  refine and_congr_right fun h => ?_
  rw [firstFault?_take_eq_none_iff.2 h, Option.none_or]

end Rule

namespace Grammar

variable {start : Word} {rules : List Rule} {generations : ℕ} {e : GrammarError}

theorem new?_eq_error_iff :
    new? start rules generations = .error e ↔ Rule.firstFault? ∅ rules = some e := by
  unfold new?
  split
  · next h => simp [h]
  · next h => simp [h]

theorem exists_new?_eq_ok_iff :
    (∃ g, new? start rules generations = .ok g) ↔ Rule.firstFault? ∅ rules = none := by
  unfold new?
  split
  · next h => simp [h]
  · next h => simp [h]

end Grammar

/-! ## The entries of a file -/

namespace RuleEntry

/-- The predecessor of an entry as the file writes it. -/
def text (e : RuleEntry) : String := e.predecessor?.getD ""

/-- An entry is made a rule: its text is the predecessor alone, and a weight that is left out is
one. -/
structure Describes (e : RuleEntry) (r : Rule) : Prop where
  text : e.text.toList = [r.predecessor]
  replacement : r.replacement = Word.ofString (e.replacement?.getD "")
  weight : r.weight = e.weight?.getD 1

theorem toRule_eq (e : RuleEntry) :
    e.toRule = match e.text.toList with
      | [c] => .ok ⟨c, Word.ofString (e.replacement?.getD ""), e.weight?.getD 1⟩
      | _ => .error (.invalidSymbol e.text) := rfl

theorem exists_describes {e : RuleEntry} {c : Symbol} (h : e.text.toList = [c]) :
    ∃ r, e.Describes r ∧ e.toRule = .ok r := by
  refine ⟨⟨c, Word.ofString (e.replacement?.getD ""), e.weight?.getD 1⟩, ⟨h, rfl, rfl⟩, ?_⟩
  rw [toRule_eq, h]

theorem toRule_of_ne {e : RuleEntry} (h : ∀ c, e.text.toList ≠ [c]) :
    e.toRule = .error (.invalidSymbol e.text) := by
  rw [toRule_eq]
  split
  · next c hc => exact absurd hc (h c)
  · rfl

/-- Entries whose texts are single characters are made rules one by one. -/
theorem exists_mapM_toRule {entries : List RuleEntry}
    (h : ∀ e ∈ entries, ∃ c, e.text.toList = [c]) :
    ∃ rules, List.Forall₂ Describes entries rules ∧ entries.mapM toRule = .ok rules := by
  induction entries with
  | nil => exact ⟨[], .nil, rfl⟩
  | cons e entries ih =>
    obtain ⟨⟨c, hc⟩, hentries⟩ := List.forall_mem_cons.1 h
    obtain ⟨r, hr, htoRule⟩ := exists_describes hc
    obtain ⟨rules, hrules, hmapM⟩ := ih hentries
    refine ⟨r :: rules, .cons hr hrules, ?_⟩
    rw [List.mapM_cons, htoRule, hmapM]
    rfl

/-- The first text that is no single character is reported. -/
theorem mapM_toRule_of_ne {entries : List RuleEntry} {i : ℕ} {e : RuleEntry}
    (hi : entries[i]? = some e) (he : ∀ c, e.text.toList ≠ [c])
    (hbefore : ∀ j < i, ∀ d, entries[j]? = some d → ∃ c, d.text.toList = [c]) :
    entries.mapM toRule = .error (.invalidSymbol e.text) := by
  induction entries generalizing i with
  | nil => cases hi
  | cons d entries ih =>
    rw [List.mapM_cons]
    cases i with
    | zero =>
      cases hi
      rw [toRule_of_ne he]
      rfl
    | succ i =>
      obtain ⟨c, hc⟩ := hbefore 0 i.succ_pos d rfl
      obtain ⟨r, -, htoRule⟩ := exists_describes hc
      rw [htoRule, ih hi fun j hj => hbefore (j + 1) (Nat.succ_lt_succ hj)]
      rfl

end RuleEntry

/-- How a file becomes a grammar. The texts of the predecessors come first, whatever is wrong with
the rules, and then the rules are checked. -/
structure GrammarEntry.Yields (entry : GrammarEntry) (result : Except GrammarError Grammar) :
    Prop where
  invalid : ∀ (i : ℕ) (r : RuleEntry), (entry.rules?.getD [])[i]? = some r →
    (∀ c, r.text.toList ≠ [c]) →
    (∀ j < i, ∀ q, (entry.rules?.getD [])[j]? = some q → ∃ c, q.text.toList = [c]) →
      result = .error (.invalidSymbol r.text)
  valid : (∀ r ∈ entry.rules?.getD [], ∃ c, r.text.toList = [c]) →
    ∃ rules, List.Forall₂ RuleEntry.Describes (entry.rules?.getD []) rules ∧
      result = Grammar.new? (Word.ofString (entry.start?.getD "")) rules
        (entry.generations?.getD 0)

theorem GrammarEntry.yields_toGrammar (entry : GrammarEntry) : entry.Yields entry.toGrammar where
  invalid i r hi hr hbefore := by
    rw [toGrammar, RuleEntry.mapM_toRule_of_ne hi hr hbefore]
    rfl
  valid h := by
    obtain ⟨rules, hrules, hmapM⟩ := RuleEntry.exists_mapM_toRule h
    refine ⟨rules, hrules, ?_⟩
    rw [toGrammar, hmapM]
    rfl

namespace Grammar

/-- What the check of a grammar answers. -/
structure Checked (start : Word) (rules : List Rule) (generations : ℕ) : Prop where
  /-- It fails if a rule has a bad weight, replaces a marker or brings the total of its predecessor
  beyond the greatest one. -/
  fails : (∃ e, new? start rules generations = .error e) ↔ ∃ (i : ℕ) (r : Rule),
    rules[i]? = some r ∧ (¬ (r.weight > 0 ∧ r.weight.isFinite = true) ∨
      Symbol.isMarker r.predecessor = true ∨
      Rule.total (rules.take (i + 1)) r.predecessor > maxTotalWeight)
  /-- It answers what is wrong with the first rule that is faulty. -/
  first : ∀ e, new? start rules generations = .error e ↔ ∃ i, Rule.FirstFaultAt rules i e
  /-- That is the rule with which the rules before it are refused, but not without it. -/
  prefixes : ∀ i e, Rule.FirstFaultAt rules i e ↔
    (∃ g, new? start (rules.take i) generations = .ok g) ∧
      new? start (rules.take (i + 1)) generations = .error e
  /-- More rules do not change what is answered. -/
  append : ∀ e, new? start rules generations = .error e →
    ∀ start more generations, new? start (rules ++ more) generations = .error e

theorem checked (start : Word) (rules : List Rule) (generations : ℕ) :
    Checked start rules generations where
  fails := by
    simp only [new?_eq_error_iff, Rule.exists_firstFault?_eq_some_iff, Rule.exists_faultAt_iff]
  first e := new?_eq_error_iff.trans Rule.firstFault?_eq_some_iff
  prefixes i e := by
    rw [exists_new?_eq_ok_iff, new?_eq_error_iff]
    exact Rule.firstFaultAt_iff_take
  append e h start more generations := by
    rw [new?_eq_error_iff] at h ⊢
    rw [Rule.firstFault?_append, h, Option.some_or]

/-- The check of a grammar finds the first faulty rule, and a file is checked for the texts of its
predecessors before that. -/
theorem first_fault :
    (∀ start rules generations, Checked start rules generations) ∧
    (∀ entry : GrammarEntry, entry.Yields entry.toGrammar) ∧
    (∀ text entry, (Ron.Reader.document GrammarEntry.read).run text = .ok entry →
      entry.Yields (ofRon? text)) ∧
    ∀ entry : ConfigEntry,
      (entry.grammar?.getD {}).Yields (entry.toConfig.map (·.grammar)) := by
  refine ⟨checked, GrammarEntry.yields_toGrammar, fun text entry h => ?_, fun entry => ?_⟩
  · rw [ofRon?, h]
    exact entry.yields_toGrammar
  · have hgrammar : entry.toConfig.map (·.grammar) = (entry.grammar?.getD {}).toGrammar := by
      rw [ConfigEntry.toConfig]
      cases (entry.grammar?.getD {}).toGrammar <;> rfl
    rw [hgrammar]
    exact GrammarEntry.yields_toGrammar _

/-- Rules with two faults: the second rule has no weight and replaces a marker, and the last one is
too heavy. -/
def faultyRules : List Rule := [⟨'A', ['B'], 1⟩, ⟨'[', [], 0⟩, ⟨'A', [], greatestFinite⟩]

/-- The text of a grammar whose first rule replaces a marker and whose second one a word. -/
def faultyText : String :=
  "(axiom:\"A\",rules:[(predecessor:\"[\",replacement:\"\"),(predecessor:\"AB\",replacement:\"\")])"

/-- The weight of a rule comes before its predecessor, an earlier rule before a later one, and the
text of a predecessor before everything else. -/
theorem first_fault_of_several :
    new? ['A'] faultyRules 1 = .error (.nonPositiveWeight '[' 0) ∧
    new? [] (faultyRules ++ [⟨']', [], 1⟩]) 0 = .error (.nonPositiveWeight '[' 0) ∧
    ofRon? faultyText = .error (.invalidSymbol "AB") := by
  obtain ⟨hchecked, -, htext, -⟩ := first_fault
  have hfirst : Rule.FirstFaultAt faultyRules 1 (.nonPositiveWeight '[' 0) := by
    refine ⟨.weight (r := ⟨'[', [], 0⟩) rfl (by decide), fun j hj e he => ?_⟩
    obtain rfl := Nat.lt_one_iff.1 hj
    obtain ⟨r, hr, hfault⟩ := Rule.exists_faultAt_iff.1 ⟨e, he⟩
    cases hr
    revert hfault
    decide +kernel
  have herror := ((hchecked ['A'] faultyRules 1).first _).2 ⟨1, hfirst⟩
  refine ⟨herror, (hchecked ['A'] faultyRules 1).append _ herror .., ?_⟩
  have hread : ((Ron.Reader.document GrammarEntry.read).run faultyText).toOption.map
      (fun entry => (entry.rules?.getD []).map RuleEntry.text) = some ["[", "AB"] := by
    decide +kernel
  cases hentry : (Ron.Reader.document GrammarEntry.read).run faultyText with
  | error failure =>
    rw [hentry] at hread
    cases hread
  | ok entry =>
    rw [hentry] at hread
    obtain ⟨p, ps, hp, hptext, hps⟩ := List.map_eq_cons_iff.1 (Option.some.inj hread)
    obtain ⟨q, qs, rfl, hqtext, -⟩ := List.map_eq_cons_iff.1 hps
    rw [← hqtext]
    refine (htext _ entry hentry).invalid 1 q (by rw [hp]; rfl) (by rw [hqtext]; nofun) ?_
    intro j hj d hd
    obtain rfl := Nat.lt_one_iff.1 hj
    rw [hp] at hd
    cases hd
    exact ⟨'[', hptext ▸ rfl⟩

end Grammar

end GrowthGrammar
