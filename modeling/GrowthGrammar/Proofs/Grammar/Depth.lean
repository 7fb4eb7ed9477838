import GrowthGrammar.Proofs.Grammar.Derivation
import GrowthGrammar.Proofs.Word.Depth

/-!
# The depth of derived words

Replacements that close what they open, and nothing else, do not touch the branches of the word
around them. One generation therefore keeps the balance of every word, also of a faulty one, and
makes it deeper by no more than the deepest replacement (`Grammar.replacementDepth`); `n`
generations make it deeper by no more than `n` times as much. `Grammar.Derives.maxDepthFrom` says so
for one derivation, whatever rules are chosen; the words that an engine makes follow.
-/

namespace GrowthGrammar

namespace Grammar

/-- The depth of the deepest replacement, or zero if there are no rules. -/
def replacementDepth (g : Grammar) : ℕ := ((g.rules.map (·.replacement.maxDepth)).max?).getD 0

theorem maxDepth_le_replacementDepth {g : Grammar} {r : Rule} (hr : r ∈ g.rules) :
    r.replacement.maxDepth ≤ g.replacementDepth := by
  have hmem : r.replacement.maxDepth ∈ g.rules.map (·.replacement.maxDepth) :=
    List.mem_map_of_mem hr
  exact List.le_max?_getD_of_mem hmem

/-- A derivation by balanced replacements makes the rest of a word deeper by at most the depth of a
replacement. The peaks `p` and `q` are what was reached before on either side; they are at least the
depth `d` at which both go on, and differ by no more than the bound. -/
theorem Derives.maxDepthFrom {g : Grammar} (h : ∀ r ∈ g.rules, r.replacement.balance? = some 0)
    {u v : Word} (hd : g.Derives u v) {d p q : ℕ} (hdp : d ≤ p) (hpq : p ≤ q)
    (hqp : q ≤ p + g.replacementDepth) :
    Word.maxDepthFrom d p u ≤ Word.maxDepthFrom d q v ∧
      Word.maxDepthFrom d q v ≤ Word.maxDepthFrom d p u + g.replacementDepth := by
  induction hd generalizing d p q with
  | nil => exact ⟨hpq, hqp⟩
  | @replace r u v hr _ ih =>
    have hle := maxDepth_le_replacementDepth hr
    rw [Word.maxDepthFrom_symbol (g.isMarker_predecessor hr),
      Word.maxDepthFrom_balanced_append (h r hr) (hdp.trans hpq)]
    exact ih hdp (by omega) (by omega)
  | @keep c u v _ _ ih =>
    rcases Symbol.marker_cases c with rfl | rfl | hc
    · exact ih (by omega) (by omega) (by omega)
    · exact ih (by omega) hpq hqp
    · rw [Word.maxDepthFrom_symbol hc, Word.maxDepthFrom_symbol hc]
      exact ih hdp hpq hqp

/-- A derivation by balanced replacements makes a word no flatter, and deeper by at most the depth
of a replacement. -/
theorem Derives.maxDepth {g : Grammar} (h : ∀ r ∈ g.rules, r.replacement.balance? = some 0)
    {u v : Word} (hd : g.Derives u v) :
    u.maxDepth ≤ v.maxDepth ∧ v.maxDepth ≤ u.maxDepth + g.replacementDepth :=
  hd.maxDepthFrom h (Nat.le_refl 0) (Nat.le_refl 0) (Nat.zero_le _)

end Grammar

namespace Engine

variable {ρ : Type} [RandomBits ρ] {e : Engine}

/-- All generations of a word have its balance, or have none if it has none. -/
theorem balance?_deriveTimes (h : ∀ r ∈ e.grammar.rules, r.replacement.balance? = some 0) (n : ℕ)
    (w : Word) (rng : ρ) : (e.deriveTimes n w rng).1.balance? = w.balance? := by
  induction n generalizing w rng with
  | zero => rfl
  | succ n ih => exact (ih _ _).trans ((e.derives w rng).balanceFrom? h 0)

/-- An expansion has the balance of the start word, or has none if the start word has none. -/
theorem balance?_expand (h : ∀ r ∈ e.grammar.rules, r.replacement.balance? = some 0)
    (fresh : Generator) : (e.expand fresh).1.balance? = e.grammar.start.balance? :=
  balance?_deriveTimes h e.grammar.generations e.grammar.start (e.seed.generator fresh e.calls)

/-- No generation of a word is flatter than the word, and each one is deeper than the one before it
by at most the depth of a replacement. -/
theorem maxDepth_deriveTimes (h : ∀ r ∈ e.grammar.rules, r.replacement.balance? = some 0) (n : ℕ)
    (w : Word) (rng : ρ) :
    w.maxDepth ≤ (e.deriveTimes n w rng).1.maxDepth ∧
      (e.deriveTimes n w rng).1.maxDepth ≤ w.maxDepth + n * e.grammar.replacementDepth := by
  induction n generalizing w rng with
  | zero => exact ⟨Nat.le_refl _, Nat.le_add_right _ _⟩
  | succ n ih =>
    obtain ⟨hlow, hhigh⟩ := (e.derives w rng).maxDepth h
    obtain ⟨hlow', hhigh'⟩ := ih (e.derive w rng).1 (e.derive w rng).2
    refine ⟨hlow.trans hlow', hhigh'.trans ?_⟩
    rw [Nat.succ_mul]
    omega

end Engine

end GrowthGrammar
