import GrowthGrammar.Grammar.Derivation
import GrowthGrammar.Proofs.Grammar.Scan
import GrowthGrammar.Proofs.Word.Balance

/-!
# Engines derive

Whatever an engine draws, the words that it makes are derivations: `Engine.derives` for one
generation and `Engine.generates` for all of them. What holds of all derivations therefore holds of
all words that an engine makes, for every seed and every generator. The first use of it is
`Grammar.Balanced.balance?_of_generates`: if the start word and all replacements close what they
open, so do all words of all generations.
-/

namespace GrowthGrammar

/-! ## Derivations of an engine -/

section
variable {ρ : Type} [RandomBits ρ]

/-- A scan of a symbol keeps it if it has no rule, and otherwise applies one of its rules. -/
theorem Grammar.scanSymbol_cases (g : Grammar) (c : Symbol) (rng : ρ) :
    ((∀ r ∈ g.rules, r.predecessor ≠ c) ∧ (g.scanSymbol c rng).1 = [c]) ∨
      ∃ r ∈ g.rules, r.predecessor = c ∧ (g.scanSymbol c rng).1 = r.replacement := by
  have hmem : ∀ {r}, r ∈ g.rulesFor c → r ∈ g.rules ∧ r.predecessor = c := fun hr =>
    ⟨(List.mem_filter.1 hr).1, eq_of_beq (List.mem_filter.1 hr).2⟩
  match hrules : g.rulesFor c with
  | [] =>
    refine .inl ⟨fun r hr hc => ?_, by rw [scanSymbol_of_nil hrules]⟩
    have hnil : r ∈ g.rulesFor c := List.mem_filter.2 ⟨hr, beq_iff_eq.2 hc⟩
    rw [hrules] at hnil
    cases hnil
  | [r] =>
    obtain ⟨hr, hc⟩ := hmem (hrules ▸ List.mem_singleton_self r)
    exact .inr ⟨r, hr, hc, by rw [scanSymbol_of_singleton hrules]⟩
  | r₁ :: r₂ :: rules =>
    have hlt := drawnIndex_lt_length (hrules ▸ List.cons_ne_nil _ _) (g.drawFor c rng)
    obtain ⟨hr, hc⟩ := hmem (List.getElem_mem hlt)
    refine .inr ⟨_, hr, hc, ?_⟩
    rw [scanSymbol_of_two_le (by simp [hrules]) rng (List.getElem?_eq_getElem hlt)]

namespace Engine

/-- The word that an engine makes of a word is derived from it. -/
theorem derives (e : Engine) (w : Word) (rng : ρ) :
    e.grammar.Derives w (e.derive w rng).1 := by
  rw [derive_eq_scan]
  induction w generalizing rng with
  | nil => exact .nil
  | cons c w ih =>
    rw [Grammar.scan_cons]
    rcases e.grammar.scanSymbol_cases c rng with ⟨hkeep, hword⟩ | ⟨r, hr, rfl, hword⟩
    · rw [hword]
      exact .keep hkeep (ih _)
    · rw [hword]
      exact .replace hr (ih _)

/-- Deriving a word of a generation some times makes a word of a later generation. -/
theorem generates_deriveTimes (e : Engine) {m : ℕ} {w : Word} (h : e.grammar.Generates m w)
    (n : ℕ) (rng : ρ) : e.grammar.Generates (m + n) (e.deriveTimes n w rng).1 := by
  induction n generalizing m w rng with
  | zero => exact h
  | succ n ih =>
    have hstep : (e.deriveTimes (n + 1) w rng).1 =
        (e.deriveTimes n (e.derive w rng).1 (e.derive w rng).2).1 := rfl
    rw [hstep, ← Nat.add_assoc, Nat.add_right_comm]
    exact ih (h.next (e.derives w rng)) _

/-- The word that an engine expands to belongs to the generation that its grammar asks for. -/
theorem generates (e : Engine) (rng : ρ) :
    e.grammar.Generates e.grammar.generations (e.expandWith rng).1 := by
  have h := e.generates_deriveTimes .start e.grammar.generations rng
  rw [Nat.zero_add] at h
  exact h

/-- So does the word that it expands to with a generator that it seeds itself. -/
theorem generates_expand (e : Engine) (fresh : Generator) :
    e.grammar.Generates e.grammar.generations (e.expand fresh).1 :=
  e.generates (e.seed.generator fresh e.calls)

end Engine

end

namespace Grammar

/-! ## Parts of a derivation -/

/-- A symbol without rules stays where it is. -/
theorem Derives.of_cons {g : Grammar} {c : Symbol} {u w : Word} (h : g.Derives (c :: u) w)
    (hc : ∀ r ∈ g.rules, r.predecessor ≠ c) : ∃ v, w = c :: v ∧ g.Derives u v := by
  cases h with
  | replace hr _ => exact absurd rfl (hc _ hr)
  | keep _ hrest => exact ⟨_, rfl, hrest⟩

/-- What two words become together is what they become one by one. -/
theorem Derives.of_append {g : Grammar} {u v w : Word} (h : g.Derives (u ++ v) w) :
    ∃ u' v', w = u' ++ v' ∧ g.Derives u u' ∧ g.Derives v v' := by
  induction u generalizing w with
  | nil => exact ⟨[], w, rfl, .nil, h⟩
  | cons c u ih =>
    cases h with
    | replace hr hrest =>
      obtain ⟨u', v', rfl, hu, hv⟩ := ih hrest
      exact ⟨_, v', (List.append_assoc ..).symm, .replace hr hu, hv⟩
    | keep hc hrest =>
      obtain ⟨u', v', rfl, hu, hv⟩ := ih hrest
      exact ⟨_, v', rfl, .keep hc hu, hv⟩

/-! ## Balanced grammars -/

/-- The start word and all replacements close what they open, and nothing else. -/
structure Balanced (g : Grammar) : Prop where
  start : g.start.balance? = some 0
  replacement : ∀ r ∈ g.rules, r.replacement.balance? = some 0

/-- A derivation by balanced replacements keeps the balance of the word, or that it has none, from
every depth on. -/
theorem Derives.balanceFrom? {g : Grammar} (h : ∀ r ∈ g.rules, r.replacement.balance? = some 0)
    {u v : Word} (hd : g.Derives u v) (d : ℕ) : Word.balanceFrom? d v = Word.balanceFrom? d u := by
  induction hd generalizing d with
  | nil => rfl
  | replace hr _ ih =>
    rw [Word.balanceFrom?_balanced_append (h _ hr), ih,
      Word.balanceFrom?_symbol (g.isMarker_predecessor hr)]
  | @keep c u v _ _ ih =>
    rw [← List.singleton_append, Word.balanceFrom?_append, ← List.singleton_append (l := u),
      Word.balanceFrom?_append]
    cases Word.balanceFrom? d [c] with
    | none => rfl
    | some k => exact ih k

/-- All words of all generations of a balanced grammar are balanced. -/
theorem Balanced.balance?_of_generates {g : Grammar} (h : g.Balanced) {n : ℕ} {w : Word}
    (hw : g.Generates n w) : w.balance? = some 0 := by
  induction hw with
  | start => exact h.start
  | next _ hd ih => exact (hd.balanceFrom? h.replacement 0).trans ih

end Grammar

end GrowthGrammar
