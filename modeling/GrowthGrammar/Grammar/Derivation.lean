import GrowthGrammar.Grammar.Basic

/-!
# Derivations

`Grammar.Derives` is the relation between a word and the words of the next generation, whatever
rules are chosen; `Grammar.Generates` relates a generation to its words. A symbol occurs in a
grammar if some word of some generation holds it. No weight and no random draw is mentioned.
-/

namespace GrowthGrammar.Grammar

/-- The second word arises from the first one by replacing every symbol that has rules by the
replacement of one of them, and keeping the others. -/
inductive Derives (g : Grammar) : Word → Word → Prop where
  | nil : Derives g [] []
  | replace {r : Rule} {u v : Word} : r ∈ g.rules → Derives g u v →
      Derives g (r.predecessor :: u) (r.replacement ++ v)
  | keep {c : Symbol} {u v : Word} : (∀ r ∈ g.rules, r.predecessor ≠ c) → Derives g u v →
      Derives g (c :: u) (c :: v)

/-- The words of a generation. -/
inductive Generates (g : Grammar) : Nat → Word → Prop where
  | start : Generates g 0 g.start
  | next {n : Nat} {u v : Word} : Generates g n u → Derives g u v → Generates g (n + 1) v

/-- A symbol occurs if a word of some generation holds it. -/
def Occurs (g : Grammar) (c : Symbol) : Prop := ∃ n w, g.Generates n w ∧ c ∈ w

/-- Derivations of the parts of a word are a derivation of the whole. -/
theorem Derives.append {g : Grammar} {u v u' v' : Word} (h : g.Derives u v)
    (h' : g.Derives u' v') : g.Derives (u ++ u') (v ++ v') := by
  induction h with
  | nil => exact h'
  | replace hr _ ih => simpa using Derives.replace hr ih
  | keep hc _ ih => simpa using Derives.keep hc ih

end GrowthGrammar.Grammar
