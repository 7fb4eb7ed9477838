import GrowthGrammar.Grammar.Basic

/-!
# Derivation

An `Engine` derives words from a grammar. Its `RuleIndex` holds, for every predecessor, the
replacements to choose from (`Alternatives`): a single one is taken without a draw, of several ones
the number is drawn by weight. `Engine.derive` replaces every symbol of a word once, from left to
right on one generator, of whatever type; `Engine.expandWith` derives the start word generation by
generation. `Engine.expand` seeds a `Generator` itself, as its `ExpansionSeed` says, and counts its
calls.
-/

namespace GrowthGrammar

/-- How an engine seeds the choice of rules. -/
inductive ExpansionSeed where
  /-- The same seed on every call. -/
  | fixed (seed : UInt64)
  /-- The seed plus the number of the call. -/
  | perCall (seed : UInt64)
  /-- A fresh generator on every call, supplied by the caller. -/
  | entropy
  deriving DecidableEq, Repr

/-- Without a choice, every call starts from the seed zero. -/
instance : Inhabited ExpansionSeed := ⟨.fixed 0⟩

/-- The generator of the call with the given number. `fresh` is used for `entropy` alone. -/
def ExpansionSeed.generator (fresh : Generator) (call : Nat) : ExpansionSeed → Generator
  | .fixed seed => .ofSeed seed
  | .perCall seed => .ofSeed (seed + call.toUInt64)
  | .entropy => fresh

/-- The replacements of one predecessor, in the order of its rules. -/
structure Alternatives where
  replacements : List Word
  /-- The choice of a number. A single replacement is taken without a draw and has none. -/
  choice? : Option WeightedIndex

namespace Alternatives

/-- The alternatives of one predecessor's weighted replacements, in their order. -/
def ofList? (weighted : List (Float × Word)) : Except WeightsError Alternatives :=
  let replacements := weighted.map (·.2)
  if 1 < weighted.length then do
    let choice ← WeightedIndex.ofWeights? (weighted.map (·.1))
    return ⟨replacements, some choice⟩
  else .ok ⟨replacements, none⟩

variable {ρ : Type} [RandomBits ρ]

/-- Draws the number of a replacement. -/
def number (a : Alternatives) : StateM ρ Nat :=
  match a.choice? with
  | some choice => choice.sample
  | none => pure 0

/-- Chooses the replacement with the number that is drawn. -/
def choose (a : Alternatives) : StateM ρ Word := do
  return a.replacements.getD (← a.number) []

end Alternatives

/-- The alternatives of every predecessor. -/
abbrev RuleIndex := Std.HashMap Symbol Alternatives

namespace RuleIndex

/-- The weighted replacements of every predecessor, each in the order of its rules. -/
def groupRules (rules : List Rule) : Std.HashMap Symbol (List (Float × Word)) :=
  rules.foldl (fun groups r =>
    groups.insert r.predecessor (groups.getD r.predecessor [] ++ [(r.weight, r.replacement)])) ∅

/-- The index of grouped replacements. -/
def ofGroups? (groups : List (Symbol × List (Float × Word))) : Except GrammarError RuleIndex :=
  groups.foldlM (fun index (c, weighted) =>
    match Alternatives.ofList? weighted with
    | .ok alternatives => .ok (index.insert c alternatives)
    | .error cause => .error (.weights c cause)) ∅

/-- The index of some rules. -/
def ofRules? (rules : List Rule) : Except GrammarError RuleIndex :=
  ofGroups? (groupRules rules).toList

end RuleIndex

/-- Derives words from a grammar. -/
structure Engine where
  grammar : Grammar
  index : RuleIndex
  /-- The index is that of the grammar's rules. -/
  indexed : RuleIndex.ofRules? grammar.rules = .ok index
  seed : ExpansionSeed
  /-- The number of calls of `expand` so far. -/
  calls : Nat

namespace Engine

/-- The engine of a grammar, with no call made yet. -/
def new? (grammar : Grammar) (seed : ExpansionSeed) : Except GrammarError Engine :=
  match h : RuleIndex.ofRules? grammar.rules with
  | .ok index => .ok ⟨grammar, index, h, seed, 0⟩
  | .error e => .error e

section
variable {ρ : Type} [RandomBits ρ]

/-- The replacement of a symbol; a symbol without rules is kept. -/
def replace (e : Engine) (c : Symbol) : StateM ρ Word :=
  match e.index[c]? with
  | some alternatives => alternatives.choose
  | none => pure [c]

/-- Replaces every symbol of a word once, from left to right. -/
def derive (e : Engine) (w : Word) : StateM ρ Word := w.flatMapM e.replace

/-- Derives a word for a number of generations. -/
def deriveTimes (e : Engine) : Nat → Word → StateM ρ Word
  | 0, w => pure w
  | generations + 1, w => do e.deriveTimes generations (← e.derive w)

/-- Derives the start word for the generations of the grammar. -/
def expandWith (e : Engine) : StateM ρ Word :=
  e.deriveTimes e.grammar.generations e.grammar.start

end

/-- Derives the start word with a generator that the engine seeds, and counts the call. -/
def expand (e : Engine) (fresh : Generator) : Word × Engine :=
  let (w, _) := e.expandWith (e.seed.generator fresh e.calls)
  (w, { e with calls := e.calls + 1 })

/-- Derives the start word as `expand` does, and answers its text. -/
def expandText (e : Engine) (fresh : Generator) : String × Engine :=
  let (w, e) := e.expand fresh
  (w.render, e)

end Engine

end GrowthGrammar
