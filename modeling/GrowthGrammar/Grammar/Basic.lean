import GrowthGrammar.Decimal.Layout
import GrowthGrammar.File.Tree
import GrowthGrammar.Random.Weighted
import GrowthGrammar.Ron.Failure
import GrowthGrammar.Word.Basic
import Std.Data.HashMap

/-!
# Grammars

A `Grammar` has a start word, a list of weighted replacement rules and a number of generations.
`Grammar.new?` checks the rules in their order and refuses the first faulty one: its weight has to
be positive and finite, its predecessor must not be a branch marker, and the weights of one
predecessor must not add up beyond `maxTotalWeight`. A `Grammar` carries the proof that its rules
passed.
-/

namespace GrowthGrammar

/-- A rule replaces its predecessor by its replacement, with a probability proportional to its
weight among the rules of the same predecessor. -/
structure Rule where
  predecessor : Symbol
  replacement : Word
  weight : Float
  deriving BEq

/-- Why a grammar is refused. -/
inductive GrammarError where
  | nonPositiveWeight (symbol : Symbol) (weight : Float)
  | weightOverflow (symbol : Symbol) (total : Float)
  | reservedPredecessor (symbol : Symbol)
  | invalidSymbol (text : String)
  | weights (symbol : Symbol) (cause : WeightsError)
  | file (cause : FileError)
  | ron (failure : Ron.Failure)

/-- The wording of a grammar error. -/
def GrammarError.message : GrammarError → String
  | .nonPositiveWeight symbol weight =>
    "rule for '" ++ symbol.toString ++ "' has non-positive weight " ++ plainText weight
  | .weightOverflow symbol total =>
    "weights for '" ++ symbol.toString ++ "' sum to " ++ plainText total
      ++ ", beyond what the sampler can draw from"
  | .reservedPredecessor symbol =>
    "branch marker '" ++ symbol.toString ++ "' cannot be a rule predecessor"
  | .invalidSymbol text => "invalid symbol '" ++ text ++ "': expected exactly one character"
  | .weights symbol cause =>
    "invalid weights for '" ++ symbol.toString ++ "': " ++ cause.message
  | .file cause => "IO error: " ++ cause.message
  | .ron failure => "RON deserialization error: " ++ failure.message

/-- The greatest sum of the weights of one predecessor. A weighted choice scales its draw by the
total, which must stay finite. -/
def maxTotalWeight : Float := greatestFinite / 2

namespace Rule

/-- The fault of a rule that brings the weights of its predecessor to `total`. -/
def fault? (total : Float) (r : Rule) : Option GrammarError :=
  if ¬ (r.weight > 0 ∧ r.weight.isFinite) then some (.nonPositiveWeight r.predecessor r.weight)
  else if Symbol.isMarker r.predecessor then some (.reservedPredecessor r.predecessor)
  else if total > maxTotalWeight then some (.weightOverflow r.predecessor total)
  else none

/-- The fault of the first faulty rule. `totals` holds the weights that each predecessor has
gathered so far. -/
def firstFault? (totals : Std.HashMap Symbol Float) : List Rule → Option GrammarError
  | [] => none
  | r :: rules =>
    let total := totals.getD r.predecessor 0 + r.weight
    match r.fault? total with
    | some e => some e
    | none => firstFault? (totals.insert r.predecessor total) rules

end Rule

/-- A start word, rules and a number of generations. -/
structure Grammar where
  start : Word
  rules : List Rule
  generations : Nat
  /-- The rules passed the check. -/
  faultless : Rule.firstFault? ∅ rules = none

namespace Grammar

/-- The grammar of a start word, rules and a number of generations, or the fault of the first faulty
rule. -/
def new? (start : Word) (rules : List Rule) (generations : Nat) : Except GrammarError Grammar :=
  match h : Rule.firstFault? ∅ rules with
  | none => .ok ⟨start, rules, generations, h⟩
  | some e => .error e

/-- The same start word and rules with another number of generations. -/
def withGenerations (g : Grammar) (generations : Nat) : Grammar := { g with generations }

/-- The rules of a predecessor in their order. -/
def rulesFor (g : Grammar) (c : Symbol) : List Rule := g.rules.filter (·.predecessor == c)

/-- Grammars are equal if their start words, rules and numbers of generations are. -/
instance : BEq Grammar :=
  ⟨fun g h => g.start == h.start && g.rules == h.rules && g.generations == h.generations⟩

end Grammar

end GrowthGrammar
