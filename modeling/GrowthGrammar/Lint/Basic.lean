import GrowthGrammar.Grammar.Basic

/-!
# Checking a grammar before it is grown

`lint` finds what would go wrong when a grammar is grown. Errors are words whose branch markers do
not match: the start word or a replacement. Warnings are rules that will almost never be chosen,
rules whose predecessor never occurs, and symbols that occur but mean nothing. Which symbols occur
is computed by `Grammar.reachable`: the symbols of the start word, closed under the rules.
-/

namespace GrowthGrammar

/-- Rules below this share of the weight of their predecessor are reported. -/
def leastShare : Float := 0.001

/-- A rule as reports write it. -/
def Rule.describe (r : Rule) : String :=
  "'" ++ r.predecessor.toString ++ " → " ++ Word.render r.replacement ++ "'"

/-- A word of a grammar. -/
inductive WordOf where
  | start
  | replacementOf (rule : Rule)

/-- How reports name a word of a grammar. -/
def WordOf.describe : WordOf → String
  | .start => "Axiom"
  | .replacementOf r => "Rule " ++ r.describe

/-- A word whose branch markers do not match. -/
inductive LintError where
  | leavesOpen (word : WordOf) (count : Nat)
  | closesUnopened (word : WordOf)

/-- The wording of a lint error. -/
def LintError.message : LintError → String
  | .leavesOpen word count => word.describe ++ " leaves " ++ toString count ++ " branch(es) open"
  | .closesUnopened word => word.describe ++ " closes a branch it never opened"

/-- A part of a grammar that is likely not meant. -/
inductive LintWarning where
  | lowShare (rule : Rule) (share : Float)
  | unreached (predecessor : Symbol)
  | inert (symbol : Symbol)

/-- The wording of a lint warning. -/
def LintWarning.message : LintWarning → String
  | .lowShare r share =>
    "Rule " ++ r.describe ++ " has weight share " ++ fixedText 5 share
      ++ "; it will almost never fire"
  | .unreached c => "Rule for '" ++ c.toString ++ "' is never reached from the axiom"
  | .inert c => "Symbol '" ++ c.toString ++ "' has no rule and no instruction; it will be inert"

/-- What a check of a grammar found. -/
structure LintReport where
  errors : List LintError
  warnings : List LintWarning

namespace Grammar

/-- The fault of the branch markers of a word. -/
def branchFault? (name : WordOf) (w : Word) : Option LintError :=
  match w.balance? with
  | some 0 => none
  | some count => some (.leavesOpen name count)
  | none => some (.closesUnopened name)

/-- The words of a grammar whose branch markers do not match. -/
def branchFaults (g : Grammar) : List LintError :=
  (branchFault? .start g.start).toList
    ++ g.rules.filterMap fun r => branchFault? (.replacementOf r) r.replacement

/-- The total weight of every predecessor. -/
def totalWeights (g : Grammar) : Std.HashMap Symbol Float :=
  g.rules.foldl (fun totals r =>
    totals.insert r.predecessor (totals.getD r.predecessor 0 + r.weight)) ∅

/-- The rules that will almost never be chosen. -/
def lowShares (g : Grammar) : List LintWarning :=
  let totals := g.totalWeights
  g.rules.filterMap fun r =>
    let share := r.weight / totals.getD r.predecessor 0
    if share < leastShare then some (.lowShare r share) else none

/-- The symbols of a set and of a word, without repetition. -/
def addSymbols (seen : List Symbol) (w : Word) : List Symbol :=
  w.foldl (fun seen c => seen.insert c) seen

/-- One pass over the rules: the replacement of every rule whose predecessor was seen so far is
seen. -/
def reachStep (rules : List Rule) (seen : List Symbol) : List Symbol :=
  rules.foldl (fun seen r =>
    if r.predecessor ∈ seen then addSymbols seen r.replacement else seen) seen

/-- Passes over the rules, at most `fuel` of them, until a pass adds nothing. -/
def reachFrom (rules : List Rule) : Nat → List Symbol → List Symbol
  | 0, seen => seen
  | fuel + 1, seen =>
    let next := reachStep rules seen
    if next.length = seen.length then next else reachFrom rules fuel next

/-- The number of symbols in the replacements of some rules. Every pass but the last adds one of
them. -/
def replacementSize : List Rule → Nat
  | [] => 0
  | r :: rules => r.replacement.length + replacementSize rules

/-- The symbols that can occur in a word derived from the start word, without repetition. -/
def reachable (g : Grammar) : List Symbol :=
  reachFrom g.rules (replacementSize g.rules + 1) (addSymbols [] g.start)

/-- The predecessors of the rules, without repetition. -/
def predecessors (g : Grammar) : List Symbol := addSymbols [] (g.rules.map (·.predecessor))

/-- The predecessors that never occur, in the order of their code points. -/
def unreached (g : Grammar) : List Symbol :=
  let reached := g.reachable
  (Word.sorted g.predecessors).filter (· ∉ reached)

/-- The symbols that occur and have neither a rule nor an instruction, in the order of their code
points. -/
def inertSymbols (g : Grammar) (known : List Symbol) : List Symbol :=
  let ruled := g.predecessors
  (Word.sorted g.reachable).filter fun c => !Symbol.isMarker c && c ∉ known && c ∉ ruled

/-- Checks a grammar against the symbols that carry an instruction. -/
def lint (g : Grammar) (known : List Symbol) : LintReport where
  errors := g.branchFaults
  warnings := g.lowShares ++ g.unreached.map .unreached ++ (g.inertSymbols known).map .inert

end Grammar

end GrowthGrammar
