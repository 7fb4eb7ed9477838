import GrowthGrammar.Grammar.Basic
import GrowthGrammar.Ron.Compound

/-!
# Grammar files

A grammar file holds a struct `Grammar` with the fields `axiom`, `generations` and `rules`. It is
read into a `GrammarEntry`, which still holds the predecessors as texts, and then made a grammar: a
predecessor has to be one character, and this is checked for all rules before anything else.
-/

namespace GrowthGrammar

open Ron (RecordField Reader Scope)

/-- A rule as a file holds it. -/
structure RuleEntry where
  predecessor? : Option String := none
  replacement? : Option String := none
  weight? : Option Float := none

/-- A grammar as a file holds it. -/
structure GrammarEntry where
  start? : Option String := none
  generations? : Option Nat := none
  rules? : Option (List RuleEntry) := none

namespace RuleEntry

/-- The fields of a rule. -/
def fields : List (RecordField RuleEntry) :=
  [⟨"predecessor", true, (·.predecessor?.isSome),
      fun _ e => return { e with predecessor? := some (← Reader.string) }⟩,
    ⟨"replacement", true, (·.replacement?.isSome),
      fun _ e => return { e with replacement? := some (← Reader.string) }⟩,
    ⟨"weight", false, (·.weight?.isSome),
      fun _ e => return { e with weight? := some (← Reader.float) }⟩]

/-- Reads a rule. -/
def read (scope : Scope) : Reader RuleEntry := Reader.record "Rule" fields scope {}

/-- The rule of an entry. A weight that is left out is one. -/
def toRule (e : RuleEntry) : Except GrammarError Rule :=
  let predecessor := e.predecessor?.getD ""
  match predecessor.toList with
  | [c] => .ok ⟨c, Word.ofString (e.replacement?.getD ""), e.weight?.getD 1⟩
  | _ => .error (.invalidSymbol predecessor)

end RuleEntry

namespace GrammarEntry

/-- The fields of a grammar. -/
def fields : List (RecordField GrammarEntry) :=
  [⟨"axiom", true, (·.start?.isSome),
      fun _ e => return { e with start? := some (← Reader.string) }⟩,
    ⟨"generations", false, (·.generations?.isSome),
      fun _ e => return { e with generations? := some (← Reader.nat UInt32.size) }⟩,
    ⟨"rules", false, (·.rules?.isSome),
      fun scope e => do
        let rules ← Reader.list (RuleEntry.read scope.inside)
        return { e with rules? := some rules }⟩]

/-- Reads a grammar. -/
def read (scope : Scope) : Reader GrammarEntry := Reader.record "Grammar" fields scope {}

/-- The grammar of an entry. Without generations there are none, and without rules neither. -/
def toGrammar (e : GrammarEntry) : Except GrammarError Grammar := do
  let rules ← (e.rules?.getD []).mapM RuleEntry.toRule
  Grammar.new? (Word.ofString (e.start?.getD "")) rules (e.generations?.getD 0)

end GrammarEntry

namespace Grammar

/-- The grammar that a text in the notation of grammar files describes. -/
def ofRon? (text : String) : Except GrammarError Grammar :=
  match (Reader.document GrammarEntry.read).run text with
  | .ok entry => entry.toGrammar
  | .error failure => .error (.ron failure)

/-- The grammar that the file at a path describes. -/
def load (files : FileReader) (path : String) : Except GrammarError Grammar :=
  match files path with
  | .ok text => ofRon? text
  | .error cause => .error (.file cause)

end Grammar

end GrowthGrammar
