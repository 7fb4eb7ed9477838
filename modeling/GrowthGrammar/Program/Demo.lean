import GrowthGrammar.Plant.System
import GrowthGrammar.Program.Transcript

/-!
# A look at the stock plant

The program `plant` grows the stock plant and prints how large it is and where it starts. Successive
visits of the same depth belong to one segment.
-/

namespace GrowthGrammar.Program.Demo

/-- The number of runs of equal numbers in a list that follows the number `previous?`. -/
def countRuns (previous? : Option Nat) : List Nat → Nat
  | [] => 0
  | n :: rest => (if previous? = some n then 0 else 1) + countRuns (some n) rest

/-- The line of a visit. -/
def visitLine (v : Visit (Pose Float)) : String :=
  "  " ++ v.symbol.toString ++ " depth=" ++ toString v.depth ++ " pos="
    ++ vectorText v.state.position ++ " step=" ++ fixedText 3 v.state.stepLength

/-- What is printed of a word and its visits. -/
def lines (w : Word) (visits : List (Visit (Pose Float))) : List String :=
  ["Expanded to " ++ toString w.length ++ " symbols, " ++ toString visits.length ++ " states",
    "",
    "Branch segments: " ++ toString (countRuns none (visits.map (·.depth))),
    "",
    "First states:"]
    ++ (visits.take 12).map visitLine
    ++ ((Bounds.ofPoses? (visits.map (·.state))).elim [] fun b => ["", "Bounds: " ++ boundsText b])

/-- Runs the program. -/
def run (fresh : Generator) : Transcript :=
  match Plant.stockSystem? with
  | .error e => .failed e.message
  | .ok s =>
    let (w, s) := s.expand fresh
    match s.trace w with
    | .error e => .failed e.message
    | .ok visits => .done (lines w visits)

end GrowthGrammar.Program.Demo
