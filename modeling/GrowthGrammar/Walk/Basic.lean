import GrowthGrammar.Walk.Table

/-!
# Walks

A walk reads a word once from left to right. A branch marker saves or restores the current context;
every other symbol runs its instruction and is visited. `walk` keeps the saved contexts on an
explicit stack, so a word may nest as deeply as it likes, and it answers what it recorded of the
visits together with the streams as they stand at the end, or at the fault.
-/

namespace GrowthGrammar

/-- How the branch markers of a word can fail to match. -/
inductive EvalError where
  /-- The close at this position has no open. -/
  | unbalancedBranch (position : Nat)
  /-- So many branches are open at the end. -/
  | unclosedBranch (depth : Nat)
  deriving DecidableEq, Repr

/-- The wording of an evaluation error. -/
def EvalError.message : EvalError → String
  | .unbalancedBranch position =>
    "branch close at position " ++ toString position ++ " has no matching open"
  | .unclosedBranch depth => toString depth ++ " branch(es) still open at end of sequence"

/-- One visit of a walk. -/
structure Visit (S : Type) where
  /-- The state after the instruction. -/
  state : S
  symbol : Symbol
  /-- The number of branches that are open. -/
  depth : Nat
  /-- The place of the symbol in the word. -/
  position : Nat
  deriving Repr

/-- What a walk leaves behind: its result, and the streams as they stand. -/
structure Outcome (ρ α : Type) where
  result : Except EvalError α
  streams : Streams ρ

/-- What a walk holds between two symbols. -/
structure Walker (ρ S : Type) where
  current : Context S
  stack : BranchStack S
  streams : Streams ρ

namespace Walker

variable {ρ S : Type}

/-- The walker at the start of a word. -/
def start (initial : Context S) (streams : Streams ρ) : Walker ρ S := ⟨initial, [], streams⟩

/-- Saves the current context. -/
def save (m : Walker ρ S) : Walker ρ S := { m with stack := m.current :: m.stack }

/-- Goes back to the context saved last, if there is one. -/
def restore? (m : Walker ρ S) : Option (Walker ρ S) :=
  match m.stack with
  | [] => none
  | saved :: stack => some { m with current := saved, stack }

/-- Runs the instruction of a symbol. -/
def advance (table : InstructionTable ρ S) (m : Walker ρ S) (c : Symbol) : Walker ρ S :=
  let (current, streams) := (table.lookup c).instruction.run m.current m.stack m.streams
  { m with current, streams }

end Walker

variable {ρ S α : Type}

/-- Walks a word from a position on, and records `record m v` for every visit `v`, where `m` is the
walker just before it. `recorded` holds what was recorded so far, the last one first. -/
def walkFrom (record : Walker ρ S → Visit S → α) (table : InstructionTable ρ S) (m : Walker ρ S)
    (position : Nat) (recorded : List α) : Word → Outcome ρ (List α)
  | [] =>
    match m.stack with
    | [] => ⟨.ok recorded.reverse, m.streams⟩
    | stack => ⟨.error (.unclosedBranch stack.depth), m.streams⟩
  | c :: w =>
    if c = Symbol.opening then walkFrom record table m.save (position + 1) recorded w
    else if c = Symbol.closing then
      match m.restore? with
      | none => ⟨.error (.unbalancedBranch position), m.streams⟩
      | some m => walkFrom record table m (position + 1) recorded w
    else
      let after := m.advance table c
      let visit := ⟨after.current.state, c, after.stack.depth, position⟩
      walkFrom record table after (position + 1) (record m visit :: recorded) w

/-- Walks a word and records `record m v` for every visit `v` in their order, where `m` is the
walker just before it. -/
def walk (record : Walker ρ S → Visit S → α) (table : InstructionTable ρ S) (initial : Context S)
    (streams : Streams ρ) (w : Word) : Outcome ρ (List α) :=
  walkFrom record table (.start initial streams) 0 [] w

/-- The visits of a walk. -/
def trace (table : InstructionTable ρ S) (initial : Context S) (streams : Streams ρ) (w : Word) :
    Outcome ρ (List (Visit S)) :=
  walk (fun _ visit => visit) table initial streams w

/-- The visited states of a walk. -/
def evaluate (table : InstructionTable ρ S) (initial : Context S) (streams : Streams ρ)
    (w : Word) : Outcome ρ (List S) :=
  walk (fun _ visit => visit.state) table initial streams w

end GrowthGrammar
