import GrowthGrammar.Text.Quoted
import GrowthGrammar.Walk.Context
import Std.Data.HashMap

/-!
# Instruction tables

An `InstructionTable` maps symbols to the instructions that claim them. A symbol can be claimed
once, and a branch marker never. A symbol that nobody claims is inert.
-/

namespace GrowthGrammar

/-- Why an instruction is refused. -/
inductive InstructionError where
  | duplicateSymbol (symbol : Symbol)
  | reservedSymbol (symbol : Symbol)
  deriving DecidableEq, Repr

/-- The wording of an instruction error. -/
def InstructionError.message : InstructionError → String
  | .duplicateSymbol symbol =>
    "symbol '" ++ symbol.toString ++ "' is already claimed by another instruction"
  | .reservedSymbol symbol =>
    "symbol '" ++ symbol.toString ++ "' is a branch marker and cannot carry an instruction"

/-- Instructions by the symbols that they claim. -/
structure InstructionTable (ρ S : Type) where
  instructions : Std.HashMap Symbol (Instruction ρ S)

/-- What a table holds for a symbol. -/
inductive Lookup (ρ S : Type) where
  | registered (instruction : Instruction ρ S)
  | inert (symbol : Symbol)

namespace Lookup

variable {ρ S : Type}

/-- Whether nobody claims the symbol. -/
def isInert : Lookup ρ S → Bool
  | .registered _ => false
  | .inert _ => true

/-- The instruction to run. -/
def instruction : Lookup ρ S → Instruction ρ S
  | .registered instruction => instruction
  | .inert symbol => .inert symbol

end Lookup

namespace InstructionTable

variable {ρ S : Type}

/-- The table without instructions. -/
def empty : InstructionTable ρ S := ⟨∅⟩

instance : Inhabited (InstructionTable ρ S) := ⟨empty⟩

/-- Whether a symbol is claimed. -/
def contains (t : InstructionTable ρ S) (c : Symbol) : Bool := t.instructions.contains c

/-- Offers an instruction to the table: the answer, and the table after it. -/
def offer (t : InstructionTable ρ S) (i : Instruction ρ S) :
    Except InstructionError Unit × InstructionTable ρ S :=
  if Symbol.isMarker i.symbol then (.error (.reservedSymbol i.symbol), t)
  else if t.contains i.symbol then (.error (.duplicateSymbol i.symbol), t)
  else (.ok (), ⟨t.instructions.insert i.symbol i⟩)

/-- The table with one more instruction. -/
def register (t : InstructionTable ρ S) (i : Instruction ρ S) :
    Except InstructionError (InstructionTable ρ S) :=
  match t.offer i with
  | (.ok (), t) => .ok t
  | (.error e, _) => .error e

/-- The table of some instructions, registered in their order. -/
def ofList? (instructions : List (Instruction ρ S)) :
    Except InstructionError (InstructionTable ρ S) :=
  instructions.foldlM register empty

/-- What the table holds for a symbol. -/
def lookup (t : InstructionTable ρ S) (c : Symbol) : Lookup ρ S :=
  match t.instructions[c]? with
  | some i => .registered i
  | none => .inert c

/-- The claimed symbols in the order of their code points. -/
def symbols (t : InstructionTable ρ S) : Word := Word.sorted t.instructions.keys

/-- The number of claimed symbols. -/
def size (t : InstructionTable ρ S) : Nat := t.instructions.size

/-- The text of a table: its claimed symbols. -/
def describe (t : InstructionTable ρ S) : String :=
  "InstructionTable \x7b symbols: [" ++ ", ".intercalate (t.symbols.map Text.quoteChar)
    ++ "] \x7d"

end InstructionTable

end GrowthGrammar
