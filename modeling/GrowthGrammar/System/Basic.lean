import GrowthGrammar.Grammar.File
import GrowthGrammar.Grammar.Engine
import GrowthGrammar.Walk.Basic

/-!
# Systems

A `System` is an engine together with the instructions that interpret its words, the state in which
every walk starts and the seed of the walk's random stream. `System.generate` expands and then
evaluates; `System.generateVariants` does so for successive seeds and leaves the seed as it was. A
system is put together by a `Builder`, a record of the settings made so far: each `Setting` replaces
the earlier one of its kind, and `Builder.build` looks at them all at the end.
-/

namespace GrowthGrammar

/-- Why a system cannot be built or run. -/
inductive SystemError where
  | grammar (cause : GrammarError)
  | instruction (cause : InstructionError)
  | eval (cause : EvalError)
  | file (cause : FileError)
  | ron (failure : Ron.Failure)
  | missingGrammar

/-- The wording of a system error. -/
def SystemError.message : SystemError → String
  | .grammar cause => "grammar error: " ++ cause.message
  | .instruction cause => "instruction error: " ++ cause.message
  | .eval cause => "evaluation error: " ++ cause.message
  | .file cause => "IO error: " ++ cause.message
  | .ron failure => "RON error: " ++ failure.message
  | .missingGrammar => "no grammar configured"

/-- A word and the states that a walk of it visits. -/
structure Generation (S : Type) where
  word : Word
  states : List S

/-- A grammar with the instructions that interpret its words. -/
structure System (S : Type) where
  engine : Engine
  instructions : InstructionTable Generator S
  initialState : S
  /-- The seed of the stream that a walk draws from. -/
  seed : UInt64

namespace System

variable {S : Type}

/-- The context in which a walk starts. Its handle is that of the only stream. -/
def initialContext (s : System S) : Context S := ⟨s.initialState, 0⟩

/-- The streams with which a walk starts: a fresh one of the seed. -/
def initialStreams (s : System S) : Streams Generator := .single (.ofSeed s.seed)

/-- The states that a walk of a word visits. -/
def evaluate (s : System S) (w : Word) : Except EvalError (List S) :=
  (GrowthGrammar.evaluate s.instructions s.initialContext s.initialStreams w).result

/-- The visits of a walk of a word. -/
def trace (s : System S) (w : Word) : Except EvalError (List (Visit S)) :=
  (GrowthGrammar.trace s.instructions s.initialContext s.initialStreams w).result

/-- Expands the grammar, and counts the call. -/
def expand (s : System S) (fresh : Generator) : Word × System S :=
  let (w, engine) := s.engine.expand fresh
  (w, { s with engine })

/-- Expands the grammar and evaluates the word. -/
def generate (s : System S) (fresh : Generator) : Except SystemError (Generation S) × System S :=
  let (w, s) := s.expand fresh
  match s.evaluate w with
  | .ok states => (.ok ⟨w, states⟩, s)
  | .error cause => (.error (.eval cause), s)

/-- Generates the variants from number `i` on, each with the seed `base` plus its number. The first
failure ends the series. At the end, and after a failure, the seed is set back to `base`. -/
def variantsFrom (fresh : Nat → Generator) (base : UInt64) (i : Nat) :
    Nat → System S → Except SystemError (List (Generation S)) × System S
  | 0, s => (.ok [], { s with seed := base })
  | count + 1, s =>
    match generate { s with seed := base + i.toUInt64 } (fresh i) with
    | (.error e, s) => (.error e, { s with seed := base })
    | (.ok g, s) =>
      let (rest, s) := variantsFrom fresh base (i + 1) count s
      (rest.map (g :: ·), s)

/-- Generates variants with successive seeds. The seed afterwards is the one before. -/
def generateVariants (s : System S) (fresh : Nat → Generator) (count : Nat) :
    Except SystemError (List (Generation S)) × System S :=
  variantsFrom fresh s.seed 0 count s

end System

/-! ## Builders -/

/-- The settings made so far. -/
structure Builder (S : Type) where
  grammar? : Option Grammar := none
  grammarFile? : Option String := none
  generations? : Option Nat := none
  instructions? : Option (InstructionTable Generator S) := none
  expansion : ExpansionSeed := default
  seed : UInt64 := 0
  initialState? : Option S := none

/-- One setting of a system. -/
inductive Setting (S : Type) where
  | grammar (grammar : Grammar)
  /-- The path of a grammar file, which is read when the system is built. -/
  | grammarFile (path : String)
  /-- The number of generations, in place of the grammar's own. -/
  | generations (count : Nat)
  | instructions (table : InstructionTable Generator S)
  | expansion (seed : ExpansionSeed)
  | seed (seed : UInt64)
  | initialState (state : S)

namespace Builder

variable {S : Type}

/-- The builder with one setting replaced. -/
def set (b : Builder S) : Setting S → Builder S
  | .grammar grammar => { b with grammar? := some grammar }
  | .grammarFile path => { b with grammarFile? := some path }
  | .generations count => { b with generations? := some count }
  | .instructions table => { b with instructions? := some table }
  | .expansion expansion => { b with expansion }
  | .seed seed => { b with seed }
  | .initialState state => { b with initialState? := some state }

/-- The grammar to build with. One that is given directly wins over a file. -/
def chooseGrammar (b : Builder S) (files : FileReader) : Except SystemError Grammar :=
  match b.grammar?, b.grammarFile? with
  | some grammar, _ => .ok grammar
  | none, some path => (Grammar.load files path).mapError .grammar
  | none, none => .error .missingGrammar

/-- The system of the settings made. Without instructions every symbol is inert. -/
def build [Inhabited S] (b : Builder S) (files : FileReader) : Except SystemError (System S) := do
  let grammar ← b.chooseGrammar files
  let grammar := match b.generations? with
    | some count => grammar.withGenerations count
    | none => grammar
  let engine ← (Engine.new? grammar b.expansion).mapError .grammar
  return ⟨engine, b.instructions?.getD .empty, b.initialState?.getD default, b.seed⟩

end Builder

end GrowthGrammar
