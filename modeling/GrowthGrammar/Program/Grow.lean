import GrowthGrammar.Json.Encode
import GrowthGrammar.Plant.System
import GrowthGrammar.Program.Transcript
import GrowthGrammar.System.Config

/-!
# Growing a figure

The program `grow` expands and evaluates a grammar with the instructions of the stock plant, and
prints a summary, the word, the states, or the states as JSON. `Options.parse` reads its arguments
from left to right: an option with a value takes the argument behind it, whatever that looks like.
-/

namespace GrowthGrammar.Program.Grow

/-- What the arguments ask for. -/
structure Options where
  config? : Option String := none
  grammar? : Option String := none
  seed? : Option UInt64 := none
  generations? : Option Nat := none
  symbols : Bool := false
  states : Bool := false
  json : Bool := false

/-- Why arguments are refused. -/
inductive ArgumentError where
  | unknown (argument : String)
  | notANumber (option value : String)
  deriving DecidableEq, Repr

namespace Options

/-- The options that arguments set, on top of those set so far. -/
def parse (o : Options) : List String → Except ArgumentError Options
  | [] => .ok o
  | "--config" :: value :: rest => parse { o with config? := some value } rest
  | "--grammar" :: value :: rest => parse { o with grammar? := some value } rest
  | "--seed" :: value :: rest =>
    match boundedNatOfText? UInt64.size value with
    | some n => parse { o with seed? := some n.toUInt64 } rest
    | none => .error (.notANumber "--seed" value)
  | "--generations" :: value :: rest =>
    match boundedNatOfText? UInt32.size value with
    | some n => parse { o with generations? := some n } rest
    | none => .error (.notANumber "--generations" value)
  | "--symbols" :: rest => parse { o with symbols := true } rest
  | "--states" :: rest => parse { o with states := true } rest
  | "--json" :: rest => parse { o with json := true } rest
  | argument :: _ => .error (.unknown argument)

/-- The file that a run reads. A configuration wins over a grammar. -/
def file? (o : Options) : Option String := o.config? <|> o.grammar?

end Options

/-- How to call the program. -/
def usage : List String :=
  ["Usage: grow [--config <file.ron>] [--grammar <file.ron>] [--seed <n>]",
    "            [--generations <n>] [--symbols] [--states] [--json]",
    "",
    "  --config <file>       full run config (grammar, seeds, step length)",
    "  --grammar <file>      bare grammar; plant defaults for the rest",
    "  --seed <n>            evaluation random seed",
    "  --generations <n>     override the grammar's generation count",
    "  --symbols             print the expanded symbol string",
    "  --states              print every visited state",
    "  --json                dump visited states as JSON and exit"]

/-- The answer to refused arguments. -/
def ArgumentError.transcript : ArgumentError → Transcript
  | .unknown argument => ⟨1, unlines usage, unlines ["Unknown argument: " ++ argument]⟩
  | .notANumber option value =>
    .failed (option ++ " expects a non-negative integer, got '" ++ value ++ "'")

/-- The settings that options make on top of a builder. -/
def Options.settings (o : Options) (table : InstructionTable Generator (Pose Float)) :
    List (Setting (Pose Float)) :=
  .instructions table :: (o.seed?.map .seed).toList ++ (o.generations?.map .generations).toList

/-- The builder that options start from: that of a configuration, that of a grammar file, or that of
the stock grammar. A failure is given by its text. -/
def Options.startingBuilder (o : Options) (files : FileReader) :
    Except String (Builder (Pose Float)) :=
  match o.config?, o.grammar? with
  | some path, _ =>
    match RunConfig.load files path with
    | .ok config => .ok config.builder
    | .error e => .error ("Failed to load config '" ++ path ++ "': " ++ e.message)
  | none, some path => .ok { grammarFile? := some path }
  | none, none =>
    match Plant.grammar? 10 with
    | .ok grammar => .ok { grammar? := some grammar }
    | .error e => .error e.message

/-- The builder that options describe. -/
def Options.builder (o : Options) (files : FileReader) : Except String (Builder (Pose Float)) := do
  let table ← Plant.stockTable?.mapError InstructionError.message
  return (o.settings table).foldl Builder.set (← o.startingBuilder files)

/-- The summary of a run. -/
def summary (s : System (Pose Float)) (g : Generation (Pose Float)) : List String :=
  let grammar := s.engine.grammar
  ["=== Growth Summary ===",
    "",
    "  Axiom:        " ++ Word.render grammar.start,
    "  Rules:        " ++ toString grammar.rules.length,
    "  Generations:  " ++ toString grammar.generations,
    "  Seed:         " ++ toString s.seed,
    "  Symbols:      " ++ toString g.word.length,
    "  States:       " ++ toString g.states.length,
    "  Max depth:    " ++ toString g.word.maxDepth]
    ++ ((Bounds.ofPoses? g.states).map fun b => "  Bounds:       " ++ boundsText b).toList

/-- A coordinate in its column. -/
def columnText (x : Float) : String := padLeft 8 (fixedText 3 x)

/-- The line of a state. -/
def stateLine (p : Pose Float) (number : Nat) : String :=
  padLeft 6 (toString number) ++ "  pos=(" ++ columnText p.position.x ++ ", "
    ++ columnText p.position.y ++ ", " ++ columnText p.position.z ++ ")  step="
    ++ fixedText 4 p.stepLength

/-- What a run prints. -/
def lines (o : Options) (s : System (Pose Float)) (g : Generation (Pose Float)) : List String :=
  if o.json then [(Json.Value.array (g.states.map Pose.toJson)).pretty]
  else
    summary s g
      ++ (if o.symbols then ["", "--- Symbols ---", Word.render g.word] else [])
      ++ (if o.states then
          ["", "--- States ---"] ++ g.states.zipIdx.map fun (p, i) => stateLine p i
        else [])

/-- Runs the program on parsed options. -/
def runWith (o : Options) (files : FileReader) (fresh : Generator) : Transcript :=
  match o.builder files with
  | .error text => .failed text
  | .ok builder =>
    match builder.build files with
    | .error e => .failed ("Failed to build system: " ++ e.message)
    | .ok s =>
      match s.generate fresh with
      | (.error e, _) => .failed e.message
      | (.ok g, s) => .done (lines o s g)

/-- Runs the program on its arguments. -/
def run (arguments : List String) (files : FileReader) (fresh : Generator) : Transcript :=
  if arguments.any fun a => a = "--help" || a = "-h" then .done usage
  else
    match Options.parse {} arguments with
    | .error e => e.transcript
    | .ok o => runWith o files fresh

end GrowthGrammar.Program.Grow
