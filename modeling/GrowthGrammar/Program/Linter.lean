import GrowthGrammar.File.Grammars
import GrowthGrammar.Grammar.File
import GrowthGrammar.Lint.Basic
import GrowthGrammar.Plant.System
import GrowthGrammar.Program.Transcript

/-!
# Checking grammar files

The program `grammar_linter` checks a grammar file, or every grammar file below a directory, against
the instructions of the stock plant. It is content if every file holds a grammar and no check found
an error; warnings do not count.
-/

namespace GrowthGrammar.Program.Linter

/-- How to call the program. -/
def usage : List String := ["Usage: grammar_linter <grammar.ron | grammar_dir>"]

/-- What was found in one file or in several. A file that holds no grammar has one error. -/
structure FileReport where
  lines : List String
  errors : Nat
  warnings : Nat

/-- Checks the text of a file, or what was answered when it was read. -/
def checkText (known : List Symbol) (text : Except FileError String) : FileReport :=
  match (text.mapError GrammarError.file).bind Grammar.ofRon? with
  | .error e => ⟨["ERROR: Failed to load grammar: " ++ e.message], 1, 0⟩
  | .ok grammar =>
    let report := grammar.lint known
    let lines := report.warnings.map (fun w => "WARNING: " ++ w.message)
      ++ report.errors.map (fun e => "ERROR: " ++ e.message)
    ⟨if lines.isEmpty then ["All checks passed!"] else lines, report.errors.length,
      report.warnings.length⟩

/-- A file to be checked: the path that is printed, and its text if it has one. -/
structure CheckedFile where
  path : String
  text : Except FileError String

/-- The files that a path stands for: itself if it is a file, or the grammar files below it, which
are read by their paths from there. -/
def filesAt (path : String) : FileTree → List CheckedFile
  | .file content => [⟨path, content >>= textOfContent⟩]
  | tree => (tree.seenFrom (bytesOf path)).grammarFiles.map fun f =>
      ⟨displayed (f.pathFrom (bytesOf path)), f.text⟩

/-- Checks one more file. What is found in it is put behind what was found before. -/
def checkNext (known : List Symbol) (found : FileReport) (file : CheckedFile) : FileReport :=
  let report := checkText known file.text
  ⟨found.lines ++ ["", "=== " ++ file.path ++ " ===", ""] ++ report.lines,
    found.errors + report.errors, found.warnings + report.warnings⟩

/-- The line that ends the output: how many files were checked, and what was found in all. -/
def summary (files errors warnings : Nat) : String :=
  "Summary: " ++ toString files ++ " file(s), " ++ toString errors ++ " errors, "
    ++ toString warnings ++ " warnings"

/-- Checks some files one after the other and adds up what is found. -/
def checkFiles (known : List Symbol) (files : List CheckedFile) : Transcript :=
  let found := files.foldl (checkNext known) ⟨[], 0, 0⟩
  let last := summary files.length found.errors found.warnings
  ⟨if found.errors = 0 then 0 else 1, unlines (found.lines ++ ["", last]), ""⟩

/-- Runs the program on its arguments, of which only the first one counts. `node?` looks up the node
at a path. -/
def run (arguments : List String) (node? : String → Option FileTree) : Transcript :=
  match arguments with
  | [] => .done usage
  | path :: _ =>
    if path = "--help" ∨ path = "-h" then .done usage
    else
      match node? path with
      | none => .failed ("Path '" ++ path ++ "' does not exist")
      | some tree =>
        match Plant.stockTable? with
        | .error e => .failed e.message
        | .ok table => checkFiles table.symbols (filesAt path tree)

end GrowthGrammar.Program.Linter
