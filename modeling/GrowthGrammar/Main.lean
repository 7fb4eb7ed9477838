import GrowthGrammar.Program.Demo
import GrowthGrammar.Program.Grow
import GrowthGrammar.Program.Linter

/-!
# The command line

The first argument names a program; the rest are its arguments. Files are read before a program
runs, so that the programs themselves are functions.
-/

open GrowthGrammar GrowthGrammar.Program

namespace GrowthGrammar.CommandLine

/-- The file error of a system's error code. -/
def errorOfCode (code : UInt32) (details : String) : FileError :=
  if code = 2 then .notFound
  else if code = 20 then .notADirectory
  else if code = 21 then .isADirectory
  else if code = 36 then .nameTooLong
  else .other (details ++ " (os error " ++ toString code ++ ")")

/-- The file error of a failed read. -/
def fileError : IO.Error → FileError
  | .noFileOrDirectory _ code details | .inappropriateType _ code details
  | .permissionDenied _ code details | .invalidArgument _ code details
  | .resourceExhausted _ code details | .otherError code details => errorOfCode code details
  | e => .other (toString e)

/-- What reading the file at a path gives. -/
def readContent (path : String) : IO (Except FileError ByteArray) := do
  match ← (IO.FS.readBinFile path).toBaseIO with
  | .ok content => return .ok content
  | .error e => return .error (fileError e)

/-- The tree at a path that ends with a name. Only grammar files are read, and a directory that
cannot be listed has no entries. -/
partial def snapshot (path name : String) : IO FileTree := do
  let place := System.mkFilePath [path]
  if ← place.isDir then
    match ← place.readDir.toBaseIO with
    | .ok entries =>
      return .directory (← entries.toList.mapM fun e =>
        return (bytesOf e.fileName, ← snapshot e.path.toString e.fileName))
    | .error _ => return .empty
  else if FileName.extension? (bytesOf name) = some FileName.ron then
    return .file (← readContent path)
  else return .file (.ok .empty)

/-- The tree at a path, if there is a file or a directory. -/
def node? (path : String) : IO (Option FileTree) := do
  match ← (System.mkFilePath [path]).metadata.toBaseIO with
  | .error _ => return none
  | .ok found =>
    match found.type with
    | .file => return some (.file (← readContent path))
    | .dir => return some (← snapshot path "")
    | _ => return none

/-- Runs `grow` on the file that its arguments name. -/
def grow (arguments : List String) : IO Transcript := do
  let fresh := Generator.ofBytes (← IO.getRandomBytes 32)
  match (Grow.Options.parse {} arguments).toOption.bind (·.file?) with
  | some path =>
    let content ← readContent path
    return Grow.run arguments (fun _ => content >>= textOfContent) fresh
  | none => return Grow.run arguments (fun _ => .error .notFound) fresh

/-- Runs the linter on the path that its arguments name. -/
def lint (arguments : List String) : IO Transcript := do
  let node ← match arguments with
    | [] => pure none
    | path :: _ => node? path
  return Linter.run arguments fun _ => node

/-- Prints what a program printed. -/
def print (t : Transcript) : IO UInt32 := do
  IO.print t.output
  IO.eprint t.errors
  return t.code.toUInt32

end GrowthGrammar.CommandLine

open GrowthGrammar.CommandLine in
/-- Runs the program that the first argument names. -/
def main : List String → IO UInt32
  | "grow" :: arguments => do print (← grow arguments)
  | "grammar_linter" :: arguments => do print (← lint arguments)
  | "plant" :: _ => print (Demo.run (.ofSeed 0))
  | _ => do
    IO.eprintln "Usage: grow <arguments> | grammar_linter <path> | plant"
    return 1
