import GrowthGrammar.File.Path

/-!
# File trees

Grammar files are looked up in a `FileTree`, a value that holds what reading gives for every file
below a directory: its content, or the reason why it cannot be read. `FileTree.resolve` follows a
path through it one name at a time, and `FileTree.read` reads the file at its end as text; each
answers a `FileError` where a file system would refuse.
-/

namespace GrowthGrammar

/-- Why a file cannot be read as text. -/
inductive FileError where
  | notFound
  | notADirectory
  | isADirectory
  | nameTooLong
  | nulInName
  | notUtf8
  /-- A refusal of another kind, with the text that describes it. -/
  | other (text : String)
  deriving DecidableEq, Repr

/-- The wording of a file error. -/
def FileError.message : FileError → String
  | .notFound => "No such file or directory (os error 2)"
  | .notADirectory => "Not a directory (os error 20)"
  | .isADirectory => "Is a directory (os error 21)"
  | .nameTooLong => "File name too long (os error 36)"
  | .nulInName => "file name contained an unexpected NUL byte"
  | .notUtf8 => "stream did not contain valid UTF-8"
  | .other text => text

/-- The text of a file's content. -/
def textOfContent (content : ByteArray) : Except FileError String :=
  match String.fromUTF8? content with
  | some text => .ok text
  | none => .error .notUtf8

/-- What is below a path: a directory of named entries, or else something that is read as a file.
A directory that cannot be listed has no entries. -/
inductive FileTree where
  | file (content : Except FileError ByteArray)
  | directory (entries : List (FileName × FileTree))

namespace FileTree

/-- The empty directory. -/
def empty : FileTree := .directory []

/-- Changes the node that some names lead to, an empty directory if there is none. The directories
on the way are made, and a file on the way is replaced by a directory. -/
def modify (change : FileTree → FileTree) : List FileName → FileTree → FileTree
  | [], tree => change tree
  | name :: names, tree =>
    let entries := match tree with
      | .file _ => []
      | .directory entries => entries
    let below := (entries.lookup name).getD empty
    .directory ((name, modify change names below) :: entries.filter (·.1 != name))

/-- The node as a directory: a file is replaced by an empty one. -/
def asDirectory : FileTree → FileTree
  | .file _ => empty
  | tree => tree

/-- Puts a file at the end of a path that starts from the directory to which `here` leads, innermost
name first. The directories that the path passes through are made, also those that it leaves
again. -/
def insert (content : ByteArray) (here : List FileName) : List FileName → FileTree → FileTree
  | [], tree => tree
  | [name], tree => modify (fun _ => .file (.ok content)) (name :: here).reverse tree
  | name :: path, tree =>
    if name = [] ∨ name = FileName.here then insert content here path tree
    else if name = FileName.up then insert content here.tail path tree
    else insert content (name :: here) path (modify asDirectory (name :: here).reverse tree)

/-- The names between the slashes of a path. -/
def namesOf (path : String) : List FileName := (path.splitOn "/").map bytesOf

/-- The tree of some files, each given by a path with slashes and its content. -/
def ofFiles (files : List (String × ByteArray)) : FileTree :=
  files.foldl (fun tree (path, content) => insert content [] (namesOf path) tree) empty

/-- Follows some names from a node. `above` holds the directories over the node, innermost first; of
what lies over the root nothing is known, and it is taken to be empty. -/
def follow (above : List FileTree) (node : FileTree) : List FileName → Except FileError FileTree
  | [] => .ok node
  | name :: path =>
    match node with
    | .file _ => .error .notADirectory
    | .directory entries =>
      if name = [] ∨ name = FileName.here then follow above node path
      else if name = FileName.up then
        match above with
        | [] => follow [] empty path
        | parent :: above => follow above parent path
      else if FileName.longest < name.length then .error .nameTooLong
      else match entries.lookup name with
        | none => .error .notFound
        | some child => follow (node :: above) child path

/-- The node at the end of a path. The empty path leads nowhere, and a path that starts with a slash
leads into the unknown, which is taken to be empty. -/
def resolve (root : FileTree) (path : String) : Except FileError FileTree :=
  if path.contains '\x00' then .error .nulInName
  else if path = "" then .error .notFound
  else if FilePath.longest < path.utf8ByteSize then .error .nameTooLong
  else follow [] (if path.startsWith "/" then empty else root) (namesOf path)

/-- The text of the file at the end of a path. -/
def read (root : FileTree) (path : String) : Except FileError String := do
  match ← root.resolve path with
  | .file content => textOfContent (← content)
  | .directory _ => .error .isADirectory

end FileTree

/-- A way to read files as text: what a builder needs of a file system. -/
abbrev FileReader := String → Except FileError String

end GrowthGrammar
