import GrowthGrammar.File.Tree

/-!
# The grammar files of a directory

`FileTree.grammarFiles` lists the files at any depth of a directory whose extension is `ron`, each
with its path and content, in the order of their paths. Paths are compared name by name, so a
directory comes where its own name belongs, whatever its files are called.

A file is read by its path from where the directory was looked up, and only so far as a path can be
followed: `FileTree.seenFrom` is the tree as it looks from there.
-/

namespace GrowthGrammar

/-- A file below a directory: the names that lead to it, and what reading it gives. -/
structure FoundFile where
  names : List FileName
  content : Except FileError ByteArray

/-- The path of a file below a directory that is given by a path. -/
def FoundFile.pathFrom (directory : FilePath) (f : FoundFile) : FilePath :=
  f.names.foldl FilePath.join directory

/-- The text of a file, if it can be read and is one. -/
def FoundFile.text (f : FoundFile) : Except FileError String := f.content >>= textOfContent

namespace FileTree

/-- The order of paths, name by name. -/
def pathLe (x y : FoundFile) : Bool := !y.names.lex x.names fun a b => decide (a < b)

mutual

/-- Adds the grammar files of a node that is reached by `above`, innermost name first, to those that
were found before. All of them are sorted anew at the end of every directory. -/
def collect (above : List FileName) (found : List FoundFile) : FileTree → List FoundFile
  | .file content =>
    match above with
    | [] => found
    | name :: _ =>
      if name.extension? = some FileName.ron then found ++ [⟨above.reverse, content⟩] else found
  | .directory entries => (collectEntries above found entries).mergeSort pathLe

/-- Adds the grammar files of the entries of a directory, one entry after the other. -/
def collectEntries (above : List FileName) (found : List FoundFile) :
    List (FileName × FileTree) → List FoundFile
  | [] => found
  | (name, node) :: entries => collectEntries above (collect (name :: above) found node) entries

end

/-- The grammar files below a node, in the order of their paths. -/
def grammarFiles (tree : FileTree) : List FoundFile := collect [] [] tree

mutual

/-- The tree at a path as it looks to those who reach every node by its path: where the path gets
too long there is no directory any more, and nothing can be read. -/
def seenFrom (path : FilePath) : FileTree → FileTree
  | .file content => .file (if FilePath.longest < path.length then .error .nameTooLong else content)
  | .directory entries =>
    if FilePath.longest < path.length then .file (.error .nameTooLong)
    else .directory (seenEntriesFrom path entries)

/-- The entries of the directory at a path as they look from there. -/
def seenEntriesFrom (path : FilePath) : List (FileName × FileTree) → List (FileName × FileTree)
  | [] => []
  | (name, node) :: entries =>
    (name, seenFrom (path.join name) node) :: seenEntriesFrom path entries

end

end FileTree

end GrowthGrammar
