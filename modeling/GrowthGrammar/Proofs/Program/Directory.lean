import GrowthGrammar.Program.Linter
import GrowthGrammar.Proofs.File.Grammars
import GrowthGrammar.Proofs.Plant.Table
import Mathlib.Algebra.GroupWithZero.Nat

/-!
# Checking a directory

The program that checks grammar files goes through the files one after the other and carries along
what it has found (`foldl_checkNext`). Run on a directory it reports on every grammar file below it
once, in one order, and it is content if each of them can be read and holds a grammar without errors
(`run_directory`).
-/

namespace GrowthGrammar.Program.Linter

variable (known : List Symbol) (text : Except FileError String)

/-! ## One file -/

/-- The grammar that a file holds, if it has a text and the text is one of a grammar. -/
def grammarIn? : Option Grammar :=
  match text with
  | .ok text => (Grammar.ofRon? text).toOption
  | .error _ => none

/-- The file holds a grammar in which no error is found. -/
def Clean : Prop :=
  ∃ grammar, grammarIn? text = some grammar ∧ (grammar.lint known).errors = []

/-- The errors of a file. One that cannot be read or holds no grammar has one. -/
def errorCount : Nat :=
  match grammarIn? text with
  | some grammar => (grammar.lint known).errors.length
  | none => 1

/-- The warnings of a file. One that cannot be read or holds no grammar has none. -/
def warningCount : Nat :=
  match grammarIn? text with
  | some grammar => (grammar.lint known).warnings.length
  | none => 0

theorem errorCount_eq_zero_iff : errorCount known text = 0 ↔ Clean known text := by
  rw [Clean, errorCount]
  cases grammarIn? text with
  | none => simp
  | some grammar => simp

/-- A check counts the errors and the warnings of the file. -/
theorem checkText_counts :
    (checkText known text).errors = errorCount known text ∧
      (checkText known text).warnings = warningCount known text := by
  cases text with
  | error e => exact ⟨rfl, rfl⟩
  | ok text =>
    simp only [checkText, errorCount, warningCount, grammarIn?, Except.mapError, Except.bind]
    cases Grammar.ofRon? text with
    | error e => exact ⟨rfl, rfl⟩
    | ok grammar => exact ⟨rfl, rfl⟩

/-! ## Some files -/

/-- What is printed about a file. -/
def printed (file : CheckedFile) : List String :=
  ["", "=== " ++ file.path ++ " ===", ""] ++ (checkText known file.text).lines

/-- The check of some files puts what it prints behind what was printed before, and adds the counts
to those before. -/
theorem foldl_checkNext (files : List CheckedFile) (found : FileReport) :
    files.foldl (checkNext known) found =
      ⟨found.lines ++ files.flatMap (printed known),
        found.errors + (files.map fun f => errorCount known f.text).sum,
        found.warnings + (files.map fun f => warningCount known f.text).sum⟩ := by
  induction files generalizing found with
  | nil => simp
  | cons file files ih =>
    rw [List.foldl_cons, ih]
    simp [checkNext, printed, checkText_counts, Nat.add_assoc]

/-- No error is counted in some files if each of them is clean. -/
theorem sum_errorCount_eq_zero_iff (files : List CheckedFile) :
    (files.map fun f => errorCount known f.text).sum = 0 ↔ ∀ f ∈ files, Clean known f.text := by
  simp only [List.sum_eq_zero_iff_forall_eq_nat, List.forall_mem_map, errorCount_eq_zero_iff]

/-- What is found in some files is what is found in each of them. -/
theorem checkFiles_eq (files : List CheckedFile) :
    let errors := (files.map fun f => errorCount known f.text).sum
    let warnings := (files.map fun f => warningCount known f.text).sum
    checkFiles known files =
      ⟨if errors = 0 then 0 else 1,
        unlines (files.flatMap (printed known) ++ ["", summary files.length errors warnings]),
        ""⟩ := by
  rw [checkFiles, foldl_checkNext]
  simp only [Nat.zero_add, List.nil_append]

/-! ## A directory -/

/-- A grammar file below the directory at a path as it is checked: its path is printed, and it is
read by that path. -/
def checkedFrom (path : String) (f : FoundFile) : CheckedFile :=
  ⟨displayed (f.pathFrom (bytesOf path)), (f.seenFrom (bytesOf path)).text⟩

/-- What is checked in a directory are the grammar files below it. -/
theorem filesAt_directory {path : String} {entries : List (FileName × FileTree)}
    (h : (FileTree.directory entries).Readable (bytesOf path)) :
    filesAt path (.directory entries) =
      (FileTree.directory entries).grammarFiles.map (checkedFrom path) := by
  rw [filesAt, FileTree.grammarFiles_seenFrom h, List.map_map]
  · rfl
  · rintro content ⟨⟩

/-- Run on a directory, the program checks the grammar files below it, each of them once and in the
order of their paths, whatever the order of the entries. It prints about one file after the other
and ends with their number and the sums of their errors and of their warnings. The code is zero if
all of them can be read and hold grammars without errors, and one otherwise. -/
theorem run_directory {path : String} (rest : List String) {node? : String → Option FileTree}
    {entries : List (FileName × FileTree)} (hpath : path ≠ "--help" ∧ path ≠ "-h")
    (hnode : node? path = some (.directory entries))
    (hproper : (FileTree.directory entries).Proper)
    (hreadable : (FileTree.directory entries).Readable (bytesOf path)) :
    let tree := FileTree.directory entries
    let files := tree.grammarFiles
    let transcript := run (path :: rest) node?
    (∀ f, f ∈ files ↔ tree.Leads f.names f.content ∧ f.IsGrammarFile) ∧
    files.Pairwise (fun x y => x.names < y.names) ∧
    (∀ tree', tree.Reordered tree' → tree'.grammarFiles = files ∧
      ∀ node?', node?' path = some tree' → run (path :: rest) node?' = transcript) ∧
    ∃ table, Plant.stockTable? = .ok table ∧
      let known := table.symbols
      let checked := files.map (checkedFrom path)
      (transcript.code = 0 ↔
        ∀ f : FoundFile, tree.Leads f.names f.content → f.IsGrammarFile →
          Clean known (checkedFrom path f).text) ∧
      (transcript.code = 0 ∨ transcript.code = 1) ∧
      transcript.errors = "" ∧
      transcript.output = unlines (checked.flatMap (printed known) ++
        ["", summary files.length (checked.map fun f => errorCount known f.text).sum
          (checked.map fun f => warningCount known f.text).sum]) := by
  obtain ⟨table, htable, -⟩ := Plant.exists_table (ρ := Generator) Plant.Habit.stock
  have hrun {tree : FileTree} (h : (FileTree.directory entries).Reordered tree)
      {node? : String → Option FileTree} (hnode : node? path = some tree) :
      run (path :: rest) node? = checkFiles table.symbols
        ((FileTree.directory entries).grammarFiles.map (checkedFrom path)) := by
    obtain ⟨entries', rfl⟩ := h.isDirectory_iff.1 ⟨entries, rfl⟩
    rw [run, if_neg (not_or.2 hpath), hnode, Plant.stockTable?, htable]
    show checkFiles table.symbols (filesAt path (.directory entries')) = _
    rw [filesAt_directory (h.readable_iff.1 hreadable), h.grammarFiles_eq hproper]
  have hself := hrun .refl hnode
  refine ⟨fun f => FileTree.mem_grammarFiles_iff, hproper.pairwise_grammarFiles,
    fun tree' h => ⟨h.grammarFiles_eq hproper, fun node?' hnode' => ?_⟩, table, htable, ?_⟩
  · rw [hself]
    exact hrun h hnode'
  · simp only [hself, checkFiles_eq, List.length_map]
    refine ⟨?_, ite_eq_or_eq _ _ _, trivial, trivial⟩
    simp only [ite_eq_left_iff, Nat.one_ne_zero, imp_false, not_not, sum_errorCount_eq_zero_iff,
      List.forall_mem_map, FileTree.mem_grammarFiles_iff, and_imp]

/-- What reading a file gives that must not be opened. -/
def refused : Except FileError ByteArray := .error (.other "Permission denied (os error 13)")

/-- A directory that is called like a grammar file, with a grammar file in it whose name is no text
and which must not be opened. -/
def refusedHerbs : List (FileName × FileTree) :=
  [(bytesOf "moss.ron", .directory [(0xFF :: bytesOf ".ron", .file refused)])]

/-- The directory is entered, and the file in it is listed and counts as an error. -/
theorem run_directory_of_refused_file :
    (run ["herbs"] fun _ => some (.directory refusedHerbs)).code = 1 := by
  have hproper : (FileTree.directory refusedHerbs).Proper :=
    .directory (List.pairwise_singleton _ _) (List.forall_mem_singleton.2
      (.directory (List.pairwise_singleton _ _) (List.forall_mem_singleton.2 .file)))
  have hreadable : (FileTree.directory refusedHerbs).Readable (bytesOf "herbs") :=
    .directory (by decide) (List.forall_mem_singleton.2
      (.directory (by decide) (List.forall_mem_singleton.2 .file)))
  obtain ⟨-, -, -, table, -, hzero, hcode, -, -⟩ :=
    @run_directory "herbs" [] (fun _ => some _) _ (by decide) rfl hproper hreadable
  refine hcode.resolve_left fun h => ?_
  let f : FoundFile := ⟨[bytesOf "moss.ron", 0xFF :: bytesOf ".ron"], refused⟩
  obtain ⟨grammar, hgrammar, -⟩ := hzero.1 h f
    (.directory (List.mem_singleton_self _) (.directory (List.mem_singleton_self _) .file))
    ⟨[bytesOf "moss.ron"], [0xFF], by decide, rfl⟩
  have htext : (checkedFrom "herbs" f).text =
      .error (.other "Permission denied (os error 13)") := by
    rw [checkedFrom, FoundFile.text, FoundFile.seenFrom, if_neg (by decide)]
    rfl
  rw [htext] at hgrammar
  contradiction

end GrowthGrammar.Program.Linter
