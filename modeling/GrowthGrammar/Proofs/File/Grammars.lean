import GrowthGrammar.File.Grammars
import Mathlib.Data.List.Lex
import Mathlib.Data.List.TakeDrop
import Mathlib.Data.List.TakeWhile

/-!
# What is listed as a grammar file

`FileTree.Leads` says to which file some names lead. The grammar files of a directory are the files
to which names lead of which the last one has the extension `ron` (`FileTree.mem_grammarFiles_iff`).
In a tree without two entries of one name each of them is listed once, and the paths increase
(`FileTree.pairwise_grammarFiles`), so the list does not depend on the order of the entries
(`FileTree.Reordered.grammarFiles_eq`). If every directory can be reached by its path
(`FileTree.Readable`), those who read the files by their paths find the same files, and only where
the path of a file is too long is it not read (`FileTree.grammarFiles_seenFrom`).

The files are collected into one list that is sorted anew after every directory. Up to the order
this puts the lists of the entries one behind the other (`FileTree.collect_directory_perm`), and
only the last sorting decides about the order.
-/

namespace GrowthGrammar

/-! ## Extensions -/

namespace FileName

theorem bne_dot_of_mem_reverse {name : FileName} (hdot : dot ∉ name) :
    ∀ b ∈ name.reverse, (b != dot) = true := by
  intro b hb
  exact bne_iff_ne.2 (ne_of_mem_of_not_mem (List.mem_reverse.1 hb) hdot)

/-- A name without a dot has no extension. -/
theorem extension?_of_not_mem {name : FileName} (hdot : dot ∉ name) : name.extension? = none := by
  rw [extension?, List.span_eq_takeWhile_dropWhile,
    List.dropWhile_eq_nil_iff.2 (bne_dot_of_mem_reverse hdot)]

/-- The last dot of a name is followed by its extension, unless it is the first byte. -/
theorem extension?_append {stem extension : FileName} (hdot : dot ∉ extension) :
    extension? (stem ++ dot :: extension) = if stem = [] then none else some extension := by
  have hreverse : (stem ++ dot :: extension).reverse =
      extension.reverse ++ dot :: stem.reverse := by simp
  have hextension := bne_dot_of_mem_reverse hdot
  rw [extension?, List.span_eq_takeWhile_dropWhile, hreverse,
    List.takeWhile_append_of_pos hextension, List.dropWhile_append_of_pos hextension,
    List.takeWhile_cons_of_neg (by decide), List.dropWhile_cons_of_neg (by decide)]
  cases hstem : stem.reverse with
  | nil => simp_all
  | cons b before =>
    have hne : stem ≠ [] := by
      rintro rfl
      simp at hstem
    simp [hne]

/-- The extension of a name is what follows its last dot, if something comes before that dot. -/
theorem extension?_eq_some_iff {name extension : FileName} :
    name.extension? = some extension ↔
      dot ∉ extension ∧ ∃ stem : FileName, stem ≠ [] ∧ name = stem ++ dot :: extension := by
  constructor
  · intro h
    have hdot : dot ∈ name := by
      by_contra hdot
      simp [extension?_of_not_mem hdot] at h
    obtain ⟨behind, before, hname, hbehind⟩ :=
      List.eq_append_cons_of_mem (List.mem_reverse.2 hdot)
    obtain rfl : name = before.reverse ++ dot :: behind.reverse := by
      rw [← List.reverse_inj, hname]
      simp
    have hdot : dot ∉ behind.reverse := by simpa using hbehind
    have hstem : before.reverse ≠ [] := by
      intro hstem
      rw [extension?_append hdot, if_pos hstem] at h
      contradiction
    rw [extension?_append hdot, if_neg hstem] at h
    obtain rfl := Option.some.inj h
    exact ⟨hdot, _, hstem, rfl⟩
  · rintro ⟨hdot, stem, hstem, rfl⟩
    rw [extension?_append hdot, if_neg hstem]

end FileName

/-- A file whose name ends in `.ron` and has something before that. -/
def FoundFile.IsGrammarFile (f : FoundFile) : Prop :=
  ∃ (above : List FileName) (stem : FileName), stem ≠ [] ∧
    f.names = above ++ [stem ++ bytesOf ".ron"]

/-- The extension of the last name decides. -/
theorem FoundFile.isGrammarFile_iff {f : FoundFile} {above : List FileName} {name : FileName}
    (h : f.names = above ++ [name]) : f.IsGrammarFile ↔ name.extension? = some FileName.ron := by
  have hron : FileName.dot :: FileName.ron = bytesOf ".ron" := by decide
  simp only [FileName.extension?_eq_some_iff, IsGrammarFile, h, hron]
  constructor
  · rintro ⟨above', stem, hstem, hnames⟩
    obtain ⟨-, hname⟩ := List.append_inj' hnames rfl
    exact ⟨by decide, stem, hstem, List.singleton_inj.1 hname⟩
  · rintro ⟨-, stem, hstem, rfl⟩
    exact ⟨above, stem, hstem, rfl⟩

/-- Bytes are in a linear order, so names and paths are. -/
instance byteOrder : LinearOrder UInt8 where
  le_refl _ := UInt8.le_refl _
  le_trans _ _ _ := UInt8.le_trans
  lt_iff_le_not_ge a b := by
    rw [UInt8.not_le]
    exact ⟨fun h => ⟨UInt8.le_of_lt h, h⟩, And.right⟩
  le_antisymm _ _ := UInt8.le_antisymm
  le_total := UInt8.le_total
  toDecidableLE := inferInstance

namespace FileTree

/-! ## Trees -/

/-- Induction on a tree, in which a directory has the hypothesis for each of its entries. -/
@[elab_as_elim]
theorem induction {motive : FileTree → Prop} (file : ∀ content, motive (.file content))
    (directory : ∀ entries, (∀ e ∈ entries, motive e.2) → motive (.directory entries))
    (tree : FileTree) : motive tree :=
  @FileTree.rec motive (fun entries => ∀ e ∈ entries, motive e.2) (fun e => motive e.2) file
    directory (List.forall_mem_nil _) (fun _ _ hhead htail => List.forall_mem_cons.2 ⟨hhead, htail⟩)
    (fun _ _ h => h) tree

/-- Some names lead from a node to a file with a content. -/
inductive Leads : FileTree → List FileName → Except FileError ByteArray → Prop where
  | file {content : Except FileError ByteArray} : Leads (.file content) [] content
  | directory {entries : List (FileName × FileTree)} {e : FileName × FileTree}
      {names : List FileName} {content : Except FileError ByteArray} (hentry : e ∈ entries)
      (hbelow : Leads e.2 names content) : Leads (.directory entries) (e.1 :: names) content

/-- No two entries of a directory in the tree have the same name. -/
inductive Proper : FileTree → Prop where
  | file {content : Except FileError ByteArray} : Proper (.file content)
  | directory {entries : List (FileName × FileTree)}
      (hnames : entries.Pairwise fun x y => x.1 ≠ y.1) (hbelow : ∀ e ∈ entries, Proper e.2) :
      Proper (.directory entries)

/-- The entries of directories in the tree are put into another order. -/
inductive Reordered : FileTree → FileTree → Prop where
  | refl {tree : FileTree} : Reordered tree tree
  | entries {entries entries' : List (FileName × FileTree)} (h : entries.Perm entries') :
      Reordered (.directory entries) (.directory entries')
  | inside {before after : List (FileName × FileTree)} {name : FileName} {node node' : FileTree}
      (h : Reordered node node') :
      Reordered (.directory (before ++ (name, node) :: after))
        (.directory (before ++ (name, node') :: after))
  | trans {x y z : FileTree} (hxy : Reordered x y) (hyz : Reordered y z) : Reordered x z

theorem leads_file_iff {content content' : Except FileError ByteArray} {names : List FileName} :
    Leads (.file content) names content' ↔ names = [] ∧ content = content' := by
  constructor
  · rintro ⟨⟩
    exact ⟨rfl, rfl⟩
  · rintro ⟨rfl, rfl⟩
    exact .file

theorem leads_directory_iff {entries : List (FileName × FileTree)} {names : List FileName}
    {content : Except FileError ByteArray} :
    Leads (.directory entries) names content ↔
      ∃ e ∈ entries, ∃ below, names = e.1 :: below ∧ Leads e.2 below content := by
  constructor
  · rintro (_ | ⟨hentry, hbelow⟩)
    exact ⟨_, hentry, _, rfl, hbelow⟩
  · rintro ⟨e, hentry, below, rfl, hbelow⟩
    exact .directory hentry hbelow

theorem proper_directory_iff {entries : List (FileName × FileTree)} :
    Proper (.directory entries) ↔
      (entries.Pairwise fun x y => x.1 ≠ y.1) ∧ ∀ e ∈ entries, Proper e.2 := by
  constructor
  · rintro (_ | ⟨hnames, hbelow⟩)
    exact ⟨hnames, hbelow⟩
  · rintro ⟨hnames, hbelow⟩
    exact .directory hnames hbelow

/-- Every directory of the tree at a path can be reached by its path. -/
inductive Readable : FilePath → FileTree → Prop where
  | file {path : FilePath} {content : Except FileError ByteArray} : Readable path (.file content)
  | directory {path : FilePath} {entries : List (FileName × FileTree)}
      (hpath : path.length ≤ FilePath.longest)
      (hbelow : ∀ e ∈ entries, Readable (path.join e.1) e.2) : Readable path (.directory entries)

theorem readable_directory_iff {path : FilePath} {entries : List (FileName × FileTree)} :
    Readable path (.directory entries) ↔
      path.length ≤ FilePath.longest ∧ ∀ e ∈ entries, Readable (path.join e.1) e.2 := by
  constructor
  · rintro (_ | ⟨hpath, hbelow⟩)
    exact ⟨hpath, hbelow⟩
  · rintro ⟨hpath, hbelow⟩
    exact .directory hpath hbelow

namespace Reordered

variable {tree tree' : FileTree} (h : Reordered tree tree')
include h

/-- A directory is still one. -/
theorem isDirectory_iff :
    (∃ entries, tree = .directory entries) ↔ ∃ entries, tree' = .directory entries := by
  induction h with
  | refl => rfl
  | entries | inside => exact iff_of_true ⟨_, rfl⟩ ⟨_, rfl⟩
  | trans _ _ ihxy ihyz => exact ihxy.trans ihyz

/-- Names lead to the same files. -/
theorem leads_iff {names : List FileName} {content : Except FileError ByteArray} :
    tree.Leads names content ↔ tree'.Leads names content := by
  induction h generalizing names with
  | refl => rfl
  | entries h => simp only [leads_directory_iff, h.mem_iff]
  | inside h ih =>
    simp only [leads_directory_iff, List.mem_append, List.mem_cons, or_and_right, exists_or,
      exists_eq_left, ih]
  | trans _ _ ihxy ihyz => exact ihxy.trans ihyz

theorem proper_iff : tree.Proper ↔ tree'.Proper := by
  induction h with
  | refl => rfl
  | entries h =>
    rw [proper_directory_iff, proper_directory_iff, h.pairwise_iff fun hne => hne.symm]
    simp only [h.mem_iff]
  | inside h ih =>
    simp only [proper_directory_iff, List.mem_append, List.mem_cons, or_imp, forall_and,
      forall_eq, ih, List.pairwise_append, List.pairwise_cons]
  | trans _ _ ihxy ihyz => exact ihxy.trans ihyz

theorem readable_iff {path : FilePath} : tree.Readable path ↔ tree'.Readable path := by
  induction h generalizing path with
  | refl => rfl
  | entries h => simp only [readable_directory_iff, h.mem_iff]
  | inside h ih =>
    simp only [readable_directory_iff, List.mem_append, List.mem_cons, or_imp, forall_and,
      forall_eq, ih]
  | trans _ _ ihxy ihyz => exact ihxy.trans ihyz

end Reordered

/-! ## Collecting -/

/-- Collecting from some entries adds to what was found before, if it does so for each entry. -/
theorem collectEntries_perm {entries : List (FileName × FileTree)}
    (hcollect : ∀ e ∈ entries, ∀ above found,
      (collect above found e.2).Perm (found ++ collect above [] e.2))
    (above : List FileName) (found : List FoundFile) :
    (collectEntries above found entries).Perm
      (found ++ entries.flatMap fun e => collect (e.1 :: above) [] e.2) := by
  induction entries generalizing found with
  | nil => simp [collectEntries]
  | cons e entries ih =>
    obtain ⟨hhead, htail⟩ := List.forall_mem_cons.1 hcollect
    rw [collectEntries, List.flatMap_cons, ← List.append_assoc]
    exact (ih htail _).trans ((hhead _ found).append_right _)

/-- Up to the order, collecting from a node adds to what was found before. -/
theorem collect_perm (tree : FileTree) (above : List FileName) (found : List FoundFile) :
    (collect above found tree).Perm (found ++ collect above [] tree) := by
  induction tree using FileTree.induction generalizing above found with
  | file content =>
    cases above with
    | nil => simp [collect]
    | cons name above =>
      simp only [collect]
      split <;> simp
  | directory entries ih =>
    have hadded := collectEntries_perm ih above
    have hsorted (found : List FoundFile) :
        (collect above found (.directory entries)).Perm (collectEntries above found entries) :=
      List.mergeSort_perm _ _
    exact ((hsorted found).trans (hadded found)).trans
      (((hsorted []).trans (hadded [])).symm.append_left found)

/-- Up to the order, the files of a directory are those of its entries one behind the other. -/
theorem collect_directory_perm (above : List FileName) (entries : List (FileName × FileTree)) :
    (collect above [] (.directory entries)).Perm
      (entries.flatMap fun e => collect (e.1 :: above) [] e.2) :=
  (List.mergeSort_perm _ _).trans (collectEntries_perm (fun e _ => collect_perm e.2) above [])

/-- A file is collected if the name that it is reached by is that of a grammar file. -/
theorem mem_collect_file_iff {content : Except FileError ByteArray} {above : List FileName}
    {f : FoundFile} :
    f ∈ collect above [] (.file content) ↔ f = ⟨above.reverse, content⟩ ∧ f.IsGrammarFile := by
  cases above with
  | nil =>
    suffices ¬ FoundFile.IsGrammarFile ⟨[], content⟩ by simpa [collect] using fun hf => hf ▸ this
    rintro ⟨above, stem, -, hnames⟩
    simp at hnames
  | cons name above =>
    have hname : FoundFile.IsGrammarFile ⟨(name :: above).reverse, content⟩ ↔
        name.extension? = some FileName.ron := FoundFile.isGrammarFile_iff List.reverse_cons
    rw [and_congr_right fun hf : f = _ => hf ▸ hname, collect]
    split <;> simp [*]

/-- What is collected from a node are the grammar files below it. -/
theorem mem_collect_iff {tree : FileTree} {above : List FileName} {f : FoundFile} :
    f ∈ collect above [] tree ↔
      ∃ names, f.names = above.reverse ++ names ∧ tree.Leads names f.content ∧ f.IsGrammarFile := by
  induction tree using FileTree.induction generalizing above with
  | file content =>
    rw [mem_collect_file_iff]
    constructor
    · rintro ⟨rfl, hgrammar⟩
      exact ⟨[], (List.append_nil _).symm, .file, hgrammar⟩
    · rintro ⟨names, hnames, hleads, hgrammar⟩
      obtain ⟨rfl, rfl⟩ := leads_file_iff.1 hleads
      rw [List.append_nil] at hnames
      exact ⟨hnames ▸ rfl, hgrammar⟩
  | directory entries ih =>
    rw [(collect_directory_perm above entries).mem_iff, List.mem_flatMap]
    constructor
    · rintro ⟨e, he, hf⟩
      obtain ⟨names, hnames, hleads, hgrammar⟩ := (ih e he).1 hf
      exact ⟨e.1 :: names, by simpa using hnames, .directory he hleads, hgrammar⟩
    · rintro ⟨names, hnames, hleads, hgrammar⟩
      obtain ⟨e, he, below, rfl, hbelow⟩ := leads_directory_iff.1 hleads
      exact ⟨e, he, (ih e he).2 ⟨below, by simpa using hnames, hbelow, hgrammar⟩⟩

/-- What is listed are the files to which names lead, the last one that of a grammar file. -/
theorem mem_grammarFiles_iff {tree : FileTree} {f : FoundFile} :
    f ∈ tree.grammarFiles ↔ tree.Leads f.names f.content ∧ f.IsGrammarFile := by
  rw [grammarFiles, mem_collect_iff]
  simp

/-- No two files that are collected have the same names. -/
theorem Proper.pairwise_collect {tree : FileTree} (h : tree.Proper) (above : List FileName) :
    (collect above [] tree).Pairwise fun x y => x.names ≠ y.names := by
  induction h generalizing above with
  | file =>
    cases above with
    | nil => exact .nil
    | cons name above =>
      rw [collect]
      split <;> simp
  | directory hnames _ ih =>
    rw [(collect_directory_perm above _).pairwise_iff fun hne => hne.symm, List.pairwise_flatMap]
    refine ⟨fun e he => ih e he _, hnames.imp ?_⟩
    intro x y hxy f hf g hg hfg
    obtain ⟨names, hf, -⟩ := mem_collect_iff.1 hf
    obtain ⟨names', hg, -⟩ := mem_collect_iff.1 hg
    rw [hf, hg, List.reverse_cons, List.reverse_cons, List.append_assoc, List.append_assoc,
      List.append_cancel_left_eq] at hfg
    exact hxy (List.cons.inj hfg).1

/-! ## The order of paths -/

theorem pathLe_iff {x y : FoundFile} : pathLe x y = true ↔ ¬ y.names < x.names := by
  rw [pathLe, Bool.not_eq_true', ← Bool.not_eq_true, List.lex_eq_true_iff_lt]

/-- The list is sorted whatever the entries are called. -/
theorem pairwise_pathLe_grammarFiles (tree : FileTree) :
    tree.grammarFiles.Pairwise fun x y => pathLe x y = true := by
  cases tree with
  | file content => exact .nil
  | directory entries =>
    refine List.pairwise_mergeSort ?_ ?_ _
    · intro x y z hxy hyz
      rw [pathLe_iff] at hxy hyz ⊢
      exact fun hzx => hyz (lt_of_lt_of_le hzx (not_lt.1 hxy))
    · intro x y
      rw [Bool.or_eq_true, pathLe_iff, pathLe_iff]
      exact (le_total x.names y.names).imp not_lt.2 not_lt.2

/-- Every grammar file is listed once, in increasing order of the paths. -/
theorem Proper.pairwise_grammarFiles {tree : FileTree} (h : tree.Proper) :
    tree.grammarFiles.Pairwise fun x y => x.names < y.names :=
  ((pairwise_pathLe_grammarFiles tree).and (h.pairwise_collect [])).imp fun ⟨hle, hne⟩ =>
    lt_of_le_of_ne (not_lt.1 (pathLe_iff.1 hle)) hne

/-- The list of the grammar files does not depend on the order of the entries. -/
theorem Reordered.grammarFiles_eq {tree tree' : FileTree} (h : Reordered tree tree')
    (hproper : tree.Proper) : tree'.grammarFiles = tree.grammarFiles := by
  have hsorted := hproper.pairwise_grammarFiles
  have hsorted' := (h.proper_iff.1 hproper).pairwise_grammarFiles
  have hsame : tree'.grammarFiles.Perm tree.grammarFiles := by
    rw [List.perm_ext_iff_of_nodup (hsorted'.imp fun hlt => ne_of_apply_ne _ hlt.ne)
      (hsorted.imp fun hlt => ne_of_apply_ne _ hlt.ne)]
    simp only [mem_grammarFiles_iff, h.leads_iff, implies_true]
  exact hsame.eq_of_pairwise (fun x y _ _ hxy hyx => absurd hxy (lt_asymm hyx)) hsorted' hsorted

end FileTree

/-! ## Reading by paths -/

/-- A file as it looks to those who read it by its path from a directory. -/
def FoundFile.seenFrom (directory : FilePath) (f : FoundFile) : FoundFile :=
  ⟨f.names, if FilePath.longest < (f.pathFrom directory).length then .error .nameTooLong
    else f.content⟩

namespace FileTree

/-- Collecting from some entries as they look from a directory gives what the entries give as it
looks from there, if this is so for each entry. -/
theorem collectEntries_seenFrom {root : FilePath} {entries : List (FileName × FileTree)}
    {above : List FileName} {found : List FoundFile}
    (hcollect : ∀ e ∈ entries, ∀ found,
      collect (e.1 :: above) (found.map (FoundFile.seenFrom root))
          (e.2.seenFrom ((e.1 :: above).reverse.foldl FilePath.join root)) =
        (collect (e.1 :: above) found e.2).map (FoundFile.seenFrom root)) :
    collectEntries above (found.map (FoundFile.seenFrom root))
        (seenEntriesFrom (above.reverse.foldl FilePath.join root) entries) =
      (collectEntries above found entries).map (FoundFile.seenFrom root) := by
  induction entries generalizing found with
  | nil => rfl
  | cons e entries ih =>
    obtain ⟨hhead, htail⟩ := List.forall_mem_cons.1 hcollect
    have hjoin : (e.1 :: above).reverse.foldl FilePath.join root =
        (above.reverse.foldl FilePath.join root).join e.1 := by
      rw [List.reverse_cons, List.foldl_append]
      rfl
    rw [seenEntriesFrom, collectEntries, collectEntries, ← hjoin, hhead]
    exact ih htail

/-- What is collected from a node as it looks from a directory is what is collected from it as that
looks from there. -/
theorem collect_seenFrom {root : FilePath} {tree : FileTree} {above : List FileName}
    (h : tree.Readable (above.reverse.foldl FilePath.join root)) (found : List FoundFile) :
    collect above (found.map (FoundFile.seenFrom root))
        (tree.seenFrom (above.reverse.foldl FilePath.join root)) =
      (collect above found tree).map (FoundFile.seenFrom root) := by
  induction tree using FileTree.induction generalizing above found with
  | file content =>
    cases above with
    | nil => rfl
    | cons name above =>
      rw [seenFrom, collect, collect]
      split
      · rw [List.map_append]
        rfl
      · rfl
  | directory entries ih =>
    obtain ⟨hpath, hbelow⟩ := readable_directory_iff.1 h
    rw [seenFrom, if_neg (Nat.not_lt.2 hpath), collect, collect, collectEntries_seenFrom,
      List.map_mergeSort]
    · exact fun x _ y _ => rfl
    · intro e he found
      refine ih e he ?_ found
      rw [List.reverse_cons, List.foldl_append]
      exact hbelow e he

/-- Those who read every file by its path find the same files. -/
theorem grammarFiles_seenFrom {path : FilePath} {tree : FileTree} (h : tree.Readable path) :
    (tree.seenFrom path).grammarFiles = tree.grammarFiles.map (FoundFile.seenFrom path) :=
  @collect_seenFrom path tree [] h []

end FileTree

end GrowthGrammar
