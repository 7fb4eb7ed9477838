import GrowthGrammar.Proofs.Grammar.Index
import GrowthGrammar.System.Basic

/-!
# What a builder builds

There are seven kinds of settings, each with an argument of its own type (`Setting.Kind`). A setting
replaces the one of its kind and leaves the others (`Builder.held?_set`), so that behind any
settings a builder holds the last argument of each kind (`Builder.held?_setAll`), and nothing else
is left of their order (`Builder.setAll_eq_of_lastArgument?`). What is built from a grammar is said
by `System.MadeOf`: a builder that has chosen a grammar always builds such a system
(`Builder.exists_madeOf`), since every grammar has an engine.
-/

namespace GrowthGrammar

namespace Setting

/-- The kinds of settings. -/
inductive Kind where
  | grammar | grammarFile | generations | instructions | expansion | seed | initialState

/-- What a setting of a kind sets. -/
def Kind.Argument (S : Type) : Kind → Type
  | .grammar => Grammar
  | .grammarFile => String
  | .generations => Nat
  | .instructions => InstructionTable Generator S
  | .expansion => ExpansionSeed
  | .seed => UInt64
  | .initialState => S

variable {S : Type}

/-- The setting of a kind with an argument. -/
def Kind.setting : (kind : Kind) → kind.Argument S → Setting S
  | .grammar, a => .grammar a
  | .grammarFile, a => .grammarFile a
  | .generations, a => .generations a
  | .instructions, a => .instructions a
  | .expansion, a => .expansion a
  | .seed, a => .seed a
  | .initialState, a => .initialState a

/-- The argument of a setting, if it is of the given kind. -/
def argument? : Setting S → (kind : Kind) → Option (kind.Argument S)
  | .grammar a, .grammar => some a
  | .grammarFile a, .grammarFile => some a
  | .generations a, .generations => some a
  | .instructions a, .instructions => some a
  | .expansion a, .expansion => some a
  | .seed a, .seed => some a
  | .initialState a, .initialState => some a
  | _, _ => none

theorem argument?_eq_some_iff {x : Setting S} {kind : Kind} {a : kind.Argument S} :
    x.argument? kind = some a ↔ x = kind.setting a := by
  constructor
  · intro h
    cases x <;> cases kind <;> cases h <;> rfl
  · rintro rfl
    cases kind <;> rfl

/-- The argument of the last setting of a kind. -/
def lastArgument? (kind : Kind) (settings : List (Setting S)) : Option (kind.Argument S) :=
  settings.reverse.findSome? (·.argument? kind)

/-- A first setting counts if no later one is of its kind. -/
theorem lastArgument?_cons (kind : Kind) (x : Setting S) (settings : List (Setting S)) :
    lastArgument? kind (x :: settings) =
      (lastArgument? kind settings).or (x.argument? kind) := by
  rw [lastArgument?, List.reverse_cons, List.findSome?_append, List.findSome?_singleton]
  rfl

/-- There is no last argument of a kind exactly if nothing of this kind is set. -/
theorem lastArgument?_eq_none_iff {kind : Kind} {settings : List (Setting S)} :
    lastArgument? kind settings = none ↔ ∀ a, kind.setting a ∉ settings := by
  rw [lastArgument?, List.findSome?_eq_none_iff]
  constructor
  · intro h a ha
    have hnone := h _ (List.mem_reverse.2 ha)
    rw [argument?_eq_some_iff.2 rfl] at hnone
    cases hnone
  · intro h x hx
    refine Option.eq_none_iff_forall_ne_some.2 fun a ha => h a ?_
    rw [← argument?_eq_some_iff.1 ha]
    exact List.mem_reverse.1 hx

end Setting

open Setting (Kind lastArgument?)

namespace Builder

variable {S : Type}

/-! ## The settings that are left -/

/-- The argument of a kind that a builder holds. -/
def held? (b : Builder S) : (kind : Kind) → Option (kind.Argument S)
  | .grammar => b.grammar?
  | .grammarFile => b.grammarFile?
  | .generations => b.generations?
  | .instructions => b.instructions?
  | .expansion => some b.expansion
  | .seed => some b.seed
  | .initialState => b.initialState?

/-- The builder behind some settings, made one after the other. -/
def setAll (b : Builder S) (settings : List (Setting S)) : Builder S := settings.foldl set b

/-- The argument of a kind that counts behind some settings: the last one of them, or else the one
that was there before. -/
def latest? (b : Builder S) (settings : List (Setting S)) (kind : Kind) :
    Option (kind.Argument S) :=
  (lastArgument? kind settings).or (b.held? kind)

/-- A builder is no more than the arguments that it holds. -/
theorem eq_of_held? {b b' : Builder S} (h : ∀ kind, b.held? kind = b'.held? kind) : b = b' := by
  have hexpansion : b.expansion = b'.expansion := Option.some.inj (h .expansion)
  have hseed : b.seed = b'.seed := Option.some.inj (h .seed)
  cases b
  cases b'
  congr 1
  exacts [h .grammar, h .grammarFile, h .generations, h .instructions, h .initialState]

/-- A setting replaces the argument of its kind and leaves the others. -/
theorem held?_set (b : Builder S) (x : Setting S) (kind : Kind) :
    (b.set x).held? kind = (x.argument? kind).or (b.held? kind) := by
  cases x <;> cases kind <;> rfl

/-- Behind some settings a builder holds the last arguments. -/
theorem held?_setAll (b : Builder S) (settings : List (Setting S)) (kind : Kind) :
    (b.setAll settings).held? kind = b.latest? settings kind := by
  induction settings generalizing b with
  | nil => rfl
  | cons x settings ih =>
    calc (b.setAll (x :: settings)).held? kind
        = (lastArgument? kind settings).or ((b.set x).held? kind) := ih (b.set x)
      _ = (lastArgument? kind settings).or ((x.argument? kind).or (b.held? kind)) := by
        rw [held?_set]
      _ = b.latest? (x :: settings) kind := by
        rw [latest?, Setting.lastArgument?_cons, Option.or_assoc]

/-- Nothing of a kind counts exactly if it was never set. -/
theorem latest?_eq_none_iff {b : Builder S} {settings : List (Setting S)} {kind : Kind} :
    b.latest? settings kind = none ↔ b.held? kind = none ∧ ∀ a, kind.setting a ∉ settings := by
  rw [latest?, Option.or_eq_none_iff, Setting.lastArgument?_eq_none_iff, and_comm]

/-- Settings with the same last arguments lead to the same builder. -/
theorem setAll_eq_of_lastArgument? (b : Builder S) {settings settings' : List (Setting S)}
    (h : ∀ kind, lastArgument? kind settings = lastArgument? kind settings') :
    b.setAll settings = b.setAll settings' :=
  eq_of_held? fun kind => by rw [held?_setAll, held?_setAll, latest?, latest?, h]

/-- Behind some settings a grammar that is given directly is chosen, or else the one of a file. -/
theorem chooseGrammar_setAll (b : Builder S) (settings : List (Setting S)) (files : FileReader) :
    (b.setAll settings).chooseGrammar files =
      match b.latest? settings .grammar, b.latest? settings .grammarFile with
      | some g, _ => .ok g
      | none, some path => (Grammar.load files path).mapError .grammar
      | none, none => .error .missingGrammar := by
  have hgrammar : (b.setAll settings).grammar? = b.latest? settings .grammar :=
    b.held?_setAll settings .grammar
  have hfile : (b.setAll settings).grammarFile? = b.latest? settings .grammarFile :=
    b.held?_setAll settings .grammarFile
  rw [chooseGrammar, hgrammar, hfile]
  cases b.latest? settings .grammar with
  | some g => rfl
  | none => cases b.latest? settings .grammarFile <;> rfl

end Builder

/-! ## The system that is built -/

/-- The system is put together from a grammar and from the arguments of the settings. The number of
generations replaces the grammar's own if it is set, and no expansion was made yet. -/
structure System.MadeOf {S : Type} [Inhabited S] (s : System S) (g : Grammar)
    (argument? : (kind : Kind) → Option (kind.Argument S)) : Prop where
  grammar : s.engine.grammar = g.withGenerations ((argument? .generations).getD g.generations)
  expansion : argument? .expansion = some s.engine.seed
  calls : s.engine.calls = 0
  instructions : s.instructions = (argument? .instructions).getD .empty
  initialState : s.initialState = (argument? .initialState).getD (default : S)
  seed : argument? .seed = some s.seed

namespace Builder

variable {S : Type} [Inhabited S]

/-- What a builder builds once its grammar is chosen: the number of generations that is set
replaces the grammar's own. -/
theorem build_eq_of_chooseGrammar {b : Builder S} {files : FileReader} {g : Grammar}
    (h : b.chooseGrammar files = .ok g) :
    b.build files =
      match Engine.new? (g.withGenerations (b.generations?.getD g.generations)) b.expansion with
      | .ok e => .ok ⟨e, b.instructions?.getD .empty, b.initialState?.getD default, b.seed⟩
      | .error cause => .error (.grammar cause) := by
  rw [build, h]
  cases b.generations? with
  | none =>
    show Except.bind (Except.mapError _ (Engine.new? g b.expansion)) _ =
      match Engine.new? g b.expansion with | .ok e => _ | .error cause => _
    cases Engine.new? g b.expansion <;> rfl
  | some count =>
    show Except.bind (Except.mapError _ (Engine.new? (g.withGenerations count) b.expansion)) _ =
      match Engine.new? (g.withGenerations count) b.expansion with | .ok e => _ | .error cause => _
    cases Engine.new? (g.withGenerations count) b.expansion <;> rfl

/-- Without a grammar nothing is built. -/
theorem build_eq_of_chooseGrammar_error {b : Builder S} {files : FileReader} {e : SystemError}
    (h : b.chooseGrammar files = .error e) : b.build files = .error e := by
  rw [build, h]
  rfl

/-- For every grammar there is a system that a builder builds whenever it chooses this grammar. -/
theorem exists_madeOf (b : Builder S) (g : Grammar) :
    ∃ s : System S, s.MadeOf g b.held? ∧
      ∀ files, b.chooseGrammar files = .ok g → b.build files = .ok s := by
  obtain ⟨e, he, hgrammar, hseed, hcalls⟩ :=
    Engine.exists_new? (g.withGenerations (b.generations?.getD g.generations)) b.expansion
  refine ⟨⟨e, b.instructions?.getD .empty, b.initialState?.getD default, b.seed⟩, ?_, ?_⟩
  · exact ⟨hgrammar, congrArg some hseed.symm, hcalls, rfl, rfl, rfl⟩
  · intro files hchoose
    rw [build_eq_of_chooseGrammar hchoose, he]

/-- What is built depends on the files by the choice of the grammar alone. -/
theorem build_congr_files {b : Builder S} {files files' : FileReader}
    (h : b.chooseGrammar files = b.chooseGrammar files') : b.build files = b.build files' := by
  rw [build, build, h]

/-- A builder that is given a grammar builds a system with this grammar, for the generations that
are set or else for the grammar's own. -/
theorem exists_build_eq_ok (b : Builder S) {g : Grammar} (h : b.grammar? = some g)
    (files : FileReader) :
    ∃ s, b.build files = .ok s ∧
      s.engine.grammar = g.withGenerations (b.generations?.getD g.generations) := by
  obtain ⟨s, hs, hbuild⟩ := b.exists_madeOf g
  exact ⟨s, hbuild files (by rw [chooseGrammar, h]), hs.grammar⟩

end Builder

end GrowthGrammar
