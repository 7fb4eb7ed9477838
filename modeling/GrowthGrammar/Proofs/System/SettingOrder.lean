import GrowthGrammar.Proofs.System.Building
import GrowthGrammar.Proofs.System.Structure
import GrowthGrammar.System.Config

/-!
# The order of settings

Settings of different kinds can be made in any order, and of one kind only the last counts. So it
is with a grammar that is given directly and a grammar file: the first one wins, whichever was set
later, and the file is then not read. `Builder.settings_commute` states this for all series of
settings, together with what is built from them. The systems that are built are the same and answer
the same calls alike; unless their seed is `entropy`, the generators that come with the calls do not
matter either, only the operations do (`System.replies_eq_of_operations`).
-/

namespace GrowthGrammar

/-! ## Systems without entropy -/

namespace System

/-- What a caller asks of a system: a call without its generators. -/
inductive Operation where
  | expand
  | evaluate (w : Word)
  | trace (w : Word)
  | generate
  | generateVariants (count : Nat)

/-- What a call asks. -/
def Call.operation : Call → Operation
  | .expand _ => .expand
  | .evaluate w => .evaluate w
  | .trace w => .trace w
  | .generate _ => .generate
  | .generateVariants _ count => .generateVariants count

/-- The call that asks for an operation, with the given generators. -/
def Operation.call (fresh : Nat → Generator) : Operation → Call
  | .expand => .expand (fresh 0)
  | .evaluate w => .evaluate w
  | .trace w => .trace w
  | .generate => .generate (fresh 0)
  | .generateVariants count => .generateVariants fresh count

section
variable {S : Type} {s : System S}

theorem expand_eq (h : s.engine.seed ≠ .entropy) (fresh fresh' : Generator) :
    s.expand fresh = s.expand fresh' := by
  have hrng : s.engine.seed.generator fresh s.engine.calls =
      s.engine.seed.generator fresh' s.engine.calls :=
    ExpansionSeed.generator_congr (fun hentropy => absurd hentropy h) s.engine.calls
  unfold expand Engine.expand
  rw [hrng]

theorem generate_eq (h : s.engine.seed ≠ .entropy) (fresh fresh' : Generator) :
    s.generate fresh = s.generate fresh' := by
  unfold generate
  rw [expand_eq h fresh fresh']

/-- A series of variants without entropy does not depend on the generators. The seed of the engine
stays the same from one variant to the next. -/
theorem variantsFrom_eq (h : s.engine.seed ≠ .entropy) (fresh fresh' : Nat → Generator)
    (base : UInt64) (i count : Nat) :
    variantsFrom fresh base i count s = variantsFrom fresh' base i count s := by
  induction count generalizing i s with
  | zero => rfl
  | succ count ih =>
    let t : System S := { s with seed := base + i.toUInt64 }
    have hsame : t.generate (fresh i) = t.generate (fresh' i) :=
      generate_eq (s := t) h _ _
    have hnext := t.generate_snd (fresh i)
    rcases ht : t.generate (fresh i) with ⟨e | g, after⟩ <;> rw [ht] at hsame hnext
    · rw [variantsFrom_succ_of_error ht, variantsFrom_succ_of_error hsame.symm]
    · have hafter : after.engine.seed ≠ .entropy := by
        rw [show after = _ from hnext]
        exact h
      rw [variantsFrom_succ_of_ok ht, variantsFrom_succ_of_ok hsame.symm, ih hafter (i + 1)]

/-- Without entropy a call is answered as its operation says, with any generators, and leaves the
same behind. -/
theorem reply_operation (h : s.engine.seed ≠ .entropy) (fresh : Nat → Generator) (c : Call) :
    s.reply (c.operation.call fresh) = s.reply c ∧
      s.after (c.operation.call fresh) = s.after c := by
  cases c with
  | expand fresh' =>
    have hexpand := expand_eq h (fresh 0) fresh'
    exact ⟨congrArg Reply.word (congrArg Prod.fst hexpand), congrArg Prod.snd hexpand⟩
  | evaluate w | trace w => exact ⟨rfl, rfl⟩
  | generate fresh' =>
    have hgenerate := generate_eq h (fresh 0) fresh'
    exact ⟨congrArg Reply.generation (congrArg Prod.fst hgenerate), congrArg Prod.snd hgenerate⟩
  | generateVariants fresh' count =>
    have hvariants : s.generateVariants fresh count = s.generateVariants fresh' count := by
      unfold generateVariants
      rw [variantsFrom_eq h fresh fresh']
    exact ⟨congrArg Reply.variants (congrArg Prod.fst hvariants), congrArg Prod.snd hvariants⟩

/-- Without entropy two series of calls for the same operations are answered alike and leave the
same behind. -/
theorem replies_eq_of_operations (h : s.engine.seed ≠ .entropy) {calls calls' : List Call}
    (hcalls : calls.map Call.operation = calls'.map Call.operation) :
    s.replies calls = s.replies calls' ∧ s.afterAll calls = s.afterAll calls' := by
  induction calls generalizing s calls' with
  | nil =>
    obtain rfl : calls' = [] := List.map_eq_nil_iff.1 hcalls.symm
    exact ⟨rfl, rfl⟩
  | cons c calls ih =>
    cases calls' with
    | nil => cases hcalls
    | cons c' calls' =>
      obtain ⟨hoperation, hrest⟩ := List.cons.inj hcalls
      obtain ⟨hreply, hafter⟩ := reply_operation h (fun _ => .ofSeed 0) c
      obtain ⟨hreply', hafter'⟩ := reply_operation h (fun _ => .ofSeed 0) c'
      rw [hoperation] at hreply hafter
      have hnext : s.after c = s.after c' := hafter.symm.trans hafter'
      have hseed : (s.after c).engine.seed ≠ .entropy := by
        obtain ⟨n, hn⟩ := s.exists_after_eq c
        rw [hn]
        exact h
      obtain ⟨hreplies, hall⟩ := ih hseed hrest
      refine ⟨congrArg₂ List.cons (hreply.symm.trans hreply') ?_, ?_⟩
      · rw [← hnext]
        exact hreplies
      · show (s.after c).afterAll calls = (s.after c').afterAll calls'
        rw [← hnext]
        exact hall

end

end System

/-! ## What is built from a series of settings -/

namespace Builder

open Setting (lastArgument?)

section
variable {S : Type} [Inhabited S] {b : Builder S} {settings : List (Setting S)}

variable (b settings) in
/-- For every grammar there is a system of the last settings that is built whenever this grammar is
chosen. -/
theorem exists_madeOf_latest (g : Grammar) :
    ∃ s, s.MadeOf g (b.latest? settings) ∧ ∀ files,
      (b.setAll settings).chooseGrammar files = .ok g → (b.setAll settings).build files = .ok s := by
  obtain ⟨s, hs, hbuild⟩ := (b.setAll settings).exists_madeOf g
  rw [funext (b.held?_setAll settings)] at hs
  exact ⟨s, hs, hbuild⟩

/-- If a grammar was given directly, a system is built from it, and it is the same for all files. -/
theorem exists_build_of_grammar {g : Grammar} (h : b.latest? settings .grammar = some g) :
    ∃ s, s.MadeOf g (b.latest? settings) ∧ ∀ files, (b.setAll settings).build files = .ok s := by
  obtain ⟨s, hs, hbuild⟩ := b.exists_madeOf_latest settings g
  refine ⟨s, hs, fun files => hbuild files ?_⟩
  rw [chooseGrammar_setAll, h]

/-- If the grammar is that of a file, a system is built from it, or the refusal of the file is that
of the builder. -/
theorem build_of_grammarFile {path : String} (hgrammar : b.latest? settings .grammar = none)
    (hfile : b.latest? settings .grammarFile = some path) (files : FileReader) :
    (∀ g, Grammar.load files path = .ok g →
      ∃ s, s.MadeOf g (b.latest? settings) ∧ (b.setAll settings).build files = .ok s) ∧
    ∀ cause, Grammar.load files path = .error cause →
      (b.setAll settings).build files = .error (.grammar cause) := by
  have hchoose : (b.setAll settings).chooseGrammar files =
      (Grammar.load files path).mapError .grammar := by
    rw [chooseGrammar_setAll, hgrammar, hfile]
  constructor
  · intro g hload
    obtain ⟨s, hs, hbuild⟩ := b.exists_madeOf_latest settings g
    exact ⟨s, hs, hbuild files (by rw [hchoose, hload]; rfl)⟩
  · intro cause hload
    exact build_eq_of_chooseGrammar_error (by rw [hchoose, hload]; rfl)

/-- A grammar is missing exactly if none was given directly and none as a file. -/
theorem build_eq_missingGrammar_iff {files : FileReader} :
    (b.setAll settings).build files = .error .missingGrammar ↔
      b.latest? settings .grammar = none ∧ b.latest? settings .grammarFile = none := by
  constructor
  · intro h
    cases hgrammar : b.latest? settings .grammar with
    | some g =>
      obtain ⟨s, -, hbuild⟩ := exists_build_of_grammar hgrammar
      cases (hbuild files).symm.trans h
    | none =>
      cases hfile : b.latest? settings .grammarFile with
      | none => exact ⟨rfl, rfl⟩
      | some path =>
        obtain ⟨hok, herror⟩ := build_of_grammarFile hgrammar hfile files
        cases hload : Grammar.load files path with
        | ok g =>
          obtain ⟨s, -, hbuild⟩ := hok g hload
          cases hbuild.symm.trans h
        | error cause => cases (herror cause hload).symm.trans h
  · rintro ⟨hgrammar, hfile⟩
    refine build_eq_of_chooseGrammar_error ?_
    rw [chooseGrammar_setAll, hgrammar, hfile]

/-- Only the last file that was set is read, and no file if a grammar was given directly. -/
theorem build_setAll_congr_files {files files' : FileReader}
    (h : b.latest? settings .grammar = none → ∀ path, b.latest? settings .grammarFile = some path →
      files path = files' path) :
    (b.setAll settings).build files = (b.setAll settings).build files' := by
  refine build_congr_files ?_
  rw [chooseGrammar_setAll, chooseGrammar_setAll]
  cases hgrammar : b.latest? settings .grammar with
  | some g => rfl
  | none =>
    cases hfile : b.latest? settings .grammarFile with
    | none => rfl
    | some path =>
      have hload : Grammar.load files path = Grammar.load files' path := by
        unfold Grammar.load
        rw [h hgrammar path hfile]
      exact congrArg (Except.mapError SystemError.grammar) hload

end

/-- Settings commute. Take two series of settings, in any order and of any length, that are made on
one builder, be it the fresh one, that of a configuration or another one, and in which the last
argument of each kind is the same. They are built into the same system, or into none with the same
error, if the file that is read has the same content; this is the last one that was set, and no file
at all if a grammar was given directly. What is built answers a history of calls by their operations
alone; only for the seed `entropy` the generators have to be the same as well.

A grammar that was given directly wins over a file, whichever was set later: the system is built
from it, and is the same for all files. Otherwise the last file is loaded, and if it is refused,
this is the error. In both cases the number of generations that was set last replaces the grammar's
own, and all other settings are the last ones of their kind. A grammar is missing exactly if neither
a grammar nor a file was ever set. -/
theorem settings_commute {S : Type} [Inhabited S] (start : Builder S)
    (settings : List (Setting S)) :
    (∀ settings', (∀ kind, lastArgument? kind settings = lastArgument? kind settings') →
      ∀ files files' : FileReader,
        (start.latest? settings .grammar = none →
          ∀ path, start.latest? settings .grammarFile = some path → files path = files' path) →
        (start.setAll settings).build files = (start.setAll settings').build files' ∧
        ∀ s s', (start.setAll settings).build files = .ok s →
          (start.setAll settings').build files' = .ok s' →
          ∀ calls calls' : List System.Call,
            calls.map System.Call.operation = calls'.map System.Call.operation →
            (s.engine.seed = .entropy → calls = calls') →
            s.replies calls = s'.replies calls' ∧ s.afterAll calls = s'.afterAll calls') ∧
    (∀ g, start.latest? settings .grammar = some g →
      ∃ s, s.MadeOf g (start.latest? settings) ∧
        ∀ files, (start.setAll settings).build files = .ok s) ∧
    (∀ path, start.latest? settings .grammar = none →
      start.latest? settings .grammarFile = some path → ∀ files,
        (∀ g, Grammar.load files path = .ok g →
          ∃ s, s.MadeOf g (start.latest? settings) ∧
            (start.setAll settings).build files = .ok s) ∧
        ∀ cause, Grammar.load files path = .error cause →
          (start.setAll settings).build files = .error (.grammar cause)) ∧
    ∀ files, (start.setAll settings).build files = .error .missingGrammar ↔
      (start.grammar? = none ∧ ∀ g, .grammar g ∉ settings) ∧
        start.grammarFile? = none ∧ ∀ path, .grammarFile path ∉ settings := by
  refine ⟨fun settings' hlast files files' hfiles => ?_, fun g => exists_build_of_grammar,
    fun path => build_of_grammarFile, fun files => ?_⟩
  · have hbuild : (start.setAll settings).build files = (start.setAll settings').build files' := by
      rw [← start.setAll_eq_of_lastArgument? hlast]
      exact build_setAll_congr_files hfiles
    refine ⟨hbuild, fun s s' hs hs' calls calls' hcalls hentropy => ?_⟩
    obtain rfl : s = s' := Except.ok.inj (hs.symm.trans (hbuild.trans hs'))
    by_cases hseed : s.engine.seed = .entropy
    · rw [hentropy hseed]
      exact ⟨rfl, rfl⟩
    · exact System.replies_eq_of_operations hseed hcalls
  · exact build_eq_missingGrammar_iff.trans (and_congr latest?_eq_none_iff latest?_eq_none_iff)

/-- A grammar is given directly between a file that does not exist and settings that are replaced
later. The order does not matter, also not for what is answered later, and the file is not missed,
although nothing can be built from it alone. -/
theorem settings_commute_of_missing_file :
    let fresh : Builder Nat := {}
    let settings : List (Setting Nat) :=
      [.grammarFile "plant.ron", .seed 3, .grammar Engine.interleavedGrammar, .generations 4,
        .seed 5]
    let settings' : List (Setting Nat) :=
      [.generations 4, .grammar Engine.interleavedGrammar, .seed 5, .grammarFile "plant.ron"]
    let files : FileReader := fun _ => .error .notFound
    (∀ kind, lastArgument? kind settings = lastArgument? kind settings') ∧
    (∃ s, (fresh.setAll settings).build files = .ok s ∧
      (fresh.setAll settings').build files = .ok s ∧
      s.seed = 5 ∧ s.engine.grammar = Engine.interleavedGrammar.withGenerations 4 ∧
      ∀ rng rng',
        s.replies [.expand rng, .generate rng] = s.replies [.expand rng', .generate rng']) ∧
    (fresh.setAll [.grammarFile "plant.ron"]).build files =
      .error (.grammar (.file .notFound)) := by
  intro fresh settings settings' files
  have hlast : ∀ kind, lastArgument? kind settings = lastArgument? kind settings' := by
    intro kind
    cases kind <;> rfl
  obtain ⟨hsame, hgrammar, -⟩ := settings_commute fresh settings
  obtain ⟨s, hs, hbuild⟩ := hgrammar Engine.interleavedGrammar rfl
  obtain ⟨hequal, hreplies⟩ := hsame settings' hlast files files fun _ _ _ => rfl
  have hbuild' := hequal.symm.trans (hbuild files)
  have hseed : s.engine.seed = .fixed 0 := (Option.some.inj hs.expansion).symm
  refine ⟨hlast, ⟨s, hbuild files, hbuild', (Option.some.inj hs.seed).symm, hs.grammar, ?_⟩, ?_⟩
  · intro rng rng'
    refine (hreplies s s (hbuild files) hbuild' [.expand rng, .generate rng]
      [.expand rng', .generate rng'] rfl fun hentropy => ?_).1
    cases hseed.symm.trans hentropy
  · have hfile := (settings_commute fresh [.grammarFile "plant.ron"]).2.2.1
    exact (hfile "plant.ron" rfl rfl files).2 _ rfl

/-- The builder of a configuration is the fresh one behind four settings. -/
example (c : RunConfig) : c.builder = setAll {} [.grammar c.grammar, .seed c.seed,
    .expansion c.expansion, .initialState (.atOrigin c.stepLength)] := rfl

end Builder

end GrowthGrammar
