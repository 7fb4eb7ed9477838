import GrowthGrammar.System.Basic

/-!
# Histories of a system

A `System.Call` is a call that a caller can make on a system, and `System.afterAll` is the system
after a series of calls. `System.exists_afterAll_eq` says how little a history leaves behind: the
number of expansions made so far and nothing else.
-/

namespace GrowthGrammar.System

variable {S : Type}

/-- A call on a system. A call that expands comes with the generator that an engine uses whose seed
is `entropy`; variants come with one for each of them. -/
inductive Call where
  | expand (fresh : Generator)
  | evaluate (w : Word)
  | trace (w : Word)
  | generate (fresh : Generator)
  | generateVariants (fresh : Nat → Generator) (count : Nat)

/-- The system after a call. -/
def after (s : System S) : Call → System S
  | .expand fresh => (s.expand fresh).2
  | .evaluate _ => s
  | .trace _ => s
  | .generate fresh => (s.generate fresh).2
  | .generateVariants fresh count => (s.generateVariants fresh count).2

/-- The system after a series of calls. -/
def afterAll (s : System S) (calls : List Call) : System S := calls.foldl after s

/-- The system whose engine has made the given number of expansions. -/
def withCalls (s : System S) (calls : Nat) : System S :=
  { s with engine := { s.engine with calls } }

/-- An expansion is counted and changes nothing else. -/
theorem expand_snd (s : System S) (fresh : Generator) :
    (s.expand fresh).2 = s.withCalls (s.engine.calls + 1) := rfl

/-- To generate counts as an expansion, whether the walk succeeds or not. -/
theorem generate_snd (s : System S) (fresh : Generator) :
    (s.generate fresh).2 = s.withCalls (s.engine.calls + 1) := by
  unfold generate
  dsimp only
  split <;> rfl

/-! ## Series of variants -/

section
variable {fresh : Nat → Generator} {base : UInt64} {i count : Nat} {s after : System S}

/-- A series ends with the first variant that fails. -/
theorem variantsFrom_succ_of_error {e : SystemError}
    (h : generate { s with seed := base + i.toUInt64 } (fresh i) = (.error e, after)) :
    variantsFrom fresh base i (count + 1) s = (.error e, { after with seed := base }) := by
  rw [variantsFrom, h]

/-- A series goes on behind a variant that succeeds. -/
theorem variantsFrom_succ_of_ok {g : Generation S}
    (h : generate { s with seed := base + i.toUInt64 } (fresh i) = (.ok g, after)) :
    variantsFrom fresh base i (count + 1) s =
      ((variantsFrom fresh base (i + 1) count after).1.map (g :: ·),
        (variantsFrom fresh base (i + 1) count after).2) := by
  rw [variantsFrom, h]

end

/-- A series of variants counts expansions and sets the seed back, also when it fails. -/
theorem exists_variantsFrom_snd_eq (fresh : Nat → Generator) (base : UInt64) (i count : Nat)
    (s : System S) :
    ∃ calls, (variantsFrom fresh base i count s).2 = { s.withCalls calls with seed := base } := by
  induction count generalizing i s with
  | zero => exact ⟨s.engine.calls, rfl⟩
  | succ count ih =>
    have hnext := generate_snd { s with seed := base + i.toUInt64 } (fresh i)
    rcases hgenerate : generate { s with seed := base + i.toUInt64 } (fresh i) with ⟨e | g, after⟩
    · rw [variantsFrom_succ_of_error hgenerate]
      rw [hgenerate] at hnext
      refine ⟨s.engine.calls + 1, ?_⟩
      rw [show after = _ from hnext]
      rfl
    · rw [variantsFrom_succ_of_ok hgenerate]
      rw [hgenerate] at hnext
      obtain ⟨calls, hrest⟩ := ih (i + 1) after
      refine ⟨calls, hrest.trans ?_⟩
      rw [show after = _ from hnext]
      rfl

/-- A call counts expansions and changes nothing else. -/
theorem exists_after_eq (s : System S) (c : Call) : ∃ calls, s.after c = s.withCalls calls := by
  cases c with
  | expand fresh => exact ⟨_, s.expand_snd fresh⟩
  | evaluate w | trace w => exact ⟨s.engine.calls, rfl⟩
  | generate fresh => exact ⟨_, s.generate_snd fresh⟩
  | generateVariants fresh count => exact exists_variantsFrom_snd_eq fresh s.seed 0 count s

/-- A series of calls counts expansions and changes nothing else. -/
theorem exists_afterAll_eq (s : System S) (calls : List Call) :
    ∃ n, s.afterAll calls = s.withCalls n := by
  induction calls generalizing s with
  | nil => exact ⟨s.engine.calls, rfl⟩
  | cons c calls ih =>
    obtain ⟨m, hm⟩ := s.exists_after_eq c
    obtain ⟨n, hn⟩ := ih (s.after c)
    refine ⟨n, hn.trans ?_⟩
    rw [hm]
    rfl

end GrowthGrammar.System
