import GrowthGrammar.Proofs.Grammar.Series
import GrowthGrammar.Proofs.System.History
import GrowthGrammar.Proofs.Walk.Verdict

/-!
# Variants are made one by one

A series of variants changes the seed of the system on its way. `System.variant` is a variant made
on its own: the word of an expansion so many calls ahead, walked with the seed of the system plus
its number. `System.variants_independent` says that a series is nothing but its variants, up to the
first one that fails, and that it leaves nothing behind but the number of its expansions, also when
it fails.
-/

namespace GrowthGrammar.System

variable {S : Type}

/-- The word of the expansion so many calls ahead. -/
def wordAhead (s : System S) (fresh : Generator) (i : Nat) : Word :=
  ({ s.engine with calls := s.engine.calls + i }.expand fresh).1

/-- The variant with a number, made on its own. Its word is that of the expansion so many calls
ahead, and its walk starts from the initial state, with a fresh stream of the seed plus the
number. -/
def variant (s : System S) (fresh : Nat → Generator) (i : Nat) : Except EvalError (Generation S) :=
  let w := s.wordAhead (fresh i) i
  let streams := Streams.single (.ofSeed (s.seed + i.toUInt64))
  match (GrowthGrammar.evaluate s.instructions ⟨s.initialState, 0⟩ streams w).result with
  | .ok states => .ok ⟨w, states⟩
  | .error cause => .error cause

/-- The system in the middle of a series: so many expansions were made, and the seed may be
another. -/
def inSeries (s : System S) (i : Nat) (seed : UInt64) : System S :=
  { s.withCalls (s.engine.calls + i) with seed }

/-- In the middle of a series the next variant is generated. -/
theorem generate_inSeries (s : System S) (fresh : Nat → Generator) (i : Nat) :
    (s.inSeries i (s.seed + i.toUInt64)).generate (fresh i) =
      ((s.variant fresh i).mapError .eval, s.inSeries (i + 1) (s.seed + i.toUInt64)) := by
  refine Prod.ext ?_ (generate_snd _ _)
  unfold generate variant
  dsimp only
  show (match (GrowthGrammar.evaluate s.instructions ⟨s.initialState, 0⟩
      (.single (.ofSeed (s.seed + i.toUInt64))) (s.wordAhead (fresh i) i)).result with
    | .ok states => (.ok ⟨s.wordAhead (fresh i) i, states⟩, _)
    | .error cause => (.error (.eval cause), _) :
      Except SystemError (Generation S) × System S).1 = _
  cases (GrowthGrammar.evaluate s.instructions ⟨s.initialState, 0⟩
    (.single (.ofSeed (s.seed + i.toUInt64))) (s.wordAhead (fresh i) i)).result <;> rfl

/-- A series from one variant on ends with all of them or with the first failure. It counts the
expansions that it made, and it sets the seed back. -/
theorem variantsFrom_cases (s : System S) (fresh : Nat → Generator) (count i : Nat)
    (seed : UInt64) :
    (∃ gs, variantsFrom fresh s.seed i count (s.inSeries i seed) =
        (.ok gs, s.withCalls (s.engine.calls + (i + count))) ∧
      gs.length = count ∧ ∀ k (hk : k < gs.length), s.variant fresh (i + k) = .ok gs[k]) ∨
    ∃ k < count, ∃ cause, variantsFrom fresh s.seed i count (s.inSeries i seed) =
        (.error (.eval cause), s.withCalls (s.engine.calls + (i + k + 1))) ∧
      (∀ j < k, ∃ g, s.variant fresh (i + j) = .ok g) ∧
      s.variant fresh (i + k) = .error cause := by
  induction count generalizing i seed with
  | zero => exact .inl ⟨[], rfl, rfl, fun k hk => nomatch hk⟩
  | succ count ih =>
    have hgenerate : generate { s.inSeries i seed with seed := s.seed + i.toUInt64 } (fresh i) =
        ((s.variant fresh i).mapError .eval, s.inSeries (i + 1) (s.seed + i.toUInt64)) :=
      s.generate_inSeries fresh i
    cases hvariant : s.variant fresh i with
    | error cause =>
      rw [hvariant] at hgenerate
      have hno : ∀ j < 0, ∃ g, s.variant fresh (i + j) = .ok g :=
        fun j hj => absurd hj (Nat.not_lt_zero j)
      exact .inr ⟨0, count.succ_pos, cause, variantsFrom_succ_of_error hgenerate, hno, hvariant⟩
    | ok g =>
      rw [hvariant] at hgenerate
      rw [variantsFrom_succ_of_ok hgenerate]
      rcases ih (i + 1) (s.seed + i.toUInt64) with
        ⟨gs, hseries, hlength, hgs⟩ | ⟨k, hk, cause, hseries, hbefore, hcause⟩
      · refine .inl ⟨g :: gs, ?_, congrArg (· + 1) hlength, ?_⟩
        · rw [hseries, Nat.add_right_comm]
          rfl
        · intro k hk
          cases k with
          | zero => exact hvariant
          | succ k =>
            rw [Nat.add_succ, ← Nat.succ_add]
            exact hgs k (Nat.lt_of_succ_lt_succ hk)
      · refine .inr ⟨k + 1, Nat.succ_lt_succ hk, cause, ?_, ?_, ?_⟩
        · rw [hseries, Nat.add_right_comm i 1 k]
          rfl
        · intro j hj
          cases j with
          | zero => exact ⟨g, hvariant⟩
          | succ j =>
            obtain ⟨g, hg⟩ := hbefore j (Nat.lt_of_succ_lt_succ hj)
            rw [Nat.add_right_comm] at hg
            exact ⟨g, hg⟩
        · rw [Nat.add_right_comm] at hcause
          exact hcause

/-- A series of variants ends with all of them or with the first failure. It counts the expansions
that it made and changes nothing else. -/
theorem generateVariants_cases (s : System S) (fresh : Nat → Generator) (count : Nat) :
    (∃ gs, s.generateVariants fresh count = (.ok gs, s.withCalls (s.engine.calls + count)) ∧
      gs.length = count ∧ ∀ i (hi : i < gs.length), s.variant fresh i = .ok gs[i]) ∨
    ∃ i < count, ∃ cause, s.generateVariants fresh count =
        (.error (.eval cause), s.withCalls (s.engine.calls + i + 1)) ∧
      (∀ j < i, ∃ g, s.variant fresh j = .ok g) ∧ s.variant fresh i = .error cause := by
  -- at its start the series has made no expansion, and the seed is the own one
  have hstart : s.inSeries 0 s.seed = s := rfl
  have hcases := s.variantsFrom_cases fresh count 0 s.seed
  simp only [hstart, Nat.zero_add] at hcases
  exact hcases

/-! ## Variants of one word -/

/-- A variant fails as the branch markers of its word say. -/
theorem variant_eq_error_iff {s : System S} {fresh : Nat → Generator} {i : Nat}
    {cause : EvalError} :
    s.variant fresh i = .error cause ↔ (s.wordAhead (fresh i) i).fault? = some cause := by
  have hwalk : (GrowthGrammar.evaluate s.instructions ⟨s.initialState, 0⟩
      (.single (.ofSeed (s.seed + i.toUInt64))) (s.wordAhead (fresh i) i)).result = .error cause ↔
        (s.wordAhead (fresh i) i).fault? = some cause := walk_eq_error_iff
  rw [← hwalk]
  unfold variant
  dsimp only
  split
  · next h => simp [h]
  · next h => simp [h]

/-- The word of a variant is that of its expansion. -/
theorem word_of_variant_eq_ok {s : System S} {fresh : Nat → Generator} {i : Nat} {g : Generation S}
    (h : s.variant fresh i = .ok g) : g.word = s.wordAhead (fresh i) i := by
  unfold variant at h
  dsimp only at h
  split at h
  · cases h
    rfl
  · cases h

/-- With a fixed seed all expansions make the same word. -/
theorem wordAhead_of_fixed {s : System S} {v : UInt64} (h : s.engine.seed = .fixed v)
    (fresh fresh' : Generator) (i j : Nat) : s.wordAhead fresh i = s.wordAhead fresh' j := by
  let ahead (i : Nat) : Engine := { s.engine with calls := s.engine.calls + i }
  have hgenerator : ∀ fresh i, (ahead i).seed.generator fresh (ahead i).calls = .ofSeed v := by
    intro fresh i
    show s.engine.seed.generator fresh _ = _
    rw [h]
    rfl
  exact Engine.expand_fst_congr (e := ahead i) (f := ahead j) rfl
    ((hgenerator fresh i).trans (hgenerator fresh' j).symm)

/-- To generate once is to make the first variant. -/
theorem generate_fst (s : System S) (fresh : Generator) :
    (s.generate fresh).1 = (s.variant (fun _ => fresh) 0).mapError .eval := by
  have h := congrArg Prod.fst (s.generate_inSeries (fun _ => fresh) 0)
  have hseed : s.seed + (0 : Nat).toUInt64 = s.seed := UInt64.add_zero _
  rw [hseed] at h
  exact h

/-- To generate fails as the branch markers of the next word say. -/
theorem generate_eq_error_iff {s : System S} {fresh : Generator} {e : SystemError} :
    (s.generate fresh).1 = .error e ↔
      ∃ cause, e = .eval cause ∧ (s.wordAhead fresh 0).fault? = some cause := by
  rw [generate_fst]
  constructor
  · intro h
    cases hvariant : s.variant (fun _ => fresh) 0 with
    | ok g => rw [hvariant] at h; cases h
    | error cause =>
      rw [hvariant] at h
      cases h
      exact ⟨cause, rfl, variant_eq_error_iff.1 hvariant⟩
  · rintro ⟨cause, rfl, hfault⟩
    have hvariant : s.variant (fun _ => fresh) 0 = .error cause := variant_eq_error_iff.2 hfault
    rw [hvariant]
    rfl

/-- A series of variants is nothing but its variants, each made on its own. If it succeeds, it has
as many as asked for, and each is the variant of its number. If it fails, it does so with the error
of the first variant that fails. The seed, the grammar, the instructions and the initial state are
afterwards what they were before; only the number of expansions has grown, by all those that were
made. If the expansions have a fixed seed, all variants have the same word, and a series fails
exactly if to generate once does, with the same error. -/
theorem variants_independent (s : System S) (fresh : Nat → Generator) (count : Nat) :
    (∀ gs, (s.generateVariants fresh count).1 = .ok gs →
      gs.length = count ∧ (∀ i (hi : i < gs.length), s.variant fresh i = .ok gs[i]) ∧
        (s.generateVariants fresh count).2.engine.calls = s.engine.calls + count) ∧
    (∀ e, (s.generateVariants fresh count).1 = .error e →
      ∃ i < count, ∃ cause, e = .eval cause ∧ (∀ j < i, ∃ g, s.variant fresh j = .ok g) ∧
        s.variant fresh i = .error cause ∧
        (s.generateVariants fresh count).2.engine.calls = s.engine.calls + (i + 1)) ∧
    ((∃ gs, (s.generateVariants fresh count).1 = .ok gs) ↔
      ∀ i < count, ∃ g, s.variant fresh i = .ok g) ∧
    (∃ calls, (s.generateVariants fresh count).2 =
      ⟨{ s.engine with calls }, s.instructions, s.initialState, s.seed⟩) ∧
    ∀ v, s.engine.seed = .fixed v →
      (∀ gs, (s.generateVariants fresh count).1 = .ok gs →
        ∀ g ∈ gs, ∀ g' ∈ gs, g.word = g'.word) ∧
      (1 ≤ count → ∀ fresh' e, (s.generateVariants fresh count).1 = .error e ↔
        (s.generate fresh').1 = .error e) := by
  rcases s.generateVariants_cases fresh count with
    ⟨gs, hseries, hlength, hgs⟩ | ⟨i, hi, cause, hseries, hbefore, hcause⟩
  · rw [hseries]
    have hall : ∀ i < count, ∃ g, s.variant fresh i = .ok g := fun i hi =>
      ⟨_, hgs i (hlength.symm ▸ hi)⟩
    refine ⟨?_, nofun, ⟨fun _ => hall, fun _ => ⟨gs, rfl⟩⟩, ⟨_, rfl⟩, fun v hv => ⟨?_, ?_⟩⟩
    · rintro _ ⟨⟩
      exact ⟨hlength, hgs, rfl⟩
    · rintro _ ⟨⟩ g hg g' hg'
      obtain ⟨i, hi, rfl⟩ := List.getElem_of_mem hg
      obtain ⟨j, hj, rfl⟩ := List.getElem_of_mem hg'
      rw [word_of_variant_eq_ok (hgs i hi), word_of_variant_eq_ok (hgs j hj)]
      exact wordAhead_of_fixed hv _ _ i j
    · intro hcount fresh' e
      refine ⟨nofun, fun h => ?_⟩
      -- the first variant would fail as well, but it does not
      obtain ⟨cause, -, hfault⟩ := generate_eq_error_iff.1 h
      obtain ⟨g, hg⟩ := hall 0 hcount
      rw [wordAhead_of_fixed hv fresh' (fresh 0) 0 0] at hfault
      cases hg.symm.trans (variant_eq_error_iff.2 hfault)
  · rw [hseries]
    refine ⟨nofun, ?_, ⟨nofun, fun hall => ?_⟩, ⟨_, rfl⟩, fun v hv => ⟨nofun, ?_⟩⟩
    · rintro _ ⟨⟩
      exact ⟨i, hi, cause, rfl, hbefore, hcause, rfl⟩
    · obtain ⟨g, hg⟩ := hall i hi
      cases hg.symm.trans hcause
    · intro _ fresh' e
      have hfault : (s.wordAhead fresh' 0).fault? = some cause := by
        rw [wordAhead_of_fixed hv fresh' (fresh i) 0 i]
        exact variant_eq_error_iff.1 hcause
      rw [generate_eq_error_iff, hfault]
      simp [eq_comm]

end GrowthGrammar.System
