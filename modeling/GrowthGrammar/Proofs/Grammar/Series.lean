import GrowthGrammar.Proofs.Grammar.Scan
import Mathlib.Data.List.Forall2

/-!
# Series of expansions

A program can hold many engines of one grammar, clone them, and call them in any order. A history of
such `Engine.Operation`s leaves a family of engines, and `Engine.tally` says of each of them which
seed it has and how many expansions count for it: its own, and those that its parent had made when
it was cloned. Nothing else matters for what an engine answers. `Engine.expansion_series` says which
word the next expansion makes, namely the first one of a new engine with a fixed seed, and that an
operation can be left out of a history for all engines but the one that it expands.
-/

namespace GrowthGrammar

/-- The generator that is supplied matters for the seed `entropy` alone. -/
theorem ExpansionSeed.generator_congr {seed : ExpansionSeed} {fresh fresh' : Generator}
    (h : seed = .entropy → fresh = fresh') (call : ℕ) :
    seed.generator fresh call = seed.generator fresh' call := by
  cases seed with
  | fixed v | perCall v => rfl
  | entropy => exact h rfl

namespace Engine

/-! ## Engines of one grammar -/

section
variable {ρ : Type} [RandomBits ρ] {e f : Engine}

/-- Engines of one grammar derive alike. -/
theorem derive_congr (h : e.grammar = f.grammar) : e.derive (ρ := ρ) = f.derive := by
  funext w
  rw [derive_eq_scan, derive_eq_scan, h]

/-- Engines that derive alike do so for any number of generations. -/
theorem deriveTimes_congr (h : e.derive (ρ := ρ) = f.derive) (n : ℕ) :
    e.deriveTimes (ρ := ρ) n = f.deriveTimes n := by
  induction n with
  | zero => rfl
  | succ n ih =>
    funext w
    rw [deriveTimes, deriveTimes, h, ih]

/-- Engines of one grammar expand alike on a generator of the caller's. -/
theorem expandWith_congr (h : e.grammar = f.grammar) :
    e.expandWith (ρ := ρ) = f.expandWith := by
  rw [expandWith, expandWith, h, deriveTimes_congr (derive_congr h)]

/-- Engines that expand alike on the generators of callers do so on their own ones, if they use the
same generator. -/
theorem expand_fst_of_expandWith (h : e.expandWith (ρ := Generator) = f.expandWith)
    {fresh fresh' : Generator}
    (hrng : e.seed.generator fresh e.calls = f.seed.generator fresh' f.calls) :
    (e.expand fresh).1 = (f.expand fresh').1 := by
  show (e.expandWith (e.seed.generator fresh e.calls)).1 =
    (f.expandWith (f.seed.generator fresh' f.calls)).1
  rw [h, hrng]

/-- Engines of one grammar expand alike if they use the same generator. -/
theorem expand_fst_congr (h : e.grammar = f.grammar) {fresh fresh' : Generator}
    (hrng : e.seed.generator fresh e.calls = f.seed.generator fresh' f.calls) :
    (e.expand fresh).1 = (f.expand fresh').1 :=
  expand_fst_of_expandWith (expandWith_congr h) hrng

end

/-! ## Calls on an engine -/

/-- A call on an engine. An expansion comes with the generator that an engine uses whose seed is
`entropy`, the calls with a generator of their own with that one, each with one of any type. -/
inductive Call where
  | expand (fresh : Generator)
  | expandText (fresh : Generator)
  | expandWith {ρ : Type} [RandomBits ρ] (rng : ρ)
  | derive {ρ : Type} [RandomBits ρ] (w : Word) (rng : ρ)
  | grammar
  | seed

/-- What an engine answers. A generator of the call's own is answered as the call leaves it. -/
inductive Answer where
  | word (w : Word)
  | text (text : String)
  | drawn {ρ : Type} (w : Word) (rng : ρ)
  | grammar (g : Grammar)
  | seed (seed : ExpansionSeed)

/-- The answer to a call. -/
def answer (e : Engine) : Call → Answer
  | .expand fresh => .word (e.expand fresh).1
  | .expandText fresh => .text (e.expandText fresh).1
  | @Call.expandWith _ _ rng => .drawn (e.expandWith rng).1 (e.expandWith rng).2
  | @Call.derive _ _ w rng => .drawn (e.derive w rng).1 (e.derive w rng).2
  | .grammar => .grammar e.grammar
  | .seed => .seed e.seed

/-- The engine after a call. -/
def after (e : Engine) : Call → Engine
  | .expand fresh => (e.expand fresh).2
  | .expandText fresh => (e.expandText fresh).2
  | @Call.expandWith .. | @Call.derive .. | .grammar | .seed => e

/-- Whether a call counts as an expansion. -/
def Call.counts : Call → Bool
  | .expand _ | .expandText _ => true
  | @Call.expandWith .. | @Call.derive .. | .grammar | .seed => false

/-- A call that does not count leaves the engine as it is. -/
theorem after_of_counts_eq_false (e : Engine) {c : Call} (h : c.counts = false) :
    e.after c = e := by
  cases c with
  | expand fresh | expandText fresh => cases h
  | expandWith rng | derive w rng | grammar | seed => rfl

/-- A history of calls counts its expansions and changes nothing else. -/
theorem foldl_after_eq (e : Engine) (past : List Call) :
    past.foldl after e = { e with calls := e.calls + past.countP (·.counts) } := by
  induction past generalizing e with
  | nil => rfl
  | cons c past ih =>
    rw [List.foldl_cons, ih, List.countP_cons]
    cases c with
    | expand fresh | expandText fresh =>
      exact congrArg (Engine.mk _ _ _ _) (Nat.add_right_comm e.calls 1 _)
    | expandWith rng | derive w rng | grammar | seed => rfl

/-- A history of calls does not change the grammar. -/
@[simp] theorem grammar_foldl_after (e : Engine) (past : List Call) :
    (past.foldl after e).grammar = e.grammar := by
  rw [foldl_after_eq]

/-! ## Families of engines -/

/-- An operation on the engines of one grammar, which are numbered in the order in which they were
made. -/
inductive Operation where
  | make (seed : ExpansionSeed)
  | clone (k : ℕ)
  | call (k : ℕ) (c : Call)

/-- The engines after an operation. One that names no engine does nothing. -/
def perform (g : Grammar) (engines : List Engine) : Operation → List Engine
  | .make seed =>
    match new? g seed with
    | .ok e => engines ++ [e]
    | .error _ => engines
  | .clone k => engines ++ engines[k]?.toList
  | .call k c => engines.modify k (·.after c)

/-- The engines after a history of operations. -/
def family (g : Grammar) (history : List Operation) : List Engine := history.foldl (perform g) []

/-- The answer to a call on an engine after a history, if there is such an engine. -/
def answerAfter (g : Grammar) (history : List Operation) (k : ℕ) (c : Call) : Option Answer :=
  (family g history)[k]?.map (·.answer c)

/-- Counts an operation. A clone starts from the count of its parent. -/
def count (tally : List (ExpansionSeed × ℕ)) : Operation → List (ExpansionSeed × ℕ)
  | .make seed => tally ++ [(seed, 0)]
  | .clone k => tally ++ tally[k]?.toList
  | .call k c => tally.modify k fun (seed, n) => (seed, if c.counts then n + 1 else n)

/-- The seed of every engine, and the number of expansions that count for it, after a history. -/
def tally (history : List Operation) : List (ExpansionSeed × ℕ) := history.foldl count []

/-- A clone counts on from its parent, and each of the two for itself. -/
example (rng : Generator) :
    tally [.make (.perCall 5), .call 0 (.expand rng), .clone 0, .call 1 (.expandText rng),
      .call 1 (.expandWith rng), .call 1 (.expand rng)] = [(.perCall 5, 1), (.perCall 5, 3)] := rfl

/-- The engine has the grammar of the family, and the seed and the count of its entry. -/
structure Fits (g : Grammar) (e : Engine) (entry : ExpansionSeed × ℕ) : Prop where
  grammar : e.grammar = g
  seed : e.seed = entry.1
  calls : e.calls = entry.2

/-- A call counts an expansion, if it is one, and changes nothing else. -/
theorem Fits.after {g : Grammar} {e : Engine} {seed : ExpansionSeed} {n : ℕ}
    (h : Fits g e (seed, n)) (c : Call) :
    Fits g (e.after c) (seed, if c.counts then n + 1 else n) := by
  cases c with
  | expand fresh | expandText fresh => exact ⟨h.grammar, h.seed, congrArg (· + 1) h.calls⟩
  | expandWith rng | derive w rng | grammar | seed => exact h

section
variable {α β : Type} {R : α → β → Prop} {as : List α} {bs : List β}

theorem forall₂_modify (h : List.Forall₂ R as bs) {f : α → α} {f' : β → β}
    (hf : ∀ a b, R a b → R (f a) (f' b)) (k : ℕ) :
    List.Forall₂ R (as.modify k f) (bs.modify k f') := by
  induction h generalizing k with
  | nil => simp
  | cons hab hrest ih =>
    cases k with
    | zero => exact .cons (hf _ _ hab) hrest
    | succ k => exact .cons hab (ih k)

theorem forall₂_getElem? (h : List.Forall₂ R as bs) (k : ℕ) :
    List.Forall₂ R as[k]?.toList bs[k]?.toList := by
  induction h generalizing k with
  | nil => simp
  | cons hab hrest ih =>
    cases k with
    | zero => exact .cons hab .nil
    | succ k => exact ih k

theorem exists_getElem?_of_forall₂ (h : List.Forall₂ R as bs) {k : ℕ} {b : β}
    (hb : bs[k]? = some b) : ∃ a, as[k]? = some a ∧ R a b := by
  have hk := forall₂_getElem? h k
  rw [hb] at hk
  cases has : as[k]? with
  | none => rw [has] at hk; cases hk
  | some a =>
    rw [has] at hk
    cases hk with
    | cons hab _ => exact ⟨a, rfl, hab⟩

end

/-- One operation on a family is counted in its tally. -/
theorem fits_perform {g : Grammar} {engines : List Engine} {entries : List (ExpansionSeed × ℕ)}
    (h : List.Forall₂ (Fits g) engines entries) (o : Operation) :
    List.Forall₂ (Fits g) (perform g engines o) (count entries o) := by
  cases o with
  | make seed =>
    obtain ⟨e, he, hgrammar, hseed, hcalls⟩ := exists_new? g seed
    rw [perform, he]
    exact List.rel_append h (.cons ⟨hgrammar, hseed, hcalls⟩ .nil)
  | clone k => exact List.rel_append h (forall₂_getElem? h k)
  | call k c => exact forall₂_modify h (fun e entry he => he.after c) k

/-- The engines of a family are what its tally says. -/
theorem fits_family (g : Grammar) (history : List Operation) :
    List.Forall₂ (Fits g) (family g history) (tally history) := by
  suffices hall : ∀ engines entries, List.Forall₂ (Fits g) engines entries →
      List.Forall₂ (Fits g) (history.foldl (perform g) engines) (history.foldl count entries) from
    hall [] [] .nil
  induction history with
  | nil => exact fun _ _ h => h
  | cons o history ih => exact fun _ _ h => ih _ _ (fits_perform h o)

/-! ## Operations on other engines -/

/-- The call that an operation makes on the engine with a number. -/
def Operation.callOn? (k : ℕ) : Operation → Option Call
  | .call i c => if i = k then some c else none
  | .make _ | .clone _ => none

theorem length_le_length_perform (g : Grammar) (engines : List Engine) (o : Operation) :
    engines.length ≤ (perform g engines o).length := by
  cases o with
  | make seed => unfold perform; dsimp only; split <;> simp
  | clone k => simp [perform]
  | call k c => simp [perform]

/-- An engine is changed by the calls on it, and by no other operation. -/
theorem getElem?_perform (g : Grammar) {engines : List Engine} {k : ℕ} (hk : k < engines.length)
    (o : Operation) :
    (perform g engines o)[k]? =
      engines[k]?.map fun e => (o.callOn? k).toList.foldl after e := by
  cases o with
  | make seed =>
    have hid : engines[k]? = engines[k]?.map fun e => e := by simp
    unfold perform
    dsimp only
    split
    · rw [List.getElem?_append_left hk]
      exact hid
    · exact hid
  | clone i =>
    rw [perform, List.getElem?_append_left hk]
    simp [Operation.callOn?]
  | call i c =>
    rw [perform, List.getElem?_modify, Operation.callOn?]
    split_ifs with h <;> rfl

/-- After a history an engine is as the calls on it leave it, one after the other. -/
theorem getElem?_foldl_perform (g : Grammar) (history : List Operation) {engines : List Engine}
    {k : ℕ} (hk : k < engines.length) :
    (history.foldl (perform g) engines)[k]? =
      engines[k]?.map fun e => (history.filterMap (·.callOn? k)).foldl after e := by
  induction history generalizing engines with
  | nil => simp
  | cons o history ih =>
    rw [List.foldl_cons, ih (hk.trans_le (length_le_length_perform g engines o)),
      getElem?_perform g hk, Option.map_map, List.filterMap_cons]
    cases o.callOn? k <;> rfl

/-- Calls that do not count leave an engine as it is. -/
theorem foldl_after_of_counts_eq_false (e : Engine) {calls : List Call}
    (h : ∀ c ∈ calls, c.counts = false) : calls.foldl after e = e := by
  induction calls with
  | nil => rfl
  | cons c calls ih =>
    obtain ⟨hc, hcalls⟩ := List.forall_mem_cons.1 h
    rw [List.foldl_cons, after_of_counts_eq_false e hc]
    exact ih hcalls

/-- Operations that do not expand an engine can be left out of a history before any others, and the
engine comes out the same. -/
theorem getElem?_family_leave_out (g : Grammar) {past middle : List Operation} {k : ℕ}
    (hk : k < (family g past).length) (h : ∀ c, .call k c ∈ middle → c.counts = false)
    (later : List Operation) :
    (family g (past ++ middle ++ later))[k]? = (family g (past ++ later))[k]? := by
  have hmiddle : ∀ c ∈ middle.filterMap (·.callOn? k), c.counts = false := by
    intro c hc
    obtain ⟨o, ho, hcall⟩ := List.mem_filterMap.1 hc
    cases o with
    | make seed | clone i => cases hcall
    | call i d =>
      rw [Operation.callOn?] at hcall
      split_ifs at hcall with hi
      cases hcall
      subst hi
      exact h c ho
  unfold family at hk ⊢
  rw [List.append_assoc, List.foldl_append, List.foldl_append (l := past),
    getElem?_foldl_perform g _ hk, getElem?_foldl_perform g _ hk, List.filterMap_append]
  congr 1
  funext e
  rw [List.foldl_append, foldl_after_of_counts_eq_false e hmiddle]

/-! ## The series -/

/-- The engine that answers after a history is the one that the tally tells of. -/
theorem exists_answerAfter_eq {g : Grammar} {past : List Operation} {k : ℕ}
    {entry : ExpansionSeed × ℕ} (h : (tally past)[k]? = some entry) :
    ∃ e, Fits g e entry ∧ ∀ c, answerAfter g past k c = some (e.answer c) := by
  obtain ⟨e, he, hfits⟩ := exists_getElem?_of_forall₂ (fits_family g past) h
  refine ⟨e, hfits, fun c => ?_⟩
  rw [answerAfter, he]
  rfl

/-- The next expansion of an engine is the first one of a new engine with a fixed seed, if the two
use the same generator. -/
theorem answerAfter_expand {g : Grammar} {past : List Operation} {k j : ℕ} {seed : ExpansionSeed}
    (h : (tally past)[k]? = some (seed, j)) {v : UInt64}
    (hv : ∀ fresh, seed.generator fresh j = .ofSeed v) :
    ∃ f, new? g (.fixed v) = .ok f ∧ ∀ fresh fresh',
      answerAfter g past k (.expand fresh) = some (f.answer (.expand fresh')) ∧
      answerAfter g past k (.expandText fresh) = some (f.answer (.expandText fresh')) := by
  obtain ⟨e, hfits, hanswer⟩ := exists_answerAfter_eq (g := g) h
  obtain ⟨f, hf, hgrammar, hseed, hcalls⟩ := exists_new? g (.fixed v)
  refine ⟨f, hf, fun fresh fresh' => ?_⟩
  have hword : (e.expand fresh).1 = (f.expand fresh').1 := by
    refine expand_fst_congr (hfits.grammar.trans hgrammar.symm) ?_
    rw [hfits.seed, hfits.calls, hseed]
    exact hv fresh
  rw [hanswer, hanswer]
  constructor
  · exact congrArg (fun w => some (Answer.word w)) hword
  · exact congrArg (fun w => some (Answer.text (Word.render w))) hword

/-- What the engines of one grammar answer, whatever was done with all of them before. The
expansion with the number `j` of an engine with a seed per call is the first one of a new engine
with the fixed seed `v + j`, in the arithmetic of 64-bit words; with a fixed seed, every expansion
is the first one. Calls with a generator of their own, of any type, answer as they do on any engine
of the grammar, and an operation that does not expand an engine can be left out of a history without
a change to what this engine answers from then on: so neither those calls nor operations on other
engines matter. -/
theorem expansion_series (g : Grammar) (past : List Operation) (k j : ℕ) :
    (∀ v, (tally past)[k]? = some (.perCall v, j) →
      ∃ f, new? g (.fixed (v + j.toUInt64)) = .ok f ∧ ∀ fresh fresh',
        answerAfter g past k (.expand fresh) = some (f.answer (.expand fresh')) ∧
        answerAfter g past k (.expandText fresh) = some (f.answer (.expandText fresh'))) ∧
    (∀ v, (tally past)[k]? = some (.fixed v, j) →
      ∃ f, new? g (.fixed v) = .ok f ∧ ∀ fresh fresh',
        answerAfter g past k (.expand fresh) = some (f.answer (.expand fresh')) ∧
        answerAfter g past k (.expandText fresh) = some (f.answer (.expandText fresh'))) ∧
    (∀ seed, (tally past)[k]? = some (seed, j) →
      answerAfter g past k .grammar = some (.grammar g) ∧
      answerAfter g past k .seed = some (.seed seed) ∧
      ∀ seed' f, new? g seed' = .ok f → ∀ {ρ : Type} [RandomBits ρ] (rng : ρ),
        answerAfter g past k (.expandWith rng) = some (f.answer (.expandWith rng)) ∧
        ∀ w, answerAfter g past k (.derive w rng) = some (f.answer (.derive w rng))) ∧
    (k < (tally past).length → ∀ middle later,
      (∀ c, .call k c ∈ middle → c.counts = false) → ∀ c,
        answerAfter g (past ++ middle ++ later) k c = answerAfter g (past ++ later) k c) := by
  refine ⟨fun v h => ?_, fun v h => ?_, fun seed h => ?_, fun hk middle later hmiddle c => ?_⟩
  · exact answerAfter_expand h fun _ => rfl
  · exact answerAfter_expand h fun _ => rfl
  · obtain ⟨e, hfits, hanswer⟩ := exists_answerAfter_eq (g := g) h
    rw [hanswer, hanswer]
    refine ⟨congrArg (fun g => some (Answer.grammar g)) hfits.grammar,
      congrArg (fun seed => some (Answer.seed seed)) hfits.seed, fun seed' f hf ρ _ rng => ?_⟩
    rw [hanswer]
    obtain ⟨f', hf', hgrammar, -⟩ := exists_new? g seed'
    obtain rfl : f' = f := Except.ok.inj (hf'.symm.trans hf)
    have hsame : e.grammar = f'.grammar := hfits.grammar.trans hgrammar.symm
    refine ⟨by rw [answer, answer, expandWith_congr hsame], fun w => ?_⟩
    rw [hanswer, answer, answer, derive_congr hsame]
  · rw [← (fits_family g past).length_eq] at hk
    unfold answerAfter
    rw [getElem?_family_leave_out g hk hmiddle]

/-- Two expansions count for a clone, one of its parent and one of its own. Its next one is the first
of a new engine with the fixed seed `5 + 2`. -/
theorem expansion_series_clone :
    ∃ f, new? interleavedGrammar (.fixed 7) = .ok f ∧
      answerAfter interleavedGrammar [.make (.perCall 5), .call 0 (.expand (.ofSeed 1)), .clone 0,
        .call 1 (.expandText (.ofSeed 1)), .call 0 (.expandWith (Generator.ofSeed 1))] 1
        (.expand (.ofSeed 1)) = some (f.answer (.expand (.ofSeed 2))) := by
  have hseries := expansion_series interleavedGrammar [.make (.perCall 5),
    .call 0 (.expand (.ofSeed 1)), .clone 0, .call 1 (.expandText (.ofSeed 1)),
    .call 0 (.expandWith (Generator.ofSeed 1))] 1 2
  obtain ⟨f, hf, hanswer⟩ := hseries.1 5 rfl
  exact ⟨f, hf, (hanswer _ _).1⟩

end Engine

end GrowthGrammar
