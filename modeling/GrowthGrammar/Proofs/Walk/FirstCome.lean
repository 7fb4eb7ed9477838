import GrowthGrammar.Proofs.Walk.Registry
import GrowthGrammar.Proofs.Walk.Verdict
import GrowthGrammar.Proofs.Word.Sorted

/-!
# First come, first served

Instructions are offered to a table one after the other. `InstructionTable.answers` is what their
callers are told, and `InstructionTable.afterAll` the table in the end; an instruction that is
refused leaves the table as it was. What a table has become is said by the first instruction that
was offered for each symbol (`InstructionTable.Serves`), which every offer preserves.
`InstructionTable.first_come` draws the conclusions for the answers, for everything that can be
asked of the table, and for the walks that use it.
-/

namespace GrowthGrammar

variable {ρ S : Type}

namespace InstructionTable

/-! ## Offers -/

/-- What the caller is told who offers an instruction. -/
def answer (t : InstructionTable ρ S) (i : Instruction ρ S) : Except InstructionError Unit :=
  (t.offer i).1

/-- The table that is there after an instruction was offered to it. -/
def after (t : InstructionTable ρ S) (i : Instruction ρ S) : InstructionTable ρ S := (t.offer i).2

/-- The table after instructions were offered in their order. -/
def afterAll (t : InstructionTable ρ S) (offered : List (Instruction ρ S)) :
    InstructionTable ρ S :=
  offered.foldl after t

/-- What the callers are told who offer instructions in their order. -/
def answers (t : InstructionTable ρ S) :
    List (Instruction ρ S) → List (Except InstructionError Unit)
  | [] => []
  | i :: offered => t.answer i :: (t.after i).answers offered

/-- The answer to a call comes from the table that the calls before it have left. -/
theorem getElem?_answers (t : InstructionTable ρ S) (offered : List (Instruction ρ S)) (k : ℕ) :
    (t.answers offered)[k]? = offered[k]?.map (t.afterAll (offered.take k)).answer := by
  induction offered generalizing t k with
  | nil => rfl
  | cons i offered ih =>
    cases k with
    | zero => rfl
    | succ k => exact ih (t.after i) k

theorem afterAll_take_succ {t : InstructionTable ρ S} {offered : List (Instruction ρ S)} {k : ℕ}
    {i : Instruction ρ S} (hi : offered[k]? = some i) :
    t.afterAll (offered.take (k + 1)) = (t.afterAll (offered.take k)).after i := by
  rw [List.take_add_one, hi, afterAll, List.foldl_append]
  rfl

/-- An offer is refused because its symbol is a marker or because it is claimed; otherwise the
symbol is claimed now, and the other symbols keep what they have. -/
theorem offer_cases (t : InstructionTable ρ S) (i : Instruction ρ S) :
    (Symbol.isMarker i.symbol = true ∧ t.offer i = (.error (.reservedSymbol i.symbol), t)) ∨
    (Symbol.isMarker i.symbol = false ∧ t.instructions[i.symbol]? ≠ none ∧
      t.offer i = (.error (.duplicateSymbol i.symbol), t)) ∨
    (Symbol.isMarker i.symbol = false ∧ t.instructions[i.symbol]? = none ∧
      ∃ next, t.offer i = (.ok (), next) ∧
        ∀ c, next.instructions[c]? = if i.symbol == c then some i else t.instructions[c]?) := by
  cases hmarker : Symbol.isMarker i.symbol with
  | true => exact .inl ⟨rfl, by rw [offer, if_pos hmarker]⟩
  | false =>
    by_cases hfree : t.instructions[i.symbol]? = none
    · exact .inr (.inr ⟨rfl, hfree, exists_offer hmarker hfree⟩)
    · have hcontains : t.contains i.symbol = true := by
        rw [contains, Std.HashMap.contains_eq_isSome_getElem?]
        exact Option.isSome_iff_ne_none.2 hfree
      refine .inr (.inl ⟨rfl, hfree, ?_⟩)
      rw [offer, if_neg (Bool.eq_false_iff.1 hmarker), if_pos hcontains]

/-! ## The first offer for a symbol -/

/-- The first instruction that is offered for a symbol. A branch marker has none. -/
def firstFor? (offered : List (Instruction ρ S)) (c : Symbol) : Option (Instruction ρ S) :=
  if Symbol.isMarker c then none else offered.find? (·.symbol == c)

theorem firstFor?_append (offered more : List (Instruction ρ S)) (c : Symbol) :
    firstFor? (offered ++ more) c = (firstFor? offered c).or (firstFor? more c) := by
  unfold firstFor?
  split
  · rfl
  · exact List.find?_append

theorem firstFor?_singleton_self {i : Instruction ρ S} (hi : Symbol.isMarker i.symbol = false) :
    firstFor? [i] i.symbol = some i := by
  rw [firstFor?, if_neg (Bool.eq_false_iff.1 hi), List.find?_cons, beq_self_eq_true]

theorem firstFor?_singleton_of_ne {i : Instruction ρ S} {c : Symbol} (hi : i.symbol ≠ c) :
    firstFor? [i] c = none := by
  unfold firstFor?
  split
  · rfl
  · exact List.find?_cons_of_neg (mt eq_of_beq hi)

theorem firstFor?_singleton_eq_none_iff {i : Instruction ρ S} {c : Symbol} :
    firstFor? [i] c = none ↔ (i.symbol = c → Symbol.isMarker c = true) := by
  by_cases hc : Symbol.isMarker c = true <;> simp [firstFor?, hc]

/-- The first instruction that is offered for a symbol has that symbol, which is no marker. -/
theorem symbol_of_firstFor? {offered : List (Instruction ρ S)} {c : Symbol} {i : Instruction ρ S}
    (h : firstFor? offered c = some i) : i.symbol = c ∧ Symbol.isMarker c = false := by
  unfold firstFor? at h
  split at h
  · cases h
  · next hc =>
    have hsymbol := List.find?_some h
    exact ⟨eq_of_beq hsymbol, Bool.eq_false_iff.2 hc⟩

/-- The table holds for every symbol the first instruction that was offered for it. -/
def Serves (t : InstructionTable ρ S) (offered : List (Instruction ρ S)) : Prop :=
  ∀ c, t.instructions[c]? = firstFor? offered c

theorem serves_empty : (empty : InstructionTable ρ S).Serves [] := by
  intro c
  rw [empty, Std.HashMap.getElem?_empty, firstFor?]
  split <;> rfl

namespace Serves

variable {t : InstructionTable ρ S} {offered : List (Instruction ρ S)} (h : t.Serves offered)

include h

/-- One more offer is the first one for its symbol, or it changes nothing. -/
theorem after (i : Instruction ρ S) : (t.after i).Serves (offered ++ [i]) := by
  intro c
  rw [firstFor?_append]
  obtain ⟨hmarker, hanswer⟩ | ⟨-, hclaimed, hanswer⟩ | ⟨hmarker, hfree, next, hanswer, hnext⟩ :=
    t.offer_cases i
  · have hnone : firstFor? [i] c = none := by
      by_cases hc : i.symbol = c
      · rw [← hc, firstFor?, if_pos hmarker]
      · exact firstFor?_singleton_of_ne hc
    rw [InstructionTable.after, hanswer, hnone, Option.or_none]
    exact h c
  · rw [InstructionTable.after, hanswer]
    refine (h c).trans ?_
    by_cases hc : i.symbol = c
    · rw [h, hc] at hclaimed
      obtain ⟨j, hj⟩ := Option.ne_none_iff_exists'.1 hclaimed
      rw [hj, Option.some_or]
    · rw [firstFor?_singleton_of_ne hc, Option.or_none]
  · rw [InstructionTable.after, hanswer]
    refine (hnext c).trans ?_
    by_cases hc : i.symbol = c
    · subst hc
      rw [h] at hfree
      rw [if_pos (beq_self_eq_true _), hfree, Option.none_or, firstFor?_singleton_self hmarker]
    · rw [if_neg (mt eq_of_beq hc), firstFor?_singleton_of_ne hc, Option.or_none]
      exact h c

theorem afterAll (more : List (Instruction ρ S)) : (t.afterAll more).Serves (offered ++ more) := by
  induction more generalizing t offered with
  | nil => rwa [List.append_nil]
  | cons i more ih =>
    have hrest := ih (h.after i)
    rwa [List.append_assoc] at hrest

theorem lookup_eq (c : Symbol) :
    t.lookup c = (firstFor? offered c).elim (.inert c) .registered := by
  rw [lookup, h]
  cases firstFor? offered c <;> rfl

/-- A symbol is claimed if an instruction was offered for it. -/
theorem contains_iff {c : Symbol} : t.contains c = true ↔ firstFor? offered c ≠ none := by
  rw [contains, Std.HashMap.contains_eq_isSome_getElem?, h, Option.isSome_iff_ne_none]

end Serves

/-- A new table serves whoever comes first. -/
theorem serves (offered : List (Instruction ρ S)) : (empty.afterAll offered).Serves offered :=
  serves_empty.afterAll offered

/-! ## Claims -/

/-- The call with number `k` has claimed a symbol: it has offered an instruction for it, and the
instruction was taken. -/
def Claims (offered : List (Instruction ρ S)) (k : ℕ) (c : Symbol) : Prop :=
  ∃ i, offered[k]? = some i ∧ i.symbol = c ∧ (empty.answers offered)[k]? = some (.ok ())

section
variable {offered : List (Instruction ρ S)} {k : ℕ} {c : Symbol} {i : Instruction ρ S}

theorem answers_of_marker (hi : offered[k]? = some i) (hmarker : Symbol.isMarker i.symbol = true) :
    (empty.answers offered)[k]? = some (.error (.reservedSymbol i.symbol)) := by
  rw [getElem?_answers, hi, Option.map_some, answer, offer, if_pos hmarker]

theorem answers_of_claimed (hi : offered[k]? = some i) (hmarker : Symbol.isMarker i.symbol = false)
    (hclaimed : firstFor? (offered.take k) i.symbol ≠ none) :
    (empty.answers offered)[k]? = some (.error (.duplicateSymbol i.symbol)) := by
  have hcontains := (serves (offered.take k)).contains_iff.2 hclaimed
  rw [getElem?_answers, hi, Option.map_some, answer, offer,
    if_neg (Bool.eq_false_iff.1 hmarker), if_pos hcontains]

theorem answers_of_free (hi : offered[k]? = some i) (hmarker : Symbol.isMarker i.symbol = false)
    (hfree : firstFor? (offered.take k) i.symbol = none) :
    (empty.answers offered)[k]? = some (.ok ()) := by
  have hget := (serves (offered.take k) i.symbol).trans hfree
  obtain ⟨next, hnext, -⟩ := exists_offer hmarker hget
  rw [getElem?_answers, hi, Option.map_some, answer, hnext]

/-- A call claims a symbol that is no marker if no call before it has offered an instruction for
it. -/
theorem claims_iff :
    Claims offered k c ↔ ∃ i, offered[k]? = some i ∧ i.symbol = c ∧ Symbol.isMarker c = false ∧
      firstFor? (offered.take k) c = none := by
  refine exists_congr fun i => and_congr_right fun hi => ?_
  constructor
  · rintro ⟨rfl, hok⟩
    have hmarker : Symbol.isMarker i.symbol = false := Bool.eq_false_iff.2 fun hmarker => by
      rw [answers_of_marker hi hmarker] at hok
      cases hok
    refine ⟨rfl, hmarker, by_contra fun hclaimed => ?_⟩
    rw [answers_of_claimed hi hmarker hclaimed] at hok
    cases hok
  · rintro ⟨rfl, hmarker, hfree⟩
    exact ⟨rfl, answers_of_free hi hmarker hfree⟩

/-- With one call more the claimed symbols are those of the calls before it and the one that it
claims itself. -/
theorem firstFor?_take_succ_ne_none_iff :
    firstFor? (offered.take (k + 1)) c ≠ none ↔
      firstFor? (offered.take k) c ≠ none ∨ Claims offered k c := by
  rw [List.take_add_one, firstFor?_append, ne_eq, Option.or_eq_none_iff, not_and_or]
  by_cases hfree : firstFor? (offered.take k) c = none
  · refine or_congr_right ?_
    rw [claims_iff]
    cases hi : offered[k]? with
    | none => simp [firstFor?]
    | some i => simp [firstFor?_singleton_eq_none_iff, hfree]
  · exact iff_of_true (.inl hfree) (.inl hfree)

/-- Calls have claimed the symbols that instructions were offered for. -/
theorem exists_claims_lt_iff :
    (∃ j < k, Claims offered j c) ↔ firstFor? (offered.take k) c ≠ none := by
  induction k with
  | zero => simp [firstFor?]
  | succ k ih => rw [firstFor?_take_succ_ne_none_iff, ← ih, Nat.exists_lt_succ_right]

theorem exists_claims_iff : (∃ k, Claims offered k c) ↔ firstFor? offered c ≠ none := by
  have hlt : (∃ k < offered.length, Claims offered k c) ↔ firstFor? offered c ≠ none := by
    rw [exists_claims_lt_iff, List.take_length]
  rw [← hlt]
  refine exists_congr fun k => ⟨fun hclaims => ⟨?_, hclaims⟩, And.right⟩
  obtain ⟨i, hi, -⟩ := hclaims
  exact (List.getElem?_eq_some_iff.1 hi).1

/-- A refused call leaves the table as it was. -/
theorem afterAll_take_succ_of_error {e : InstructionError}
    (he : (empty.answers offered)[k]? = some (.error e)) :
    empty.afterAll (offered.take (k + 1)) = empty.afterAll (offered.take k) := by
  rw [getElem?_answers] at he
  obtain ⟨i, hi, hanswer⟩ := Option.map_eq_some_iff.1 he
  rw [afterAll_take_succ hi, InstructionTable.after]
  rw [answer] at hanswer
  obtain ⟨-, hoffer⟩ | ⟨-, -, hoffer⟩ | ⟨-, -, next, hoffer, -⟩ :=
    (empty.afterAll (offered.take k)).offer_cases i
  · rw [hoffer]
  · rw [hoffer]
  · rw [hoffer] at hanswer
    cases hanswer

end

/-! ## The symbols of a table -/

section
variable (t : InstructionTable ρ S)

theorem pairwise_lt_symbols : t.symbols.Pairwise (· < ·) :=
  Word.pairwise_lt_sorted Std.HashMap.nodup_keys

theorem length_symbols : t.symbols.length = t.size := by
  rw [symbols, Word.length_sorted, Std.HashMap.length_keys, size]

theorem mem_symbols {c : Symbol} : c ∈ t.symbols ↔ t.contains c = true := by
  rw [symbols, Word.mem_sorted, Std.HashMap.mem_keys, Std.HashMap.mem_iff_contains, contains]

end

end InstructionTable

/-! ## Walks with the same instructions -/

section
variable {t t' : InstructionTable ρ S} (h : ∀ c, t.lookup c = t'.lookup c)

include h

theorem Walker.advance_congr (m : Walker ρ S) (c : Symbol) : m.advance t c = m.advance t' c := by
  rw [advance, advance, h]

/-- Tables that hold the same for every symbol are walked with in the same way. -/
theorem walkFrom_congr {α : Type} (record : Walker ρ S → Visit S → α) (m : Walker ρ S)
    (position : ℕ) (recorded : List α) (w : Word) :
    walkFrom record t m position recorded w = walkFrom record t' m position recorded w := by
  induction w using Word.markerInduction generalizing m position recorded with
  | nil => rfl
  | opening w ih => exact ih ..
  | closing w ih =>
    cases hstack : m.stack with
    | nil =>
      rw [walkFrom_closing_of_stack_nil _ _ _ _ _ hstack,
        walkFrom_closing_of_stack_nil _ _ _ _ _ hstack]
    | cons saved stack =>
      rw [walkFrom_closing_of_stack_cons _ _ _ _ _ hstack,
        walkFrom_closing_of_stack_cons _ _ _ _ _ hstack, ih]
  | symbol c w hc ih =>
    rw [walkFrom_symbol _ _ _ _ _ hc, walkFrom_symbol _ _ _ _ _ hc, Walker.visit, Walker.visit,
      Walker.advance_congr h, ih]

end

namespace InstructionTable

/-! ## First come, first served -/

/-- What can be seen of the calls that offer some instructions to a new table, and of the table that
they leave. -/
structure FirstCome (offered : List (Instruction ρ S)) : Prop where
  /-- An instruction for a branch marker is refused. -/
  reserved : ∀ (k : ℕ) (i : Instruction ρ S), offered[k]? = some i →
    Symbol.isMarker i.symbol = true →
      (empty.answers offered)[k]? = some (.error (.reservedSymbol i.symbol))
  /-- So is an instruction for a symbol that a call before has claimed. -/
  duplicate : ∀ (k : ℕ) (i : Instruction ρ S), offered[k]? = some i →
    Symbol.isMarker i.symbol = false → (∃ j < k, Claims offered j i.symbol) →
      (empty.answers offered)[k]? = some (.error (.duplicateSymbol i.symbol))
  /-- Every other instruction is taken. -/
  taken : ∀ (k : ℕ) (i : Instruction ρ S), offered[k]? = some i →
    Symbol.isMarker i.symbol = false → (¬∃ j < k, Claims offered j i.symbol) →
      (empty.answers offered)[k]? = some (.ok ())
  /-- A call that fails changes nothing of what can be asked of the table. -/
  refused : ∀ (k : ℕ) (e : InstructionError), (empty.answers offered)[k]? = some (.error e) →
    empty.afterAll (offered.take (k + 1)) = empty.afterAll (offered.take k)
  /-- The first instruction for a symbol is the one that is run. -/
  registered : ∀ c i, firstFor? offered c = some i →
    ((empty.afterAll offered).lookup c).instruction = i
  /-- A symbol without an instruction is inert, and running it changes nothing. -/
  inert : ∀ c, firstFor? offered c = none →
    ((empty.afterAll offered).lookup c).instruction = .inert c
  isInert : ∀ c, ((empty.afterAll offered).lookup c).isInert = true ↔ firstFor? offered c = none
  /-- What is found for a symbol belongs to it. -/
  symbol : ∀ c, ((empty.afterAll offered).lookup c).instruction.symbol = c
  contains : ∀ c, (empty.afterAll offered).contains c = true ↔ ∃ k, Claims offered k c
  /-- The symbols are listed in the order of their code points, each of them once. -/
  increasing : (empty.afterAll offered).symbols.Pairwise (· < ·)
  length : (empty.afterAll offered).symbols.length = (empty.afterAll offered).size
  mem_symbols : ∀ c, c ∈ (empty.afterAll offered).symbols ↔ ∃ k, Claims offered k c

theorem firstCome (offered : List (Instruction ρ S)) : FirstCome offered where
  reserved _ _ := answers_of_marker
  duplicate _ _ hi hmarker hclaimed :=
    answers_of_claimed hi hmarker (exists_claims_lt_iff.1 hclaimed)
  taken _ _ hi hmarker hfree :=
    answers_of_free hi hmarker (not_not.1 (mt exists_claims_lt_iff.2 hfree))
  refused _ _ := afterAll_take_succ_of_error
  registered c i hi := by rw [(serves offered).lookup_eq, hi]; rfl
  inert c hc := by rw [(serves offered).lookup_eq, hc]; rfl
  isInert c := by
    rw [(serves offered).lookup_eq]
    cases firstFor? offered c <;> simp [Lookup.isInert]
  symbol c := by
    rw [(serves offered).lookup_eq]
    cases hi : firstFor? offered c with
    | none => rfl
    | some i => exact (symbol_of_firstFor? hi).1
  contains c := (serves offered).contains_iff.trans exists_claims_iff.symm
  increasing := pairwise_lt_symbols _
  length := length_symbols _
  mem_symbols c :=
    (InstructionTable.mem_symbols _).trans
      ((serves offered).contains_iff.trans exists_claims_iff.symm)

/-- Tables that were offered the same first instruction for every symbol hold the same for it. -/
theorem lookup_afterAll_congr {is js : List (Instruction ρ S)}
    (h : ∀ c, firstFor? is c = firstFor? js c) (c : Symbol) :
    (empty.afterAll is).lookup c = (empty.afterAll js).lookup c := by
  rw [(serves is).lookup_eq, (serves js).lookup_eq, h]

/-- Instructions are served first come, first served, and only who comes first for each symbol
matters to a walk. -/
theorem first_come :
    (∀ offered : List (Instruction ρ S), FirstCome offered) ∧
    ∀ is js : List (Instruction ρ S), (∀ c, firstFor? is c = firstFor? js c) →
      ∀ (α : Type) (record : Walker ρ S → Visit S → α) (initial : Context S)
        (streams : Streams ρ) (w : Word),
        walk record (empty.afterAll is) initial streams w =
          walk record (empty.afterAll js) initial streams w :=
  ⟨firstCome, fun _ _ h _ record _ _ w =>
    walkFrom_congr (lookup_afterAll_congr h) record _ 0 [] w⟩

/-- An instruction that counts its visits. -/
def counting : Instruction Unit ℕ :=
  ⟨'S', fun context _ => pure (context.withState (context.state + 1))⟩

/-- An instruction for the same symbol that doubles the state. -/
def doubling : Instruction Unit ℕ :=
  ⟨'S', fun context _ => pure (context.withState (context.state * 2))⟩

/-- Four calls. The second one offers a branch marker, the last one comes too late. -/
def disputed : List (Instruction Unit ℕ) := [counting, .inert '[', .inert 'T', doubling]

/-- The instruction that comes too late is refused and is never run, and a walk is the same as if
it had not been offered. -/
theorem first_come_of_refused :
    (empty.answers disputed)[3]? = some (.error (.duplicateSymbol 'S')) ∧
    ((empty.afterAll disputed).lookup 'S').instruction = counting ∧
    walk (fun _ visit => visit.state) (empty.afterAll disputed) ⟨0, 0⟩ (.single ()) "S[S]S".toList =
      walk (fun _ visit => visit.state) (empty.afterAll [.inert 'T', counting]) ⟨0, 0⟩ (.single ())
        "S[S]S".toList := by
  have hclaims : Claims disputed 0 'S' := claims_iff.2 ⟨counting, rfl, rfl, rfl, rfl⟩
  have hsame : ∀ c, firstFor? disputed c = firstFor? [.inert 'T', counting] c := by
    intro c
    by_cases hmarker : Symbol.isMarker c = true
    · rw [firstFor?, firstFor?, if_pos hmarker, if_pos hmarker]
    by_cases hS : c = 'S'
    · subst hS
      rfl
    by_cases hT : c = 'T'
    · subst hT
      rfl
    have hopening : c ≠ '[' := Symbol.ne_opening (Bool.eq_false_iff.2 hmarker)
    simp [firstFor?, disputed, counting, doubling, Instruction.inert, hmarker, Ne.symm hS,
      Ne.symm hT, hopening.symm]
  obtain ⟨hfirst, hwalk⟩ := first_come (ρ := Unit) (S := ℕ)
  have hcalls := hfirst disputed
  exact ⟨hcalls.duplicate 3 doubling rfl rfl ⟨0, Nat.zero_lt_succ 2, hclaims⟩,
    hcalls.registered 'S' counting rfl, hwalk _ _ hsame ..⟩

end InstructionTable

end GrowthGrammar
