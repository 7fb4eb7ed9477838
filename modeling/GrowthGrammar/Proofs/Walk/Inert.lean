import GrowthGrammar.Proofs.Walk.Stack

/-!
# Inert symbols

A symbol that is no marker and that no instruction claims is visited and leaves the walker just as
it was (`Walker.advance_of_unclaimed`). So it can be left out of a word:
`InstructionTable.essential` is the word without such symbols, and `InstructionTable.place` the
number that a position of the word has in it. `walkFrom_essential` runs both walks side by side, on
the same walker all the time, and `inert_symbols_change_nothing` says what this means for their
results and for their streams.
-/

namespace GrowthGrammar

variable {ρ S : Type} {table : InstructionTable ρ S}

/-! ## The word without inert symbols -/

namespace InstructionTable

/-- Whether a walk does more at the symbol than to visit it: it is a marker, or an instruction
claims it. -/
def heeds (t : InstructionTable ρ S) (c : Symbol) : Bool := Symbol.isMarker c || t.contains c

/-- The word without the symbols that are inert. -/
def essential (t : InstructionTable ρ S) (w : Word) : Word := w.filter t.heeds

/-- Where the symbol at a position of the word stands in the word without inert symbols: behind
those that stand before it and are not inert. -/
def place (t : InstructionTable ρ S) (w : Word) (position : Nat) : Nat :=
  (t.essential (w.take position)).length

theorem heeds_of_isMarker {c : Symbol} (h : Symbol.isMarker c = true) : table.heeds c = true := by
  rw [heeds, h, Bool.true_or]

theorem heeds_of_symbol {c : Symbol} (h : Symbol.isMarker c = false) :
    table.heeds c = table.contains c := by
  rw [heeds, h, Bool.false_or]

theorem essential_cons_of_heeds {c : Symbol} (h : table.heeds c = true) (w : Word) :
    table.essential (c :: w) = c :: table.essential w := List.filter_cons_of_pos h

theorem essential_cons_of_not_heeds {c : Symbol} (h : table.heeds c = false) (w : Word) :
    table.essential (c :: w) = table.essential w :=
  List.filter_cons_of_neg (Bool.not_eq_true _ ▸ h)

theorem place_cons_succ_of_heeds {c : Symbol} (h : table.heeds c = true) (w : Word) (i : Nat) :
    table.place (c :: w) (i + 1) = table.place w i + 1 := by
  rw [place, List.take_succ_cons, essential_cons_of_heeds h, List.length_cons, place]

theorem place_cons_succ_of_not_heeds {c : Symbol} (h : table.heeds c = false) (w : Word) (i : Nat) :
    table.place (c :: w) (i + 1) = table.place w i := by
  rw [place, List.take_succ_cons, essential_cons_of_not_heeds h, place]

/-- A symbol that is not inert stands at its place. -/
theorem getElem?_place {w : Word} {p : Nat} {c : Symbol} (hp : w[p]? = some c)
    (hc : table.heeds c = true) : (table.essential w)[table.place w p]? = some c := by
  obtain ⟨hlt, rfl⟩ := List.getElem?_eq_some_iff.1 hp
  have hw : w.take p ++ w[p] :: w.drop (p + 1) = w := by
    rw [← List.drop_eq_getElem_cons hlt, List.take_append_drop]
  have hessential : table.essential w =
      table.essential (w.take p) ++ w[p] :: table.essential (w.drop (p + 1)) := by
    rw [← essential_cons_of_heeds hc, essential, essential, essential, ← List.filter_append, hw]
  rw [hessential, place, List.getElem?_append_right (Nat.le_refl _), Nat.sub_self]
  rfl

/-- Nobody claims the symbol, so its instruction is the inert one. -/
theorem lookup_of_unclaimed {c : Symbol} (h : table.contains c = false) :
    table.lookup c = .inert c := by
  rw [contains, Std.HashMap.contains_eq_isSome_getElem?, Option.isSome_eq_false_iff,
    Option.isNone_iff_eq_none] at h
  rw [lookup, h]

end InstructionTable

/-- An inert symbol leaves the walker as it was: the current context, the saved ones and the
streams. -/
theorem Walker.advance_of_unclaimed {c : Symbol} (h : table.contains c = false)
    (m : Walker ρ S) : m.advance table c = m := by
  rw [advance, InstructionTable.lookup_of_unclaimed h]
  rfl

/-! ## The two walks side by side -/

/-- The visit at another position. -/
def Visit.movedBy (f : Nat → Nat) (v : Visit S) : Visit S := { v with position := f v.position }

/-- The error at another position, if it has one. -/
def EvalError.movedBy (f : Nat → Nat) : EvalError → EvalError
  | .unbalancedBranch position => .unbalancedBranch (f position)
  | .unclosedBranch depth => .unclosedBranch depth

namespace InstructionTable

/-- The visits of claimed symbols, at other positions. -/
def claimedVisits (t : InstructionTable ρ S) (f : Nat → Nat) (visits : List (Visit S)) :
    List (Visit S) :=
  (visits.filter fun v => t.contains v.symbol).map (Visit.movedBy f)

/-- The outcome of a walk with the visits of claimed symbols only, and with other positions. -/
def claimedOutcome (t : InstructionTable ρ S) (f : Nat → Nat)
    (o : Outcome ρ (List (Visit S))) : Outcome ρ (List (Visit S)) :=
  ⟨match o.result with
    | .ok visits => .ok (t.claimedVisits f visits)
    | .error e => .error (e.movedBy f), o.streams⟩

theorem claimedVisits_cons_of_claimed {v : Visit S} (h : table.contains v.symbol = true)
    (f : Nat → Nat) (visits : List (Visit S)) :
    table.claimedVisits f (v :: visits) = v.movedBy f :: table.claimedVisits f visits := by
  simp [claimedVisits, h]

theorem claimedVisits_cons_of_unclaimed {v : Visit S} (h : table.contains v.symbol = false)
    (f : Nat → Nat) (visits : List (Visit S)) :
    table.claimedVisits f (v :: visits) = table.claimedVisits f visits := by
  simp [claimedVisits, h]

theorem claimedVisits_reverse (f : Nat → Nat) (visits : List (Visit S)) :
    (table.claimedVisits f visits).reverse = table.claimedVisits f visits.reverse := by
  simp [claimedVisits]

end InstructionTable

/-- Further positions in the word, counted from `p`, are taken by `f` to their places in the word
without inert symbols, counted from `q`. -/
def InstructionTable.Places (t : InstructionTable ρ S) (f : Nat → Nat) (p q : Nat) (w : Word) :
    Prop :=
  ∀ i, f (p + i) = q + t.place w i

section
open InstructionTable

variable {f : Nat → Nat} {p q : Nat} {c : Symbol} {w : Word}

/-- Behind a symbol that is kept, the places count from the next one on. -/
theorem InstructionTable.Places.of_heeds (h : table.Places f p q (c :: w))
    (hc : table.heeds c = true) : table.Places f (p + 1) (q + 1) w := by
  intro i
  have hi := h (i + 1)
  rw [place_cons_succ_of_heeds hc] at hi
  rw [Nat.add_assoc, Nat.add_comm 1, hi]
  omega

/-- Behind an inert symbol, they count from the same one on. -/
theorem InstructionTable.Places.of_not_heeds (h : table.Places f p q (c :: w))
    (hc : table.heeds c = false) : table.Places f (p + 1) q w := by
  intro i
  have hi := h (i + 1)
  rw [place_cons_succ_of_not_heeds hc] at hi
  rw [Nat.add_assoc, Nat.add_comm 1, hi]

/-- A walk of a word without its inert symbols goes as the walk of the word. The induction is on the
word; the walker is the same on both sides all the time. -/
theorem walkFrom_essential (h : table.Places f p q w) (m : Walker ρ S)
    (recorded : List (Visit S)) :
    walkFrom (fun _ visit => visit) table m q (table.claimedVisits f recorded)
        (table.essential w) =
      table.claimedOutcome f (walkFrom (fun _ visit => visit) table m p recorded w) := by
  have hzero : f p = q := h 0
  induction w using Word.markerInduction generalizing m p q recorded with
  | nil =>
    cases hstack : m.stack with
    | nil =>
      rw [walkFrom_nil_of_stack_nil _ _ _ _ _ hstack]
      refine (walkFrom_nil_of_stack_nil _ _ _ _ _ hstack).trans ?_
      rw [claimedVisits_reverse]
      rfl
    | cons saved stack =>
      rw [walkFrom_nil_of_stack_cons _ _ _ _ _ hstack]
      exact walkFrom_nil_of_stack_cons _ _ _ _ _ hstack
  | opening w ih =>
    have hopening : table.heeds Symbol.opening = true := heeds_of_isMarker rfl
    have hnext := h.of_heeds hopening
    rw [essential_cons_of_heeds hopening, walkFrom_opening, walkFrom_opening]
    exact ih hnext m.save recorded (hnext 0)
  | closing w ih =>
    have hclosing : table.heeds Symbol.closing = true := heeds_of_isMarker rfl
    have hnext := h.of_heeds hclosing
    rw [essential_cons_of_heeds hclosing]
    cases hstack : m.stack with
    | nil =>
      rw [walkFrom_closing_of_stack_nil _ _ _ _ _ hstack,
        walkFrom_closing_of_stack_nil _ _ _ _ _ hstack, ← hzero]
      rfl
    | cons saved stack =>
      rw [walkFrom_closing_of_stack_cons _ _ _ _ _ hstack,
        walkFrom_closing_of_stack_cons _ _ _ _ _ hstack]
      exact ih hnext _ recorded (hnext 0)
  | symbol c w hc ih =>
    rw [walkFrom_symbol _ _ _ _ _ hc]
    cases hclaimed : table.contains c with
    | true =>
      have hheeds := (heeds_of_symbol hc).trans hclaimed
      have hnext := h.of_heeds hheeds
      have hvisit : m.visit table q c = (m.visit table p c).movedBy f := by
        rw [← hzero]
        rfl
      rw [essential_cons_of_heeds hheeds, walkFrom_symbol _ _ _ _ _ hc, hvisit,
        ← claimedVisits_cons_of_claimed hclaimed]
      exact ih hnext _ _ (hnext 0)
    | false =>
      have hnot := (heeds_of_symbol hc).trans hclaimed
      have hnext := h.of_not_heeds hnot
      rw [essential_cons_of_not_heeds hnot, Walker.advance_of_unclaimed hclaimed,
        ← claimedVisits_cons_of_unclaimed (v := m.visit table p c) hclaimed]
      exact ih hnext m _ (hnext 0)

end

/-- A walk of a word without its inert symbols visits the same symbols, at the same depths, with the
same states, at their places in that word, or fails in the same way, and leaves the same streams. -/
theorem trace_essential (table : InstructionTable ρ S) (initial : Context S) (streams : Streams ρ)
    (w : Word) :
    trace table initial streams (table.essential w) =
      table.claimedOutcome (table.place w) (trace table initial streams w) :=
  walkFrom_essential (f := table.place w) (p := 0) (q := 0)
    (fun i => by rw [Nat.zero_add, Nat.zero_add]) (.start initial streams) []

/-- A visit of an inert symbol carries the state that was current where the walk came to it. -/
theorem currentAt?_of_unclaimed {initial : Context S} {streams : Streams ρ} {w : Word}
    {visits : List (Visit S)} (hvisits : (trace table initial streams w).result = .ok visits)
    {v : Visit S} (hv : v ∈ visits) (h : table.contains v.symbol = false) :
    ((Walker.start initial streams).currentAt? table w v.position).map (·.state) =
      some v.state := by
  obtain ⟨-, rfl⟩ := calls_of_trace_eq_ok hvisits
  obtain ⟨i, c, m, -, -, hthrough, rfl⟩ := (Walker.mem_visits_iff ..).1 hv
  have hunclaimed : table.contains c = false := h
  have hstate : (m.visit table i c).state = m.current.state := by
    rw [Walker.visit, Walker.advance_of_unclaimed hunclaimed]
  have hcurrent : (Walker.start initial streams).currentAt? table w i = some m.current := by
    rw [Walker.currentAt?, hthrough]
    rfl
  rw [hstate]
  exact congrArg (Option.map (·.state)) hcurrent

/-- Inert symbols have no influence on a walk. Take any word, and the word that is left of it
without the symbols that are no markers and that no instruction claims. The walk of the one succeeds
exactly if the walk of the other does, and fails with the same number of open branches or at the
same marker, wherever this one stands in the two words. If they succeed, the visits of claimed
symbols are the same, one by one and state by state, and each other visit has the state that was
current where the walk came to it. Both leave the same streams. -/
theorem inert_symbols_change_nothing (table : InstructionTable ρ S) (initial : Context S)
    (streams : Streams ρ) (w : Word) :
    let o := trace table initial streams w
    let o' := trace table initial streams (table.essential w)
    ((∃ visits, o'.result = .ok visits) ↔ ∃ visits, o.result = .ok visits) ∧
    (∀ k, o'.result = .error (.unclosedBranch k) ↔ o.result = .error (.unclosedBranch k)) ∧
    (∀ p, o.result = .error (.unbalancedBranch p) →
      o'.result = .error (.unbalancedBranch (table.place w p)) ∧
      w[p]? = some Symbol.closing ∧
      (table.essential w)[table.place w p]? = some Symbol.closing) ∧
    (∀ visits, o.result = .ok visits →
      o'.result = .ok ((visits.filter fun v => table.contains v.symbol).map fun v =>
        { v with position := table.place w v.position }) ∧
      ∀ v ∈ visits, table.contains v.symbol = false →
        ((Walker.start initial streams).currentAt? table w v.position).map (·.state) =
          some v.state) ∧
    o'.streams = o.streams := by
  intro o o'
  have ho' : o' = table.claimedOutcome (table.place w) o := trace_essential table initial streams w
  have hclosing : ∀ p, o.result = .error (.unbalancedBranch p) → w[p]? = some Symbol.closing :=
    fun p hp => (Word.fault?_eq_unbalanced_iff.1 (walk_eq_error_iff.1 hp)).closing
  have hvisits : ∀ visits, o.result = .ok visits → ∀ v ∈ visits,
      table.contains v.symbol = false →
      ((Walker.start initial streams).currentAt? table w v.position).map (·.state) =
        some v.state :=
    fun visits hresult v hv => currentAt?_of_unclaimed hresult hv
  rw [ho']
  unfold InstructionTable.claimedOutcome
  cases hresult : o.result with
  | ok visits =>
    refine ⟨by simp, by simp, nofun, ?_, rfl⟩
    rintro _ ⟨⟩
    exact ⟨rfl, hvisits visits hresult⟩
  | error e =>
    cases e with
    | unclosedBranch k => exact ⟨by simp, fun _ => Iff.rfl, nofun, nofun, rfl⟩
    | unbalancedBranch p =>
      refine ⟨by simp, by simp [EvalError.movedBy], ?_, nofun, rfl⟩
      rintro _ ⟨⟩
      have hp := hclosing p hresult
      exact ⟨rfl, hp, InstructionTable.getElem?_place hp (InstructionTable.heeds_of_isMarker rfl)⟩

end GrowthGrammar
