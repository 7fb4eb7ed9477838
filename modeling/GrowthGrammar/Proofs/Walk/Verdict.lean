import GrowthGrammar.Proofs.Word.Balance
import GrowthGrammar.Walk.Basic

/-!
# What a walk decides about a word

Whether a walk fails, and how, is decided by the branch markers of the word alone.
`Word.faultFrom?` finds the fault without walking, and every walk has that fault
(`walkFrom_fault?`), whatever the instructions do and whatever is recorded. The fault is then read
off the balance of the word and of its starts: `walk_verdict` states it for the visits and for the
states of a walk.
-/

namespace GrowthGrammar

/-- The fault that a walk ends with, if there is one. -/
def Outcome.fault? {ρ α : Type} (o : Outcome ρ α) : Option EvalError :=
  match o.result with
  | .ok _ => none
  | .error e => some e

section
variable {ρ S α : Type}

theorem Outcome.fault?_eq_none {o : Outcome ρ α} : o.fault? = none ↔ ∃ a, o.result = .ok a := by
  unfold Outcome.fault?
  cases o.result <;> simp

theorem Outcome.fault?_eq_some {o : Outcome ρ α} {e : EvalError} :
    o.fault? = some e ↔ o.result = .error e := by
  unfold Outcome.fault?
  cases o.result <;> simp

/-! ## One symbol of a walk -/

variable (record : Walker ρ S → Visit S → α) (table : InstructionTable ρ S) (m : Walker ρ S)
  (position : Nat) (recorded : List α)

/-- The visit of a symbol that is no marker. -/
def Walker.visit (table : InstructionTable ρ S) (m : Walker ρ S) (position : Nat) (c : Symbol) :
    Visit S :=
  ⟨(m.advance table c).current.state, c, m.stack.depth, position⟩

@[simp] theorem Walker.advance_stack (c : Symbol) : (m.advance table c).stack = m.stack := rfl

@[simp] theorem Walker.save_stack : m.save.stack = m.current :: m.stack := rfl

/-- A walk of a word without symbols ends well if no branch is open. -/
theorem walkFrom_nil_of_stack_nil (h : m.stack = []) :
    walkFrom record table m position recorded [] = ⟨.ok recorded.reverse, m.streams⟩ := by
  simp [walkFrom, h]

/-- A walk of a word without symbols fails if branches are open. -/
theorem walkFrom_nil_of_stack_cons {saved : Context S} {stack : BranchStack S}
    (h : m.stack = saved :: stack) :
    walkFrom record table m position recorded []
      = ⟨.error (.unclosedBranch (stack.depth + 1)), m.streams⟩ := by
  simp [walkFrom, h, BranchStack.depth]

@[simp] theorem walkFrom_opening (w : Word) :
    walkFrom record table m position recorded (Symbol.opening :: w)
      = walkFrom record table m.save (position + 1) recorded w := rfl

/-- A close fails if no branch is open. -/
theorem walkFrom_closing_of_stack_nil (h : m.stack = []) (w : Word) :
    walkFrom record table m position recorded (Symbol.closing :: w)
      = ⟨.error (.unbalancedBranch position), m.streams⟩ := by
  rw [walkFrom, if_neg Symbol.opening_ne_closing.symm, if_pos rfl, Walker.restore?, h]

/-- A close goes back to the context that was saved last. -/
theorem walkFrom_closing_of_stack_cons {saved : Context S} {stack : BranchStack S}
    (h : m.stack = saved :: stack) (w : Word) :
    walkFrom record table m position recorded (Symbol.closing :: w)
      = walkFrom record table { m with current := saved, stack } (position + 1) recorded w := by
  rw [walkFrom, if_neg Symbol.opening_ne_closing.symm, if_pos rfl, Walker.restore?, h]

/-- A symbol that is no marker is visited. -/
theorem walkFrom_symbol {c : Symbol} (hc : Symbol.isMarker c = false) (w : Word) :
    walkFrom record table m position recorded (c :: w)
      = walkFrom record table (m.advance table c) (position + 1)
          (record m (m.visit table position c) :: recorded) w := by
  rw [walkFrom, if_neg (Symbol.ne_opening hc), if_neg (Symbol.ne_closing hc)]
  rfl

end

namespace Word

/-! ## The fault of a word -/

/-- The fault of the branch markers of a word that starts at a position with `depth` branches
open. -/
def faultFrom? (depth position : Nat) : Word → Option EvalError
  | [] => if depth = 0 then none else some (.unclosedBranch depth)
  | c :: w =>
    if c = Symbol.opening then faultFrom? (depth + 1) (position + 1) w
    else if c = Symbol.closing then
      match depth with
      | 0 => some (.unbalancedBranch position)
      | depth + 1 => faultFrom? depth (position + 1) w
    else faultFrom? depth (position + 1) w

/-- The fault of the branch markers of a word. -/
def fault? (w : Word) : Option EvalError := faultFrom? 0 0 w

variable (d p : Nat)

@[simp] theorem faultFrom?_opening (w : Word) :
    faultFrom? d p (Symbol.opening :: w) = faultFrom? (d + 1) (p + 1) w := rfl

@[simp] theorem faultFrom?_closing_zero (w : Word) :
    faultFrom? 0 p (Symbol.closing :: w) = some (.unbalancedBranch p) := rfl

@[simp] theorem faultFrom?_closing_succ (w : Word) :
    faultFrom? (d + 1) p (Symbol.closing :: w) = faultFrom? d (p + 1) w := rfl

theorem faultFrom?_symbol {c : Symbol} (hc : Symbol.isMarker c = false) (w : Word) :
    faultFrom? d p (c :: w) = faultFrom? d (p + 1) w := by
  simp only [faultFrom?, Symbol.ne_opening hc, Symbol.ne_closing hc, if_false]

variable {d p}

/-- A word has no fault exactly if it leaves no branch open and closes none that it never opened. -/
theorem faultFrom?_eq_none_iff {w : Word} :
    w.faultFrom? d p = none ↔ balanceFrom? d w = some 0 := by
  induction w using markerInduction generalizing d p with
  | nil => cases d <;> simp [faultFrom?]
  | opening w ih => exact ih
  | closing w ih =>
    cases d with
    | zero => simp
    | succ d => exact ih
  | symbol c w hc ih => rw [faultFrom?_symbol _ _ hc, balanceFrom?_symbol hc, ih]

/-- A word leaves branches open exactly if its balance says so, with the same number. -/
theorem faultFrom?_eq_unclosed_iff {w : Word} {k : Nat} :
    w.faultFrom? d p = some (.unclosedBranch k) ↔ balanceFrom? d w = some k ∧ 0 < k := by
  induction w using markerInduction generalizing d p with
  | nil =>
    cases d with
    | zero =>
      refine ⟨nofun, ?_⟩
      rintro ⟨⟨rfl⟩, hk⟩
      cases hk
    | succ d =>
      constructor
      · rintro ⟨rfl⟩
        exact ⟨rfl, Nat.succ_pos d⟩
      · rintro ⟨⟨rfl⟩, -⟩
        rfl
  | opening w ih => exact ih
  | closing w ih =>
    cases d with
    | zero => simp
    | succ d => exact ih
  | symbol c w hc ih => rw [faultFrom?_symbol _ _ hc, balanceFrom?_symbol hc, ih]

/-- A word fails at a close exactly if all branches before it are closed. -/
theorem faultFrom?_eq_unbalanced_iff {w : Word} {q : Nat} :
    w.faultFrom? d p = some (.unbalancedBranch q) ↔
      ∃ i, q = p + i ∧ w[i]? = some Symbol.closing ∧ balanceFrom? d (w.take i) = some 0 := by
  induction w using markerInduction generalizing d p with
  | nil => cases d <;> simp [faultFrom?]
  | opening w ih =>
    rw [faultFrom?_opening, ih]
    constructor
    · rintro ⟨i, rfl, hi, hb⟩
      exact ⟨i + 1, by omega, hi, hb⟩
    · rintro ⟨_ | i, rfl, hi, hb⟩
      · cases hi
      · exact ⟨i, by omega, hi, hb⟩
  | closing w ih =>
    cases d with
    | zero =>
      rw [faultFrom?_closing_zero]
      constructor
      · rintro ⟨rfl⟩
        exact ⟨0, rfl, rfl, rfl⟩
      · rintro ⟨_ | i, rfl, hi, hb⟩
        · rfl
        · cases hb
    | succ d =>
      rw [faultFrom?_closing_succ, ih]
      constructor
      · rintro ⟨i, rfl, hi, hb⟩
        exact ⟨i + 1, by omega, hi, hb⟩
      · rintro ⟨_ | i, rfl, hi, hb⟩
        · cases hb
        · exact ⟨i, by omega, hi, hb⟩
  | symbol c w hc ih =>
    rw [faultFrom?_symbol _ _ hc, ih]
    constructor
    · rintro ⟨i, rfl, hi, hb⟩
      exact ⟨i + 1, by omega, hi, by rw [List.take_succ_cons, balanceFrom?_symbol hc, hb]⟩
    · rintro ⟨_ | i, rfl, hi, hb⟩
      · exact absurd (Option.some.inj hi) (Symbol.ne_closing hc)
      · rw [List.take_succ_cons, balanceFrom?_symbol hc] at hb
        exact ⟨i, by omega, hi, hb⟩

/-- The place at which a word fails is where it first closes a branch that it never opened. -/
theorem fault?_eq_unbalanced_iff {w : Word} {p : Nat} :
    w.fault? = some (.unbalancedBranch p) ↔ w.ClosesUnopened p := by
  rw [fault?, faultFrom?_eq_unbalanced_iff]
  constructor
  · rintro ⟨i, rfl, hi, hb⟩
    rw [Nat.zero_add]
    exact ⟨hi, hb, balanceFrom?_take_succ_of_closing hi hb⟩
  · intro h
    exact ⟨p, (Nat.zero_add p).symm, h.closing, h.before⟩

/-- Where a word first closes a branch that it never opened depends only on its start up to
there. -/
theorem ClosesUnopened.of_take {v w : Word} {p : Nat} (h : w.ClosesUnopened p)
    (hv : v.take (p + 1) = w.take (p + 1)) : v.ClosesUnopened p where
  closing := by
    have hp : (v.take (p + 1))[p]? = (w.take (p + 1))[p]? := by rw [hv]
    rw [List.getElem?_take_of_lt p.lt_succ_self, List.getElem?_take_of_lt p.lt_succ_self] at hp
    rw [hp, h.closing]
  before := by
    have hp : (v.take (p + 1)).take p = (w.take (p + 1)).take p := by rw [hv]
    rw [List.take_take, List.take_take, Nat.min_eq_left p.le_succ] at hp
    rw [hp, h.before]
  after := by rw [hv, h.after]

/-- A result answers for the branch markers of a word: it is a success, the number of branches left
open, or the place of a close without an open, as the balance of the word and of its starts says. -/
structure Verdict {α : Type} (w : Word) (result : Except EvalError α) : Prop where
  ok_iff : (∃ a, result = .ok a) ↔ w.balance? = some 0
  unclosed_iff : ∀ k, result = .error (.unclosedBranch k) ↔ w.balance? = some k ∧ 0 < k
  unbalanced_iff : ∀ p, result = .error (.unbalancedBranch p) ↔ w.ClosesUnopened p

end Word

/-! ## The verdict of a walk -/

section
variable {ρ S α : Type}

/-- A walk has the fault of its word. The induction is on the word, for every depth of the stack:
nothing else of the walker decides how the walk goes on. -/
theorem walkFrom_fault? (record : Walker ρ S → Visit S → α) (table : InstructionTable ρ S)
    (m : Walker ρ S) (position : Nat) (recorded : List α) (w : Word) :
    (walkFrom record table m position recorded w).fault? = w.faultFrom? m.stack.depth position := by
  induction w using Word.markerInduction generalizing m position recorded with
  | nil =>
    cases h : m.stack with
    | nil => rw [walkFrom_nil_of_stack_nil _ _ _ _ _ h]; rfl
    | cons saved stack => rw [walkFrom_nil_of_stack_cons _ _ _ _ _ h]; rfl
  | opening w ih => rw [walkFrom_opening, ih]; rfl
  | closing w ih =>
    cases h : m.stack with
    | nil => rw [walkFrom_closing_of_stack_nil _ _ _ _ _ h]; rfl
    | cons saved stack => rw [walkFrom_closing_of_stack_cons _ _ _ _ _ h, ih]; rfl
  | symbol c w hc ih =>
    rw [walkFrom_symbol _ _ _ _ _ hc, ih, Word.faultFrom?_symbol _ _ hc, Walker.advance_stack]

/-- A walk from the start of a word has the fault of the word. -/
theorem walk_fault? (record : Walker ρ S → Visit S → α) (table : InstructionTable ρ S)
    (initial : Context S) (streams : Streams ρ) (w : Word) :
    (walk record table initial streams w).fault? = w.fault? :=
  walkFrom_fault? record table (.start initial streams) 0 [] w

/-- A walk fails with an error exactly if that is the fault of the word. -/
theorem walk_eq_error_iff {record : Walker ρ S → Visit S → α} {table : InstructionTable ρ S}
    {initial : Context S} {streams : Streams ρ} {w : Word} {e : EvalError} :
    (walk record table initial streams w).result = .error e ↔ w.fault? = some e := by
  rw [← Outcome.fault?_eq_some, walk_fault?]

/-- A walk succeeds exactly if the word closes all that it opens, and no more. -/
theorem walk_eq_ok_iff {record : Walker ρ S → Visit S → α} {table : InstructionTable ρ S}
    {initial : Context S} {streams : Streams ρ} {w : Word} :
    (∃ visits, (walk record table initial streams w).result = .ok visits) ↔
      w.balance? = some 0 := by
  rw [← Outcome.fault?_eq_none, walk_fault?]
  exact Word.faultFrom?_eq_none_iff

/-- The result of a walk answers for the branch markers of the word. -/
theorem verdict_walk (record : Walker ρ S → Visit S → α) (table : InstructionTable ρ S)
    (initial : Context S) (streams : Streams ρ) (w : Word) :
    w.Verdict (walk record table initial streams w).result where
  ok_iff := walk_eq_ok_iff
  unclosed_iff _ := walk_eq_error_iff.trans Word.faultFrom?_eq_unclosed_iff
  unbalanced_iff _ := walk_eq_error_iff.trans Word.fault?_eq_unbalanced_iff

end

/-- The visits and the states of a walk are refused exactly as the branch markers say. A word
without a balance is refused at one place. The error is the same for other instructions, contexts
and streams, and a close without an open is refused whatever comes behind it. -/
theorem walk_verdict {ρ S ρ' S' : Type} (table : InstructionTable ρ S) (initial : Context S)
    (streams : Streams ρ) (table' : InstructionTable ρ' S') (initial' : Context S')
    (streams' : Streams ρ') (w : Word) :
    w.Verdict (evaluate table initial streams w).result ∧
    w.Verdict (trace table initial streams w).result ∧
    (w.balance? = none → ∃! p, w.ClosesUnopened p) ∧
    (∀ e, (evaluate table initial streams w).result = .error e ↔
      (evaluate table' initial' streams' w).result = .error e) ∧
    (∀ e, (evaluate table initial streams w).result = .error e ↔
      (trace table' initial' streams' w).result = .error e) ∧
    ∀ p v, (evaluate table initial streams w).result = .error (.unbalancedBranch p) →
      v.take (p + 1) = w.take (p + 1) →
      (evaluate table' initial' streams' v).result = .error (.unbalancedBranch p) := by
  refine ⟨verdict_walk _ _ _ _ w, verdict_walk _ _ _ _ w, Word.existsUnique_closesUnopened,
    fun e => ?_, fun e => ?_, fun p v h hv => ?_⟩
  · exact walk_eq_error_iff.trans walk_eq_error_iff.symm
  · exact walk_eq_error_iff.trans walk_eq_error_iff.symm
  · have hw : w.ClosesUnopened p := Word.fault?_eq_unbalanced_iff.1 (walk_eq_error_iff.1 h)
    exact walk_eq_error_iff.2 (Word.fault?_eq_unbalanced_iff.2 (hw.of_take hv))

end GrowthGrammar
