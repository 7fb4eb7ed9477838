import GrowthGrammar.Proofs.Walk.Verdict

/-!
# The calls of a walk

A walk takes one step for every symbol (`Walker.step?`), and `Walker.through?` is the walker behind
a word. `Walker.calls` lists the instructions that a walk runs until it ends or fails, each with the
walker just before it. A walk that succeeds records its calls and nothing else (`walkFrom_calls`);
of one that fails, every start that it gets through leaves the walk just there (`walkFrom_append`),
and the walk ends behind the last of its calls (`exists_walkFrom_end`).
-/

namespace GrowthGrammar

variable {ρ S α : Type}

namespace Walker

/-- The walker behind one symbol. A close of a branch that is not open has none. -/
def step? (table : InstructionTable ρ S) (m : Walker ρ S) (c : Symbol) : Option (Walker ρ S) :=
  if c = Symbol.opening then some m.save
  else if c = Symbol.closing then m.restore?
  else some (m.advance table c)

/-- The walker behind a word. A word that closes a branch that is not open has none. -/
def through? (table : InstructionTable ρ S) (m : Walker ρ S) (w : Word) : Option (Walker ρ S) :=
  w.foldlM (step? table) m

/-- The instructions that a walk runs until it ends or fails: the walker just before each of them,
and its visit. -/
def calls (table : InstructionTable ρ S) (m : Walker ρ S) (position : Nat) :
    Word → List (Walker ρ S × Visit S)
  | [] => []
  | c :: w =>
    match m.step? table c with
    | none => []
    | some next =>
      if Symbol.isMarker c then next.calls table (position + 1) w
      else (m, m.visit table position c) :: next.calls table (position + 1) w

/-! ## One symbol -/

section
variable (table : InstructionTable ρ S) (m : Walker ρ S)

@[simp] theorem step?_opening : m.step? table Symbol.opening = some m.save := rfl

@[simp] theorem step?_closing : m.step? table Symbol.closing = m.restore? := rfl

theorem step?_symbol {c : Symbol} (hc : Symbol.isMarker c = false) :
    m.step? table c = some (m.advance table c) := by
  rw [step?, if_neg (Symbol.ne_opening hc), if_neg (Symbol.ne_closing hc)]

theorem restore?_of_stack_nil (h : m.stack = []) : m.restore? = none := by
  rw [restore?, h]

theorem restore?_of_stack_cons {saved : Context S} {stack : BranchStack S}
    (h : m.stack = saved :: stack) : m.restore? = some { m with current := saved, stack } := by
  rw [restore?, h]

/-- What a symbol does to a walker: an open marker saves, a close goes back to the context saved
last, and any other symbol runs its instruction. -/
theorem step?_cases {c : Symbol} {next : Walker ρ S} (h : m.step? table c = some next) :
    (c = Symbol.opening ∧ next = m.save) ∨
      (c = Symbol.closing ∧ ∃ saved stack, m.stack = saved :: stack ∧
        next = { m with current := saved, stack }) ∨
      (Symbol.isMarker c = false ∧ next = m.advance table c) := by
  rcases Symbol.marker_cases c with rfl | rfl | hc
  · exact .inl ⟨rfl, (Option.some.inj h).symm⟩
  · rw [step?_closing] at h
    cases hstack : m.stack with
    | nil =>
      rw [restore?_of_stack_nil m hstack] at h
      cases h
    | cons saved stack =>
      rw [restore?_of_stack_cons m hstack] at h
      exact .inr (.inl ⟨rfl, saved, stack, rfl, (Option.some.inj h).symm⟩)
  · rw [step?_symbol table m hc] at h
    exact .inr (.inr ⟨hc, (Option.some.inj h).symm⟩)

/-- Only a close of a branch that is not open leads nowhere. -/
theorem step?_eq_none {c : Symbol} (h : m.step? table c = none) :
    c = Symbol.closing ∧ m.stack = [] := by
  rcases Symbol.marker_cases c with rfl | rfl | hc
  · cases h
  · rw [step?_closing] at h
    cases hstack : m.stack with
    | nil => exact ⟨rfl, rfl⟩
    | cons saved stack =>
      rw [restore?_of_stack_cons m hstack] at h
      cases h
  · rw [step?_symbol table m hc] at h
    cases h

@[simp] theorem through?_nil : m.through? table [] = some m := rfl

@[simp] theorem through?_cons (c : Symbol) (w : Word) :
    m.through? table (c :: w) = (m.step? table c).bind (·.through? table w) := rfl

theorem through?_append (u v : Word) :
    m.through? table (u ++ v) = (m.through? table u).bind (·.through? table v) :=
  List.foldlM_append

@[simp] theorem through?_singleton (c : Symbol) : m.through? table [c] = m.step? table c :=
  Option.bind_fun_some _

/-- The walker behind one symbol more. -/
theorem through?_take_succ {w : Word} {q : Nat} {c : Symbol} (hc : w[q]? = some c) :
    m.through? table (w.take (q + 1)) = (m.through? table (w.take q)).bind (·.step? table c) := by
  rw [List.take_add_one, hc, Option.toList_some, through?_append]
  simp only [through?_singleton]

/-- The depth behind a word is the balance of the word, counted from the depth before it. -/
theorem through?_depth (w : Word) :
    (m.through? table w).map (·.stack.depth) = Word.balanceFrom? m.stack.depth w := by
  induction w using Word.markerInduction generalizing m with
  | nil => rfl
  | opening w ih => exact ih m.save
  | closing w ih =>
    rw [through?_cons, step?_closing]
    cases h : m.stack with
    | nil =>
      rw [restore?_of_stack_nil m h]
      rfl
    | cons saved stack =>
      rw [restore?_of_stack_cons m h]
      exact ih _
  | symbol c w hc ih =>
    rw [through?_cons, step?_symbol table m hc, Word.balanceFrom?_symbol hc]
    exact ih _

/-- A walk that gets through a word gets through every start of it. -/
theorem exists_through?_take {w : Word} {next : Walker ρ S} (h : m.through? table w = some next)
    (q : Nat) : ∃ mq, m.through? table (w.take q) = some mq := by
  rw [← List.take_append_drop q w, through?_append, Option.bind_eq_some_iff] at h
  obtain ⟨mq, hmq, -⟩ := h
  exact ⟨mq, hmq⟩

/-! ## The calls on a word -/

variable (position : Nat)

theorem calls_of_step? {c : Symbol} {next : Walker ρ S} (h : m.step? table c = some next)
    (w : Word) :
    m.calls table position (c :: w) =
      m.calls table position [c] ++ next.calls table (position + 1) w := by
  simp only [calls, h]
  split <;> rfl

theorem calls_marker {c : Symbol} (hc : Symbol.isMarker c = true) :
    m.calls table position [c] = [] := by
  simp only [calls, hc, if_true]
  split <;> rfl

theorem calls_symbol {c : Symbol} (hc : Symbol.isMarker c = false) :
    m.calls table position [c] = [(m, m.visit table position c)] := by
  simp only [calls, step?_symbol table m hc, hc]
  rfl

/-- Nothing is called where a walk does not go on. -/
theorem calls_of_step?_eq_none {c : Symbol} (h : m.step? table c = none) (w : Word) :
    m.calls table position (c :: w) = [] := by
  simp only [calls, h]

/-- The calls on a word are those on its first part, and then those on its second part. -/
theorem calls_append {u : Word} {next : Walker ρ S} (h : m.through? table u = some next)
    (v : Word) :
    m.calls table position (u ++ v) =
      m.calls table position u ++ next.calls table (position + u.length) v := by
  induction u generalizing m position with
  | nil =>
    cases h
    rfl
  | cons c u ih =>
    obtain ⟨after, hafter, hnext⟩ := Option.bind_eq_some_iff.1 h
    rw [List.cons_append, calls_of_step? table m position hafter,
      calls_of_step? table m position hafter u, ih after (position + 1) hnext, List.append_assoc,
      List.length_cons, Nat.add_assoc, Nat.add_comm 1]

/-- A walk that gets through a word calls the instructions of its symbols, markers aside, one by one
at their positions. -/
theorem map_calls {w : Word} {next : Walker ρ S} (h : m.through? table w = some next) :
    (m.calls table position w).map (fun call => (call.2.symbol, call.2.position)) =
      (w.zipIdx position).filter (!Symbol.isMarker ·.1) := by
  induction w generalizing m position with
  | nil => rfl
  | cons c w ih =>
    obtain ⟨after, hstep, hafter⟩ := Option.bind_eq_some_iff.1 h
    rw [calls_of_step? table m position hstep, List.map_append, ih after (position + 1) hafter,
      List.zipIdx_cons, List.filter_cons]
    cases hc : Symbol.isMarker c with
    | true => rw [calls_marker table m position hc]; rfl
    | false => rw [calls_symbol table m position hc]; rfl

/-- A walk calls an instruction for every symbol that is no marker and that it gets to, with the
walker behind the word up to there. -/
theorem mem_calls_iff {w : Word} {call : Walker ρ S × Visit S} :
    call ∈ m.calls table position w ↔
      ∃ i c, w[i]? = some c ∧ Symbol.isMarker c = false ∧
        m.through? table (w.take i) = some call.1 ∧
        call.2 = call.1.visit table (position + i) c := by
  induction w generalizing m position with
  | nil => simp [calls]
  | cons c w ih =>
    constructor
    · intro hcall
      cases hstep : m.step? table c with
      | none => simp [calls, hstep] at hcall
      | some next =>
        rw [calls_of_step? table m position hstep, List.mem_append] at hcall
        rcases hcall with hfirst | hlater
        · cases hc : Symbol.isMarker c with
          | true => simp [calls_marker table m position hc] at hfirst
          | false =>
            rw [calls_symbol table m position hc, List.mem_singleton] at hfirst
            subst hfirst
            exact ⟨0, c, rfl, hc, rfl, rfl⟩
        · obtain ⟨i, c', hi, hc', hthrough, hvisit⟩ := (ih next (position + 1)).1 hlater
          refine ⟨i + 1, c', hi, hc', ?_, ?_⟩
          · rw [List.take_succ_cons, through?_cons, hstep]
            exact hthrough
          · rw [hvisit, Nat.add_assoc, Nat.add_comm 1]
    · rintro ⟨i, c', hi, hc', hthrough, hvisit⟩
      cases i with
      | zero =>
        cases hi
        cases hthrough
        rw [calls_of_step? table _ position (step?_symbol table _ hc'),
          calls_symbol table _ position hc', List.mem_append, List.mem_singleton]
        exact .inl (Prod.ext rfl hvisit)
      | succ i =>
        rw [List.take_succ_cons, through?_cons] at hthrough
        obtain ⟨next, hstep, hnext⟩ := Option.bind_eq_some_iff.1 hthrough
        rw [calls_of_step? table m position hstep, List.mem_append]
        refine .inr ((ih next (position + 1)).2 ⟨i, c', hi, hc', hnext, ?_⟩)
        rw [hvisit, Nat.add_assoc, Nat.add_comm 1]

/-- The visits of a word that a walk makes are those of the symbols that are no markers and that it
gets to, each by the walker behind the word up to there. -/
theorem mem_visits_iff {w : Word} {v : Visit S} :
    v ∈ (m.calls table 0 w).map (·.2) ↔
      ∃ i c mi, w[i]? = some c ∧ Symbol.isMarker c = false ∧
        m.through? table (w.take i) = some mi ∧ v = mi.visit table i c := by
  rw [List.mem_map]
  constructor
  · rintro ⟨⟨mi, v⟩, hcall, rfl⟩
    obtain ⟨i, c, hi, hc, hthrough, hvisit⟩ := (mem_calls_iff table m 0).1 hcall
    rw [Nat.zero_add] at hvisit
    exact ⟨i, c, mi, hi, hc, hthrough, hvisit⟩
  · rintro ⟨i, c, mi, hi, hc, hthrough, rfl⟩
    refine ⟨(mi, mi.visit table i c), ?_, rfl⟩
    exact (mem_calls_iff table m 0).2 ⟨i, c, hi, hc, hthrough, by rw [Nat.zero_add]⟩

end

end Walker

/-! ## The calls and the walk -/

section
variable (record : Walker ρ S → Visit S → α) (table : InstructionTable ρ S) (m : Walker ρ S)
  (position : Nat) (recorded : List α)

/-- A walk goes on behind a symbol from the walker after it. -/
theorem walkFrom_of_step? {c : Symbol} {next : Walker ρ S} (h : m.step? table c = some next)
    (w : Word) :
    walkFrom record table m position recorded (c :: w) =
      walkFrom record table next (position + 1)
        (((m.calls table position [c]).map fun call => record call.1 call.2).reverse ++ recorded)
        w := by
  obtain ⟨rfl, rfl⟩ | ⟨rfl, saved, stack, hstack, rfl⟩ | ⟨hc, rfl⟩ := m.step?_cases table h
  · rfl
  · rw [walkFrom_closing_of_stack_cons _ _ _ _ _ hstack, Walker.calls_marker table m position rfl]
    rfl
  · rw [walkFrom_symbol _ _ _ _ _ hc, Walker.calls_symbol table m position hc]
    rfl

/-- A walk fails at a symbol that it does not get over, and leaves the streams as they are there. -/
theorem walkFrom_of_step?_eq_none {c : Symbol} (h : m.step? table c = none) (w : Word) :
    walkFrom record table m position recorded (c :: w) =
      ⟨.error (.unbalancedBranch position), m.streams⟩ := by
  obtain ⟨rfl, hstack⟩ := m.step?_eq_none table h
  exact walkFrom_closing_of_stack_nil _ _ _ _ _ hstack w

/-- A walk that gets through the first part of a word goes on from there, with the calls of the
first part recorded. -/
theorem walkFrom_append {u : Word} {next : Walker ρ S} (h : m.through? table u = some next)
    (v : Word) :
    walkFrom record table m position recorded (u ++ v) =
      walkFrom record table next (position + u.length)
        (((m.calls table position u).map fun call => record call.1 call.2).reverse ++ recorded)
        v := by
  induction u generalizing m position recorded with
  | nil =>
    cases h
    rfl
  | cons c u ih =>
    obtain ⟨after, hafter, hnext⟩ := Option.bind_eq_some_iff.1 h
    rw [List.cons_append, walkFrom_of_step? record table m position recorded hafter,
      ih after (position + 1) _ hnext, Walker.calls_of_step? table m position hafter u,
      List.map_append, List.reverse_append, List.append_assoc, List.length_cons, Nat.add_assoc,
      Nat.add_comm 1]

/-- A walk ends where it does not go on, behind the last of its calls, and leaves the streams as
they are there. -/
theorem exists_walkFrom_end (w : Word) :
    ∃ u v last, w = u ++ v ∧ m.through? table u = some last ∧
      (∀ c ∈ v.head?, last.step? table c = none) ∧
      m.calls table position w = m.calls table position u ∧
      (walkFrom record table m position recorded w).streams = last.streams := by
  induction w generalizing m position recorded with
  | nil =>
    refine ⟨[], [], m, rfl, rfl, nofun, rfl, ?_⟩
    cases hstack : m.stack with
    | nil => rw [walkFrom_nil_of_stack_nil _ _ _ _ _ hstack]
    | cons saved stack => rw [walkFrom_nil_of_stack_cons _ _ _ _ _ hstack]
  | cons c w ih =>
    cases hstep : m.step? table c with
    | none =>
      refine ⟨[], c :: w, m, rfl, rfl, ?_, m.calls_of_step?_eq_none table position hstep w, ?_⟩
      · rintro _ ⟨⟩
        exact hstep
      · rw [walkFrom_of_step?_eq_none record table m position recorded hstep]
    | some next =>
      obtain ⟨u, v, last, rfl, hlast, hv, hcalls, hstreams⟩ := ih next (position + 1)
        (((m.calls table position [c]).map fun call => record call.1 call.2).reverse ++ recorded)
      refine ⟨c :: u, v, last, rfl, ?_, hv, ?_, ?_⟩
      · rw [Walker.through?_cons, hstep]
        exact hlast
      · rw [Walker.calls_of_step? table m position hstep,
          Walker.calls_of_step? table m position hstep u, hcalls]
      · rw [walkFrom_of_step? record table m position recorded hstep]
        exact hstreams

/-- A walk records its calls, or fails with the fault of its word. -/
theorem walkFrom_calls (w : Word) :
    (walkFrom record table m position recorded w).result =
      match w.faultFrom? m.stack.depth position with
      | none =>
        .ok (recorded.reverse ++ (m.calls table position w).map fun call => record call.1 call.2)
      | some e => .error e := by
  have hfault := walkFrom_fault? record table m position recorded w
  cases h : w.faultFrom? m.stack.depth position with
  | some e => exact Outcome.fault?_eq_some.1 (hfault.trans h)
  | none =>
    have hbalance := Word.faultFrom?_eq_none_iff.1 h
    rw [← m.through?_depth table w] at hbalance
    obtain ⟨next, hnext, hdepth⟩ := Option.map_eq_some_iff.1 hbalance
    have happend := walkFrom_append record table m position recorded hnext []
    rw [List.append_nil, walkFrom_nil_of_stack_nil _ _ _ _ _ (List.length_eq_zero_iff.1 hdepth)]
      at happend
    rw [happend, List.reverse_append, List.reverse_reverse]

/-- A walk that gets to a symbol has come there with the calls before it recorded, whether it fails
later or not. -/
theorem walk_take {initial : Context S} {streams : Streams ρ} {w : Word} {q : Nat} {c : Symbol}
    {next : Walker ρ S} (hc : w[q]? = some c)
    (h : (Walker.start initial streams).through? table (w.take q) = some next) :
    walk record table initial streams w =
      walkFrom record table next q
        (((Walker.start initial streams).calls table 0 (w.take q)).map
          fun call => record call.1 call.2).reverse (w.drop q) := by
  have hlength : (w.take q).length = q :=
    List.length_take_of_le (Nat.le_of_lt (List.getElem?_eq_some_iff.1 hc).1)
  have happend := walkFrom_append record table _ 0 [] h (w.drop q)
  rwa [List.take_append_drop, hlength, Nat.zero_add, List.append_nil] at happend

/-- A walk of a word records its calls, or fails with the fault of the word. -/
theorem walk_calls (initial : Context S) (streams : Streams ρ) (w : Word) :
    (walk record table initial streams w).result =
      match w.fault? with
      | none =>
        .ok (((Walker.start initial streams).calls table 0 w).map fun call => record call.1 call.2)
      | some e => .error e := by
  rw [walk, walkFrom_calls]
  rfl

end

/-- A walk that succeeds gets through its word, and hands out the visits of its calls. -/
theorem calls_of_trace_eq_ok {table : InstructionTable ρ S} {initial : Context S}
    {streams : Streams ρ} {w : Word} {visits : List (Visit S)}
    (h : (trace table initial streams w).result = .ok visits) :
    (∃ next, (Walker.start initial streams).through? table w = some next) ∧
      visits = ((Walker.start initial streams).calls table 0 w).map (·.2) := by
  constructor
  · have hbalance : Word.balanceFrom? (Walker.start initial streams).stack.depth w = some 0 :=
      walk_eq_ok_iff.1 ⟨_, h⟩
    rw [← Walker.through?_depth table _ w] at hbalance
    obtain ⟨next, hnext, -⟩ := Option.map_eq_some_iff.1 hbalance
    exact ⟨next, hnext⟩
  · rw [trace, walk_calls] at h
    split at h
    · exact (Except.ok.inj h).symm
    · cases h

end GrowthGrammar
