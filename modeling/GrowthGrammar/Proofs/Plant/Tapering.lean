import GrowthGrammar.Plant.System
import GrowthGrammar.Proofs.Grammar.Acceptance
import GrowthGrammar.Proofs.Grammar.Derivation
import GrowthGrammar.Proofs.Grammar.Series
import GrowthGrammar.Proofs.Plant.Table

/-!
# A plant tapers

In every word of the stock plant a branch starts with the only `B` of its level, and the turns are
inside branches. Such words are `Shoot`s; a derivation leads from shoots to shoots
(`Shoot.derives`), and a walk of a shoot shrinks its step once for each branch around it and does
not turn outside of all branches (`Shoot.exists_branching`). Together this is `stock_plant_tapers`:
at every depth of every expansion there is one step length, and the trunk is straight.
-/

namespace GrowthGrammar.Plant

/-! ## Shoots -/

/-- A word in which every branch starts with `B`, and which has no other `B`. The flag says whether
the word itself stands inside a branch: only then can it turn outside of its own branches. -/
inductive Shoot : Bool → Word → Prop where
  | nil {inside : Bool} : Shoot inside []
  | symbol {inside : Bool} {c : Symbol} {w : Word} : Symbol.isMarker c = false → c ≠ 'B' →
      (inside = false → c ≠ '+' ∧ c ≠ '-') → Shoot inside w → Shoot inside (c :: w)
  | branch {inside : Bool} {body rest : Word} : Shoot true body → Shoot inside rest →
      Shoot inside (Symbol.opening :: 'B' :: (body ++ Symbol.closing :: rest))

namespace Shoot

variable {inside : Bool} {u v : Word}

theorem append (hu : Shoot inside u) (hv : Shoot inside v) : Shoot inside (u ++ v) := by
  induction hu with
  | nil => exact hv
  | symbol hmarker hshrink hturn _ ih => exact .symbol hmarker hshrink hturn (ih hv)
  | @branch inside body rest hbody _ _ ih =>
    have hword : Symbol.opening :: 'B' :: (body ++ Symbol.closing :: rest) ++ v =
        Symbol.opening :: 'B' :: (body ++ Symbol.closing :: (rest ++ v)) := by simp
    rw [hword]
    exact .branch hbody (ih hv)

/-- A word without markers and without a `B` is a shoot, if it has no turns or is inside a
branch. -/
theorem of_all (h : u.all fun c =>
    !Symbol.isMarker c && c != 'B' && (inside || c != '+' && c != '-')) : Shoot inside u := by
  induction u with
  | nil => exact .nil
  | cons c u ih =>
    simp only [List.all_cons, Bool.and_eq_true, Bool.or_eq_true, Bool.not_eq_true', bne_iff_ne] at h
    obtain ⟨⟨⟨hmarker, hshrink⟩, hturn⟩, hrest⟩ := h
    refine .symbol hmarker hshrink (fun hinside => hturn.resolve_left ?_) (ih hrest)
    exact Bool.eq_false_iff.1 hinside

end Shoot

/-- The start word is a shoot, the replacements are shoots wherever they are put, and no rule
replaces a `B`. -/
structure Sprouting (g : Grammar) : Prop where
  start : Shoot false g.start
  replacement : ∀ r ∈ g.rules, ∀ inside, Shoot inside r.replacement
  predecessor : ∀ r ∈ g.rules, r.predecessor ≠ 'B'

/-- Whatever rules are chosen, a shoot becomes a shoot. -/
theorem Shoot.derives {g : Grammar} (sprouting : Sprouting g) {inside : Bool} {u v : Word}
    (hu : Shoot inside u) (hd : g.Derives u v) : Shoot inside v := by
  induction hu generalizing v with
  | nil =>
    cases hd
    exact .nil
  | symbol hmarker hshrink hturn _ ih =>
    cases hd with
    | replace hr hrest => exact (sprouting.replacement _ hr _).append (ih hrest)
    | keep _ hrest => exact .symbol hmarker hshrink hturn (ih hrest)
  | branch _ _ ih₁ ih₂ =>
    -- the markers and the `B` have no rules, so they frame what the inside and the rest become
    have hmarker : ∀ c, Symbol.isMarker c = true → ∀ r ∈ g.rules, r.predecessor ≠ c := by
      rintro c hc r hr rfl
      exact Bool.false_ne_true ((g.isMarker_predecessor hr).symm.trans hc)
    obtain ⟨_, rfl, hshrink⟩ := hd.of_cons (hmarker _ rfl)
    obtain ⟨_, rfl, hinside⟩ := hshrink.of_cons sprouting.predecessor
    obtain ⟨_, _, rfl, hbody, hclosing⟩ := hinside.of_append
    obtain ⟨_, rfl, hrest⟩ := hclosing.of_cons (hmarker _ rfl)
    exact .branch (ih₁ hbody) (ih₂ hrest)

/-- All words of all generations are shoots. -/
theorem Sprouting.shoot {g : Grammar} (sprouting : Sprouting g) {n : ℕ} {w : Word}
    (h : g.Generates n w) : Shoot false w := by
  induction h with
  | start => exact sprouting.start
  | next _ hd ih => exact ih.derives sprouting hd

/-! ## The stock plant -/

/-- The grammar of the stock plant exists for every number of generations. -/
theorem exists_grammar (n : ℕ) :
    ∃ g, grammar? n = .ok g ∧ g.start = Word.ofString "FFX" ∧ g.rules = rules ∧
      g.generations = n := by
  refine Grammar.exists_new?_iff.2 (Rule.firstFault?_empty_eq_none_iff.1 ?_)
  simp only [rules, Rule.firstFault?_cons_eq_none_iff, Rule.fault?_eq_none_iff,
    Std.HashMap.getD_insert, Std.HashMap.getD_empty]
  exact ⟨by decide, by decide, by decide, rfl⟩

theorem shoot_of_mem_rules {r : Rule} (hr : r ∈ rules) (inside : Bool) :
    Shoot inside r.replacement := by
  have hminus : Shoot true ['-', 'F', 'Y'] := .of_all rfl
  have hplus : Shoot true ['+', 'F', 'Y'] := .of_all rfl
  have hstem : Shoot inside ['F', 'X'] := .of_all (by cases inside <;> rfl)
  have hdetails : Shoot inside ['Q', 'Q', 'Q'] := .of_all (by cases inside <;> rfl)
  simp only [rules, List.mem_cons, List.not_mem_nil, or_false] at hr
  rcases hr with rfl | rfl | rfl
  · exact .branch hminus (.branch hplus hstem)
  · exact .branch hminus .nil
  · exact hdetails

/-- The grammar of the stock plant makes shoots. -/
theorem sprouting_of_grammar? {n : ℕ} {g : Grammar} (h : grammar? n = .ok g) : Sprouting g := by
  obtain ⟨g', hg', hstart, hrules, -⟩ := exists_grammar n
  obtain rfl : g' = g := Except.ok.inj (hg'.symm.trans h)
  refine ⟨?_, fun r hr => shoot_of_mem_rules (hrules ▸ hr), fun r hr => ?_⟩
  · rw [hstart]
    exact .of_all rfl
  · have hall : ∀ r ∈ rules, r.predecessor ≠ 'B' := by decide
    exact hall r (hrules ▸ hr)

/-! ## Tapering poses -/

section
variable {ρ α : Type} [Mul α]

/-- A pose at some depth has the first step length, shrunk so many times, and outside of all
branches it has the first orientation. -/
structure Tapers (habit : Habit α) (first : Pose α) (depth : ℕ) (p : Pose α) : Prop where
  stepLength : p.stepLength = (fun x => x * habit.shrink)^[depth] first.stepLength
  rotation : depth = 0 → p.rotation = first.rotation

/-- The walk of a word comes to its end, and all visited poses taper. -/
def WalkTapers (habit : Habit α) (table : InstructionTable ρ (Pose α)) (initial : Context (Pose α))
    (streams : Streams ρ) (w : Word) : Prop :=
  ∃ visits, (trace table initial streams w).result = .ok visits ∧
    ∀ v ∈ visits, Tapers habit initial.state v.depth v.state

/-- A shrunk pose tapers one level deeper. -/
theorem Tapers.shrink {habit : Habit α} {first p : Pose α} {depth : ℕ}
    (h : Tapers habit first depth p) :
    Tapers habit first (depth + 1) (p.withStepLength (p.stepLength * habit.shrink)) where
  stepLength := by
    rw [Function.iterate_succ_apply', ← h.stepLength]
    rfl
  rotation hzero := absurd hzero (Nat.succ_ne_zero depth)

end

/-! ## Walks of shoots -/

section
variable {ρ α : Type} [Add α] [Sub α] [Mul α] [Div α] [Neg α] [OfNat α 0] [OfNat α 1] [OfNat α 2]
  [BEq α] [Trig α] [RandomSource ρ α] {habit : Habit α} {table : InstructionTable ρ (Pose α)}
  (ht : table? habit = .ok table)
include ht

/-- At its level a pose goes on tapering, if it is not shrunk and, outside of all branches, not
turned. -/
theorem Tapers.run {first : Pose α} {depth : ℕ} {context : Context (Pose α)}
    (h : Tapers habit first depth context.state) {c : Symbol} (hshrink : c ≠ 'B')
    (hturn : depth = 0 → c ≠ '+' ∧ c ≠ '-') (stack : BranchStack (Pose α))
    (streams : Streams ρ) :
    Tapers habit first depth
      ((table.lookup c).instruction.run context stack streams).1.state where
  stepLength := (stepLength_run ht context stack streams hshrink).trans h.stepLength
  rotation hzero :=
    (rotation_run ht context stack streams (hturn hzero).1 (hturn hzero).2).trans (h.rotation hzero)

/-- A shoot is the word of a tree, and from a pose that tapers the walk of this tree visits only
poses that taper. The induction is on the shoot; outside of all branches its symbols do not turn. -/
theorem Shoot.exists_branching {inside : Bool} {w : Word} (hw : Shoot inside w) :
    ∃ b : Branching, b.word = w ∧
      ∀ {first state : Pose α} {stream : StreamId} {saved : List (Pose α)} {position : ℕ}
        {streams : Streams ρ}, (saved.length = 0 → inside = false) →
        Tapers habit first saved.length state →
        ∀ v ∈ (b.trace table stream state saved position streams).1,
          Tapers habit first v.depth v.state := by
  induction hw with
  | nil =>
    refine ⟨.done, rfl, fun _ _ v hv => ?_⟩
    cases hv
  | @symbol inside c w hmarker hshrink hturn _ ih =>
    obtain ⟨rest, rfl, hrest⟩ := ih
    refine ⟨.symbol c hmarker rest, rfl, ?_⟩
    intro first state stream saved position streams hdepth tapers v hv
    let stack : BranchStack (Pose α) := saved.map fun state => ⟨state, stream⟩
    let after := (table.lookup c).instruction.run ⟨state, stream⟩ stack streams
    have hnext : Tapers habit first saved.length after.1.state :=
      tapers.run ht hshrink (fun hzero => hturn (hdepth hzero)) stack streams
    have hrun : (table.lookup c).instruction.run ⟨state, stream⟩ stack streams =
        (after.1, after.2) := rfl
    rw [Branching.trace_symbol hrun] at hv
    rcases List.mem_cons.1 hv with rfl | hv
    · exact hnext
    · exact hrest hdepth hnext v hv
  | branch _ _ ih₁ ih₂ =>
    obtain ⟨body, rfl, hbody⟩ := ih₁
    obtain ⟨rest, rfl, hrest⟩ := ih₂
    have hmarker : Symbol.isMarker 'B' = false := by decide
    refine ⟨.branch (.symbol 'B' hmarker body) rest, rfl, ?_⟩
    intro first state stream saved position streams hdepth tapers v hv
    rcases Branching.mem_trace_branch hv with hv | ⟨after, hv⟩
    · have hinside : (state :: saved).length ≠ 0 := Nat.succ_ne_zero _
      have hnext := tapers.shrink
      rw [Branching.trace_symbol (run_shrink ht _ _ _)] at hv
      rcases List.mem_cons.1 hv with rfl | hv
      · exact hnext
      · exact hbody (fun hzero => absurd hzero hinside) hnext v hv
    · exact hrest hdepth tapers v hv

/-- The walk of a shoot tapers from every context and on all streams. -/
theorem Shoot.walkTapers {w : Word} (hw : Shoot false w) (initial : Context (Pose α)) (streams : Streams ρ) :
    WalkTapers habit table initial streams w := by
  obtain ⟨b, rfl, hb⟩ := hw.exists_branching ht
  have hresult := congrArg Outcome.result (trace_word (keepsHandles_table ht) b initial streams)
  exact ⟨_, hresult, hb (fun _ => rfl) ⟨rfl, fun _ => rfl⟩⟩

end

/-- The stock plant exists for every number of generations and every expansion seed. Whatever its
engine was asked before, and whatever generator it is given, the walk of the expansion succeeds from
every pose and on all streams; every pose that is visited at a depth has the first step length,
shrunk once for every level; and those outside of all branches have the first orientation. -/
theorem stock_plant_tapers (n : ℕ) (seed : ExpansionSeed) :
    ∃ g table e, grammar? n = .ok g ∧ stockTable? = .ok table ∧ Engine.new? g seed = .ok e ∧
      ∀ (past : List Engine.Call) (initial : Context (Pose Float)) (streams : Streams Generator),
        (∀ {σ : Type} [RandomBits σ] (rng : σ), WalkTapers .stock table initial streams
          ((past.foldl Engine.after e).expandWith rng).1) ∧
        ∀ fresh, WalkTapers .stock table initial streams
          ((past.foldl Engine.after e).expand fresh).1 := by
  obtain ⟨g, hg, -⟩ := exists_grammar n
  obtain ⟨table, htable, -⟩ := exists_table (ρ := Generator) Habit.stock
  obtain ⟨e, he, hgrammar, -⟩ := Engine.exists_new? g seed
  refine ⟨g, table, e, hg, htable, he, fun past initial streams => ?_⟩
  let later := past.foldl Engine.after e
  have htapers : ∀ {w : Word}, later.grammar.Generates later.grammar.generations w →
      WalkTapers .stock table initial streams w := by
    intro w hw
    rw [Engine.grammar_foldl_after, hgrammar] at hw
    exact ((sprouting_of_grammar? hg).shoot hw).walkTapers htable initial streams
  exact ⟨fun rng => htapers (later.generates rng),
    fun fresh => htapers (later.generates_expand fresh)⟩

end GrowthGrammar.Plant
