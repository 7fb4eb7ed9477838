import GrowthGrammar.Proofs.Walk.Outline
import GrowthGrammar.Proofs.Walk.Records
import GrowthGrammar.Proofs.Word.Depth

/-!
# How deep a walk goes

The deepest nesting of a word is counted without a stack. For a word that has a balance it is the
greatest depth of the stack that a walk comes to (`Walker.depths_eq`), also if the walk fails at the
end of the word. A visit need not be that deep, since a branch may hold no symbol of its own: on the
tree of a word, `Branching.exists_depth_iff` says at which depths there are visits.
-/

namespace GrowthGrammar

/-! ## The branches of a tree -/

namespace Branching

/-- The tree holds a symbol itself, outside its branches. -/
def HasSymbol : Branching → Prop
  | done => False
  | symbol _ _ _ => True
  | branch _ rest => rest.HasSymbol

/-- The tree has a branch of the given depth with the given inside. A branch that no other one holds
has the depth one. -/
inductive HasBranch : Branching → Nat → Branching → Prop where
  | outermost {body rest : Branching} : HasBranch (branch body rest) 1 body
  | inside {body rest inner : Branching} {d : Nat} : HasBranch body d inner →
      HasBranch (branch body rest) (d + 1) inner
  | behindBranch {body rest inner : Branching} {d : Nat} : HasBranch rest d inner →
      HasBranch (branch body rest) d inner
  | behindSymbol {c : Symbol} {hc : Symbol.isMarker c = false} {rest inner : Branching} {d : Nat} :
      HasBranch rest d inner → HasBranch (symbol c hc rest) d inner

/-- A branch of a tree of branches is the first one, or lies in it or behind it. -/
theorem hasBranch_branch_iff {body rest inner : Branching} {d : Nat} :
    (branch body rest).HasBranch d inner ↔
      (d = 1 ∧ inner = body) ∨ (∃ e, d = e + 1 ∧ body.HasBranch e inner) ∨
        rest.HasBranch d inner := by
  constructor
  · intro h
    cases h with
    | outermost => exact .inl ⟨rfl, rfl⟩
    | inside h => exact .inr (.inl ⟨_, rfl, h⟩)
    | behindBranch h => exact .inr (.inr h)
  · rintro (⟨rfl, rfl⟩ | ⟨e, rfl, h⟩ | h)
    · exact .outermost
    · exact .inside h
    · exact .behindBranch h

/-- The branches behind a symbol are those of the tree behind it. -/
theorem hasBranch_symbol_iff {c : Symbol} {hc : Symbol.isMarker c = false}
    {rest inner : Branching} {d : Nat} :
    (symbol c hc rest).HasBranch d inner ↔ rest.HasBranch d inner := by
  constructor
  · rintro ⟨⟩
    assumption
  · exact .behindSymbol

/-- The visits of a tree come before those of what stands behind it. -/
theorem visitsFrom_word_append (b : Branching) (d p : Nat) (w : Word) :
    Word.visitsFrom d p (b.word ++ w) =
      Word.visitsFrom d p b.word ++ Word.visitsFrom d (p + b.word.length) w := by
  induction b generalizing d p w with
  | done => rfl
  | symbol c hc rest ih =>
    rw [word, List.cons_append, Word.visitsFrom_symbol _ _ hc, Word.visitsFrom_symbol _ _ hc, ih,
      List.length_cons, Nat.add_assoc, Nat.add_comm 1, List.cons_append]
  | branch body rest ih₁ ih₂ =>
    have hbranch : ∀ u, Word.visitsFrom d p (Symbol.opening :: (body.word ++ Symbol.closing :: u)) =
        Word.visitsFrom (d + 1) (p + 1) body.word ++
          Word.visitsFrom d (p + 1 + body.word.length + 1) u := fun u => by
      rw [Word.visitsFrom_opening, ih₁, Word.visitsFrom_closing_succ]
    rw [word, List.cons_append, List.append_assoc, List.cons_append, hbranch, hbranch, ih₂,
      List.append_assoc]
    congr 3
    simp only [List.length_cons, List.length_append]
    omega

/-- The visits of a tree that starts with a branch are those inside the branch and those behind
it. -/
theorem visitsFrom_branch (body rest : Branching) (d p : Nat) :
    Word.visitsFrom d p (branch body rest).word =
      Word.visitsFrom (d + 1) (p + 1) body.word ++
        Word.visitsFrom d (p + 1 + body.word.length + 1) rest.word := by
  rw [word, Word.visitsFrom_opening, visitsFrom_word_append, Word.visitsFrom_closing_succ]

/-- A tree is visited at the depth where it starts if it holds a symbol itself, and further inside
if a branch that lies so deep does. -/
theorem exists_depth_iff (b : Branching) (d p n : Nat) :
    (∃ v ∈ Word.visitsFrom d p b.word, v.depth = n) ↔
      (n = d ∧ b.HasSymbol) ∨ ∃ e inner, n = d + e ∧ b.HasBranch e inner ∧ inner.HasSymbol := by
  induction b generalizing d p with
  | done =>
    constructor
    · rintro ⟨v, ⟨⟩, -⟩
    · rintro (⟨-, ⟨⟩⟩ | ⟨e, inner, -, ⟨⟩, -⟩)
  | symbol c hc rest ih =>
    rw [word, Word.visitsFrom_symbol _ _ hc, List.exists_mem_cons_iff, ih]
    simp only [hasBranch_symbol_iff, HasSymbol, and_true]
    constructor
    · rintro (rfl | ⟨rfl, -⟩ | hinner)
      · exact .inl rfl
      · exact .inl rfl
      · exact .inr hinner
    · rintro (rfl | hinner)
      · exact .inl rfl
      · exact .inr (.inr hinner)
  | branch body rest ih₁ ih₂ =>
    have hparts : (∃ v ∈ Word.visitsFrom d p (branch body rest).word, v.depth = n) ↔
        (∃ v ∈ Word.visitsFrom (d + 1) (p + 1) body.word, v.depth = n) ∨
          ∃ v ∈ Word.visitsFrom d (p + 1 + body.word.length + 1) rest.word, v.depth = n := by
      simp only [visitsFrom_branch, List.mem_append, or_and_right, exists_or]
    rw [hparts, ih₁, ih₂]
    simp only [hasBranch_branch_iff, HasSymbol]
    constructor
    · rintro ((⟨rfl, h⟩ | ⟨e, inner, rfl, hbranch, h⟩) | h | ⟨e, inner, rfl, hbranch, h⟩)
      · exact .inr ⟨1, body, rfl, .inl ⟨rfl, rfl⟩, h⟩
      · exact .inr ⟨e + 1, inner, by omega, .inr (.inl ⟨e, rfl, hbranch⟩), h⟩
      · exact .inl h
      · exact .inr ⟨e, inner, rfl, .inr (.inr hbranch), h⟩
    · rintro (h | ⟨e, inner, rfl, ⟨rfl, rfl⟩ | ⟨k, rfl, hbranch⟩ | hbranch, h⟩)
      · exact .inr (.inl h)
      · exact .inl (.inl ⟨rfl, h⟩)
      · exact .inl (.inr ⟨k, inner, by omega, hbranch, h⟩)
      · exact .inr (.inr ⟨e, inner, rfl, hbranch, h⟩)

end Branching

/-! ## The depths of a walk -/

namespace Walker

variable {ρ S : Type}

/-- The depths of the stack that a walk of a word comes to: at its start, and behind every symbol
that it gets over. That the walk goes on from there says `walkFrom_append`. -/
def depths (table : InstructionTable ρ S) (m : Walker ρ S) (w : Word) : Set Nat :=
  {d | ∃ u next, u <+: w ∧ m.through? table u = some next ∧ next.stack.depth = d}

/-- The stack of a walk is as deep as the word so far counts. -/
theorem depths_eq (table : InstructionTable ρ S) (m : Walker ρ S) (w : Word) :
    m.depths table w = w.reached m.stack.depth := by
  ext d
  refine exists_congr fun u => ?_
  rw [exists_and_left, ← through?_depth, Option.map_eq_some_iff]

end Walker

/-- The outlines of the visits of a walk that succeeds are the visits of its word. -/
theorem map_outline_of_trace_eq_ok {ρ S : Type} {table : InstructionTable ρ S}
    {initial : Context S} {streams : Streams ρ} {w : Word} {visits : List (Visit S)}
    (h : (trace table initial streams w).result = .ok visits) :
    visits.map Visit.outline = w.visitsFrom 0 0 := by
  have houtline := trace_outline table initial streams w
  rw [h, Word.outline] at houtline
  split at houtline
  · exact Except.ok.inj houtline
  · cases houtline

/-- The deepest nesting of a word that has a balance is the greatest balance of its starts, and the
greatest depth of the stack that a walk comes to. If the walk succeeds, no visit is deeper; and one
is as deep exactly if a branch of this depth holds a symbol itself, or if the word has symbols but
no branches. -/
theorem walk_reaches_maxDepth {ρ S : Type} (table : InstructionTable ρ S) (initial : Context S)
    (streams : Streams ρ) {w : Word} (h : w.balance? ≠ none) :
    IsGreatest {k | ∃ u, u <+: w ∧ Word.balance? u = some k} w.maxDepth ∧
    IsGreatest ((Walker.start initial streams).depths table w) w.maxDepth ∧
    ∀ visits, (trace table initial streams w).result = .ok visits →
      (∀ v ∈ visits, v.depth ≤ w.maxDepth) ∧
      ∃ b : Branching, b.word = w ∧
        ((∃ v ∈ visits, v.depth = w.maxDepth) ↔
          (∃ inner, b.HasBranch w.maxDepth inner ∧ inner.HasSymbol) ∨
            (w.maxDepth = 0 ∧ ∃ c ∈ w, Symbol.isMarker c = false)) := by
  obtain ⟨k, hk⟩ := Option.ne_none_iff_exists'.1 h
  have hgreatest : IsGreatest (w.reached 0) w.maxDepth := Word.isGreatest_reached hk
  refine ⟨hgreatest, ?_, fun visits hvisits => ?_⟩
  · rw [Walker.depths_eq]
    exact hgreatest
  · obtain ⟨⟨next, hnext⟩, hcalls⟩ := calls_of_trace_eq_ok hvisits
    have hvisited : w.Visited visits := hcalls ▸ Walker.visited_calls rfl hnext
    have hle : ∀ v ∈ visits, v.depth ≤ w.maxDepth := fun v hv =>
      hgreatest.2 ⟨_, List.take_prefix _ _, hvisited.depth v hv⟩
    obtain ⟨b, rfl⟩ := wellNested_iff.1 (wellNested_iff_balance?.2 (walk_eq_ok_iff.1 ⟨_, hvisits⟩))
    have hattained : (∃ v ∈ visits, v.depth = b.word.maxDepth) ↔
        ∃ v ∈ Word.visitsFrom 0 0 b.word, v.depth = b.word.maxDepth := by
      simp only [← map_outline_of_trace_eq_ok hvisits, List.mem_map, exists_exists_and_eq_and]
      rfl
    refine ⟨hle, b, rfl, fun hdeep => ?_, ?_⟩
    · rcases (b.exists_depth_iff 0 0 _).1 (hattained.1 hdeep) with
        ⟨hzero, -⟩ | ⟨e, inner, he, hbranch, hsymbol⟩
      · obtain ⟨v, hv, -⟩ := hdeep
        obtain ⟨c, hc, hmarker⟩ := (hvisited.mem_position_iff _).1 (List.mem_map_of_mem hv)
        exact .inr ⟨hzero, c, List.mem_of_getElem? hc, hmarker⟩
      · rw [Nat.zero_add] at he
        exact .inl ⟨inner, he ▸ hbranch, hsymbol⟩
    · rintro (⟨inner, hbranch, hsymbol⟩ | ⟨hzero, c, hc, hmarker⟩)
      · exact hattained.2 ((b.exists_depth_iff 0 0 _).2
          (.inr ⟨_, inner, (Nat.zero_add _).symm, hbranch, hsymbol⟩))
      · -- without branches every symbol is visited at the depth zero
        obtain ⟨i, hi⟩ := List.mem_iff_getElem?.1 hc
        obtain ⟨v, hv, -⟩ := List.mem_map.1 ((hvisited.mem_position_iff i).2 ⟨c, hi, hmarker⟩)
        exact ⟨v, hv, Nat.le_antisymm (hle v hv) (hzero ▸ Nat.zero_le _)⟩

/-- The innermost branch of this word holds no symbol. So the walk comes to a stack of two saved
contexts, but no visit is deeper than one. -/
theorem walk_reaches_maxDepth_of_bare_branch :
    Word.balance? ['S', '[', 'S', '[', ']', ']'] ≠ none ∧
    IsGreatest ((Walker.start ⟨0, 0⟩ (.single 1)).depths countingTable
      ['S', '[', 'S', '[', ']', ']']) 2 ∧
    (trace countingTable ⟨0, 0⟩ (.single 1) ['S', '[', 'S', '[', ']', ']']).result =
      .ok [⟨1, 'S', 0, 0⟩, ⟨103, 'S', 1, 2⟩] ∧
    ∃ b : Branching, b.word = ['S', '[', 'S', '[', ']', ']'] ∧
      ¬ ∃ inner, b.HasBranch 2 inner ∧ inner.HasSymbol := by
  have hbalance : Word.balance? ['S', '[', 'S', '[', ']', ']'] ≠ none := by decide
  have hsuccess : (trace countingTable ⟨0, 0⟩ (.single 1) ['S', '[', 'S', '[', ']', ']']).result =
      .ok [⟨1, 'S', 0, 0⟩, ⟨103, 'S', 1, 2⟩] := by
    let b : Branching := .symbol 'S' rfl (.branch (.symbol 'S' rfl (.branch .done .done)) .done)
    have hword : b.word = ['S', '[', 'S', '[', ']', ']'] := rfl
    rw [← hword, trace_word keepsHandles_countingTable]
    simp only [b, Branching.trace, lookup_countingTable]
    rfl
  obtain ⟨-, hdepths, hvisits⟩ :=
    walk_reaches_maxDepth countingTable ⟨0, 0⟩ (.single 1) hbalance
  obtain ⟨-, b, hb, hiff⟩ := hvisits _ hsuccess
  refine ⟨hbalance, hdepths, hsuccess, b, hb, fun hbranch => ?_⟩
  have hdeep : ∃ v ∈ [(⟨1, 'S', 0, 0⟩ : Visit Nat), ⟨103, 'S', 1, 2⟩], v.depth = 2 :=
    hiff.2 (.inl hbranch)
  simp at hdeep

end GrowthGrammar
