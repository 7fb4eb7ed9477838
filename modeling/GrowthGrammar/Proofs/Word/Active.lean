import GrowthGrammar.Proofs.Word.Openings

/-!
# Active positions

A branch of a word reaches from an open marker to the close that ends it (`Word.IsBranch`), and a
position inside a branch that is closed before `p` is shut at `p` (`Word.Shut`). The positions that
are not shut are the ones whose symbols still matter at `p`: they are active (`Word.active`). This
is a matter of the openings: a position is shut as soon as one of the branches around it is no
longer open (`Word.shut_iff`). So the active positions before a place (`Word.path`) are like a
stack, too: a symbol adds its position, an open marker does nothing, and a close goes back to the
path at the place of its open (`Word.path_succ_of_closing`).
-/

namespace GrowthGrammar.Word

/-- A branch of the word is opened at `j` and closed at `k`. -/
structure IsBranch (w : Word) (j k : ℕ) : Prop where
  lt : j < k
  opening : w[j]? = some Symbol.opening
  closing : w[k]? = some Symbol.closing
  inside : WellNested ((w.take k).drop (j + 1))

instance (w : Word) (j k : ℕ) : Decidable (w.IsBranch j k) :=
  decidable_of_iff (j < k ∧ w[j]? = some Symbol.opening ∧ w[k]? = some Symbol.closing ∧
      WellNested ((w.take k).drop (j + 1)))
    ⟨fun ⟨h₁, h₂, h₃, h₄⟩ => ⟨h₁, h₂, h₃, h₄⟩, fun ⟨h₁, h₂, h₃, h₄⟩ => ⟨h₁, h₂, h₃, h₄⟩⟩

/-- The position lies inside a branch that is closed before `p`. -/
def Shut (w : Word) (p i : ℕ) : Prop := ∃ j < i, ∃ k < p, i < k ∧ w.IsBranch j k

instance (w : Word) (p i : ℕ) : Decidable (w.Shut p i) :=
  @Nat.decidableExistsLT _ (fun _ => @Nat.decidableExistsLT _ (fun _ => inferInstance) p) i

/-- The word has a symbol at the position that is no marker. -/
def HasSymbol (w : Word) (i : ℕ) : Prop := ∃ c, w[i]? = some c ∧ Symbol.isMarker c = false

instance (w : Word) (i : ℕ) : Decidable (w.HasSymbol i) :=
  decidable_of_iff (w[i]?.any (!Symbol.isMarker ·) = true) <| by
    unfold HasSymbol
    cases w[i]? <;> simp

/-- The positions up to `p` that are not shut at `p`, markers aside. -/
def active (w : Word) (p : ℕ) : List ℕ :=
  (List.range (p + 1)).filter fun i => w.HasSymbol i ∧ ¬ w.Shut p i

/-- The first branch is closed, the second one is not. -/
example : active ['A', '[', 'B', ']', '[', 'C', 'D', ']'] 6 = [0, 5, 6] := by decide

/-- The symbols at the active positions. -/
def activeSymbols (w : Word) (p : ℕ) : Word := (w.active p).filterMap (w[·]?)

theorem le_of_mem_active {w : Word} {p i : ℕ} (h : i ∈ w.active p) : i ≤ p :=
  Nat.le_of_lt_succ (List.mem_range.1 (List.mem_filter.1 h).1)

/-! ## Shut positions and openings -/

variable {w : Word} {i j k p q : ℕ}

/-- A branch is an opening of all words that end inside it. -/
theorem IsBranch.unclosed_take (h : w.IsBranch j k) (hji : j < i) (hik : i ≤ k) :
    Unclosed (w.take i) j := by
  refine unclosed_iff.2 ⟨(List.getElem?_take_of_lt hji).trans h.opening, fun hnone => ?_⟩
  have hinside : ((w.take k).drop (j + 1)).take (i - (j + 1)) = (w.take i).drop (j + 1) := by
    rw [List.take_drop, List.take_take, Nat.add_sub_cancel' hji, Nat.min_eq_left hik]
  rw [← hinside] at hnone
  cases (balance?_eq_none_of_take hnone).symm.trans (wellNested_iff_balance?.1 h.inside)

/-- Behind its close a branch is no opening any more. -/
theorem IsBranch.not_unclosed_take (h : w.IsBranch j k) (hkq : k < q) :
    ¬ Unclosed (w.take q) j := by
  intro hopen
  refine hopen.2 ⟨_, ((w.take q).drop (k + 1)), h.inside, ?_⟩
  have hclosing : (w.take q)[k]? = some Symbol.closing :=
    (List.getElem?_take_of_lt hkq).trans h.closing
  obtain ⟨hk, hget⟩ := List.getElem?_eq_some_iff.1 hclosing
  have htake : (w.take q).take k = w.take k := by
    rw [List.take_take, Nat.min_eq_left (Nat.le_of_lt hkq)]
  calc (w.take q).drop (j + 1)
      = ((w.take q).take k ++ (w.take q).drop k).drop (j + 1) := by rw [List.take_append_drop]
    _ = ((w.take q).take k).drop (j + 1) ++ (w.take q).drop k := by
        refine List.drop_append_of_le_length ?_
        rw [List.length_take_of_le (Nat.le_of_lt hk)]
        exact h.lt
    _ = (w.take k).drop (j + 1) ++ Symbol.closing :: (w.take q).drop (k + 1) := by
        rw [htake, List.drop_eq_getElem_cons hk, hget]

/-- An open marker of a word that is no opening of it starts a branch. -/
theorem exists_isBranch (hj : w[j]? = some Symbol.opening) (hjq : j < q)
    (h : ¬ Unclosed (w.take q) j) : ∃ k < q, w.IsBranch j k := by
  obtain ⟨body, rest, hbody, hdrop⟩ :
      ∃ body rest, WellNested body ∧ (w.take q).drop (j + 1) = body ++ Symbol.closing :: rest := by
    by_contra hnone
    exact h ⟨(List.getElem?_take_of_lt hjq).trans hj, hnone⟩
  have hclosing : (w.take q)[j + 1 + body.length]? = some Symbol.closing := by
    rw [← List.getElem?_drop, hdrop, List.getElem?_append_right (Nat.le_refl _), Nat.sub_self]
    rfl
  have hkq : j + 1 + body.length < q :=
    Nat.lt_of_lt_of_le (List.getElem?_eq_some_iff.1 hclosing).1 (List.length_take_le q w)
  have hinside : (w.take (j + 1 + body.length)).drop (j + 1) = body := by
    have htake : w.take (j + 1 + body.length) = (w.take q).take (j + 1 + body.length) := by
      rw [List.take_take, Nat.min_eq_left (Nat.le_of_lt hkq)]
    rw [htake, ← List.take_drop, hdrop, List.take_left]
  refine ⟨j + 1 + body.length, hkq, by omega, hj, ?_, ?_⟩
  · rw [← hclosing, List.getElem?_take_of_lt hkq]
  · rw [hinside]
    exact hbody

/-- A symbol is shut as soon as a branch around it is no longer open. -/
theorem shut_iff (hi : w.HasSymbol i) (hiq : i ≤ q) :
    w.Shut q i ↔ ¬ openings (w.take i) ⊆ openings (w.take q) := by
  rw [List.subset_def]
  push Not
  constructor
  · rintro ⟨j, hji, k, hkq, hik, hbranch⟩
    refine ⟨j, mem_openings.2 (hbranch.unclosed_take hji (Nat.le_of_lt hik)), fun hj => ?_⟩
    exact hbranch.not_unclosed_take hkq (mem_openings.1 hj)
  · rintro ⟨j, hj, hclosed⟩
    have hopen := mem_openings.1 hj
    have hji : j < i := Nat.lt_of_lt_of_le hopen.lt_length (List.length_take_le i w)
    have hopening : w[j]? = some Symbol.opening :=
      (List.getElem?_take_of_lt hji).symm.trans hopen.1
    obtain ⟨k, hkq, hbranch⟩ := exists_isBranch hopening (Nat.lt_of_lt_of_le hji hiq)
      fun hj => hclosed (mem_openings.2 hj)
    refine ⟨j, hji, k, hkq, ?_, hbranch⟩
    -- the branch is still open at the symbol, so it is closed behind it
    rcases Nat.lt_trichotomy i k with hik | rfl | hki
    · exact hik
    · obtain ⟨c, hc, hmarker⟩ := hi
      cases hc.symm.trans hbranch.closing
      cases hmarker
    · exact absurd hopen (hbranch.not_unclosed_take hki)

/-! ## The path to a place -/

/-- The positions before a place that are not shut there, markers aside. -/
def path (w : Word) (q : ℕ) : List ℕ :=
  (List.range q).filter fun i => w.HasSymbol i ∧ ¬ w.Shut q i

theorem lt_of_mem_path (h : i ∈ w.path q) : i < q := List.mem_range.1 (List.mem_filter.1 h).1

/-- On a path are the symbols around which no branch is closed. -/
theorem path_eq (w : Word) (q : ℕ) :
    w.path q = (List.range q).filter fun i =>
      w.HasSymbol i ∧ openings (w.take i) ⊆ openings (w.take q) := by
  refine List.filter_congr fun i hi => ?_
  rw [decide_eq_decide]
  refine and_congr_right fun hsymbol => ?_
  rw [shut_iff hsymbol (Nat.le_of_lt (List.mem_range.1 hi)), not_not]

/-- A symbol comes last on the path. -/
theorem path_succ_of_symbol {c : Symbol} (hq : w[q]? = some c) (hc : Symbol.isMarker c = false) :
    w.path (q + 1) = w.path q ++ [q] := by
  have hlast : w.HasSymbol q := ⟨c, hq, hc⟩
  rw [path_eq, path_eq, List.range_succ, List.filter_append, openings_take_succ_of_symbol hq hc]
  simp [hlast]

/-- There is no symbol where a marker is. -/
theorem not_hasSymbol {c : Symbol} (hq : w[q]? = some c) (hc : Symbol.isMarker c = true) :
    ¬ w.HasSymbol q := by
  rintro ⟨c', hq', hc'⟩
  obtain rfl : c = c' := Option.some.inj (hq.symm.trans hq')
  exact Bool.false_ne_true (hc'.symm.trans hc)

/-- A further opening leaves the path as it is. -/
theorem path_succ_of_opening (hq : w[q]? = some Symbol.opening) : w.path (q + 1) = w.path q := by
  have hlast : ¬ w.HasSymbol q := not_hasSymbol hq rfl
  have hlength : (w.take q).length = q :=
    List.length_take_of_le (Nat.le_of_lt (List.getElem?_eq_some_iff.1 hq).1)
  have hopenings : openings (w.take (q + 1)) = openings (w.take q) ++ [q] := by
    rw [List.take_add_one, hq, Option.toList_some, openings_append_opening, hlength]
  rw [path_eq, path_eq, List.range_succ, List.filter_append, hopenings,
    (List.filter_eq_nil_iff (l := [q])).2 (by simp [hlast]), List.append_nil]
  refine List.filter_congr fun i hi => ?_
  rw [decide_eq_decide]
  refine and_congr_right fun _ => ⟨fun hsubset l hl => ?_, List.subset_append_of_subset_left _⟩
  have hli : l < i :=
    Nat.lt_of_lt_of_le (mem_openings.1 hl).lt_length (List.length_take_le i w)
  have hlq : l < q := Nat.lt_trans hli (List.mem_range.1 hi)
  rcases List.mem_append.1 (hsubset hl) with hmem | hmem
  · exact hmem
  · exact absurd (List.mem_singleton.1 hmem) (Nat.ne_of_lt hlq)

/-- A close goes back to the path at the last opening: what comes behind this opening is inside the
branch that is closed. -/
theorem path_succ_of_closing (hq : w[q]? = some Symbol.closing)
    (hj : (openings (w.take q)).getLast? = some j) : w.path (q + 1) = w.path j := by
  have hopen : Unclosed (w.take q) j := mem_openings.1 (List.mem_of_getLast? hj)
  have hjq : j < q := Nat.lt_of_lt_of_le hopen.lt_length (List.length_take_le q w)
  have hmarker : ¬ w.HasSymbol j :=
    not_hasSymbol ((List.getElem?_take_of_lt hjq).symm.trans hopen.1) rfl
  have hrange : List.range (q + 1) = List.range j ++ (List.range (q + 1 - j)).map (j + ·) := by
    rw [← List.range_add, Nat.add_sub_cancel' (by omega)]
  rw [path_eq, path_eq, hrange, List.filter_append, openings_take_succ_of_closing hq hj]
  refine (congrArg (_ ++ ·) (List.filter_eq_nil_iff.2 fun i hi => ?_)).trans (List.append_nil _)
  rw [decide_eq_true_iff]
  rintro ⟨hsymbol, hsubset⟩
  obtain ⟨n, hn, rfl⟩ := List.mem_map.1 hi
  have hn := List.mem_range.1 hn
  cases n with
  | zero => exact hmarker hsymbol
  | succ n =>
    -- the opening is around what follows it, but it is not open at itself
    have htake : (w.take q).take (j + (n + 1)) = w.take (j + (n + 1)) := by
      rw [List.take_take, Nat.min_eq_left (by omega)]
    have haround : j ∈ openings (w.take (j + (n + 1))) :=
      htake ▸ mem_openings.2 (hopen.take (by omega))
    have hlt := (mem_openings.1 (hsubset haround)).lt_length
    exact Nat.not_lt_of_le (List.length_take_le j w) hlt

/-- Up to a symbol the path is what is active there. -/
theorem active_eq_path {c : Symbol} (hp : w[p]? = some c) (hc : Symbol.isMarker c = false) :
    w.active p = w.path (p + 1) := by
  refine List.filter_congr fun i _ => ?_
  rw [decide_eq_decide]
  refine and_congr_right fun _ => not_congr ⟨?_, ?_⟩
  · rintro ⟨j, hji, k, hkp, hbranch⟩
    exact ⟨j, hji, k, Nat.lt_succ_of_lt hkp, hbranch⟩
  · rintro ⟨j, hji, k, hkp, hik, hbranch⟩
    refine ⟨j, hji, k, Nat.lt_of_le_of_ne (Nat.le_of_lt_succ hkp) ?_, hik, hbranch⟩
    rintro rfl
    exact Symbol.ne_closing hc (Option.some.inj (hp.symm.trans hbranch.closing))

end GrowthGrammar.Word
