import GrowthGrammar.Proofs.Word.Balance
import Mathlib.Data.List.Basic

/-!
# The openings of a word

An opening of a word is an open marker that the word does not close again. `Word.Unclosed` says so
by what follows the marker, without counting, and `Word.openings` lists the places of these markers,
the outermost one first. From one symbol to the next this list is a stack: an open marker is put at
its end (`Word.openings_append_opening`), a close takes the last one away
(`Word.openings_append_closing`), and any other symbol leaves it alone. So an opening has one number
from the marker on until it is closed (`Word.getElem?_openings_take`).
-/

namespace GrowthGrammar

namespace Word

/-- The word opens a branch at the position, and nowhere closes it again: no well-nested word leads
from there to a close. -/
def Unclosed (w : Word) (i : ℕ) : Prop :=
  w[i]? = some Symbol.opening ∧
    ¬ ∃ body rest, WellNested body ∧ w.drop (i + 1) = body ++ Symbol.closing :: rest

theorem unclosed_iff {w : Word} {i : ℕ} :
    w.Unclosed i ↔ w[i]? = some Symbol.opening ∧ balance? (w.drop (i + 1)) ≠ none :=
  and_congr_right fun _ => not_congr balance?_eq_none_iff.symm

instance (w : Word) (i : ℕ) : Decidable (w.Unclosed i) := decidable_of_iff _ unclosed_iff.symm

/-- The positions at which a word opens the branches that it leaves open, the outermost one
first. -/
def openings (w : Word) : List ℕ := (List.range w.length).filter (w.Unclosed ·)

/-- The second branch is closed again. -/
example : openings ['[', '[', ']', 'A', '['] = [0, 4] := by decide

theorem Unclosed.lt_length {w : Word} {i : ℕ} (h : w.Unclosed i) : i < w.length :=
  (List.getElem?_eq_some_iff.1 h.1).1

theorem mem_openings {w : Word} {i : ℕ} : i ∈ w.openings ↔ w.Unclosed i := by
  simp only [openings, List.mem_filter, List.mem_range, decide_eq_true_iff]
  exact and_iff_right_of_imp Unclosed.lt_length

/-- Positions in the second part of a word count from its start. -/
theorem unclosed_append_add {u v : Word} {i : ℕ} :
    Unclosed (u ++ v) (u.length + i) ↔ v.Unclosed i := by
  rw [unclosed_iff, unclosed_iff, List.getElem?_append_right (Nat.le_add_right _ _),
    Nat.add_sub_cancel_left, Nat.add_assoc, List.drop_append, List.drop_of_length_le (by omega),
    List.nil_append, Nat.add_sub_cancel_left]

/-- An opening of the first part of a word is closed in this part or behind it. -/
theorem unclosed_append_of_lt {u v : Word} {i : ℕ} (hi : i < u.length) :
    Unclosed (u ++ v) i ↔
      u[i]? = some Symbol.opening ∧ balance? (u.drop (i + 1) ++ v) ≠ none := by
  rw [unclosed_iff, List.getElem?_append_left hi, List.drop_append_of_le_length hi]

/-- What is closed in the first part of a word stays closed. -/
theorem Unclosed.of_append {u v : Word} {i : ℕ} (hi : i < u.length) (h : Unclosed (u ++ v) i) :
    u.Unclosed i := by
  obtain ⟨hopening, hbalance⟩ := (unclosed_append_of_lt hi).1 h
  exact unclosed_iff.2 ⟨hopening, fun hnone => hbalance (balanceFrom?_append_of_none hnone v)⟩

/-- The openings of a word are those of its first part that its second part leaves open, and then
those of its second part. -/
theorem openings_append (u v : Word) :
    openings (u ++ v) =
      u.openings.filter (Unclosed (u ++ v) ·) ++ v.openings.map (u.length + ·) := by
  rw [openings, List.length_append, List.range_add, List.filter_append, List.filter_map]
  congr 1
  · rw [openings, List.filter_filter]
    refine List.filter_congr fun i hi => ?_
    have hlt : i < u.length := List.mem_range.1 hi
    rw [← Bool.decide_and, decide_eq_decide]
    exact ⟨fun h => ⟨h, h.of_append hlt⟩, And.left⟩
  · congr 1
    refine List.filter_congr fun i _ => ?_
    rw [Function.comp_apply, decide_eq_decide]
    exact unclosed_append_add

/-- Behind a second part that closes nothing of the first part, all openings are left. -/
theorem openings_append_of_balance? {u v : Word} (h : v.balance? ≠ none) :
    openings (u ++ v) = u.openings ++ v.openings.map (u.length + ·) := by
  rw [openings_append, List.filter_eq_self.2 fun i hi => ?_]
  have hi := mem_openings.1 hi
  obtain ⟨hopening, hbalance⟩ := unclosed_iff.1 hi
  rw [decide_eq_true_iff, unclosed_append_of_lt hi.lt_length]
  obtain ⟨k, hk⟩ := Option.ne_none_iff_exists'.1 hbalance
  obtain ⟨j, hj⟩ := Option.ne_none_iff_exists'.1 h
  have hsum : balance? (u.drop (i + 1) ++ v) = some (j + k) := by
    rw [balance?, balanceFrom?_append_of_some hk]
    simpa using balanceFrom?_add hj k
  exact ⟨hopening, by rw [hsum]; exact Option.some_ne_none _⟩

theorem openings_singleton_opening : openings [Symbol.opening] = [0] := by decide

/-- Only the open marker opens a branch. -/
theorem openings_singleton_of_ne {c : Symbol} (hc : c ≠ Symbol.opening) : openings [c] = [] := by
  refine List.filter_eq_nil_iff.2 fun i hi => ?_
  obtain rfl : i = 0 := by simpa using hi
  have hopening : ¬ Unclosed [c] 0 := fun h => hc (Option.some.inj h.1)
  simpa using hopening

/-- A symbol that is no marker leaves the openings as they are. -/
theorem openings_append_symbol {c : Symbol} (hc : Symbol.isMarker c = false) (w : Word) :
    openings (w ++ [c]) = w.openings := by
  have hbalance : balance? [c] = some 0 := by
    rw [balance?, balanceFrom?_symbol hc, balanceFrom?_nil]
  rw [openings_append_of_balance? (by rw [hbalance]; exact Option.some_ne_none _),
    openings_singleton_of_ne (Symbol.ne_opening hc), List.map_nil, List.append_nil]

/-- A further opening comes last. -/
theorem openings_append_opening (w : Word) :
    openings (w ++ [Symbol.opening]) = w.openings ++ [w.length] := by
  rw [openings_append_of_balance? (by decide), openings_singleton_opening]
  rfl

/-- An opening that is not closed parts the openings: those before it are the openings of the start
of the word. -/
theorem openings_of_unclosed {w : Word} {j : ℕ} (h : w.Unclosed j) :
    ∃ later, w.openings = openings (w.take j) ++ j :: later := by
  obtain ⟨hopening, hbalance⟩ := unclosed_iff.1 h
  obtain ⟨hj, hget⟩ := List.getElem?_eq_some_iff.1 hopening
  have hparts : w = (w.take j ++ [Symbol.opening]) ++ w.drop (j + 1) := by
    rw [← hget, List.append_assoc, List.singleton_append, ← List.drop_eq_getElem_cons hj,
      List.take_append_drop]
  have hstart : openings (w.take j ++ [Symbol.opening]) = openings (w.take j) ++ [j] := by
    rw [openings_append_opening, List.length_take_of_le (Nat.le_of_lt hj)]
  refine ⟨(openings (w.drop (j + 1))).map ((w.take j ++ [Symbol.opening]).length + ·), ?_⟩
  conv_lhs => rw [hparts, openings_append_of_balance? hbalance, hstart, List.append_assoc]
  rfl

/-- What a word opens at its start stays open if the rest of the word closes nothing but its own. -/
theorem openings_opening (w : Word) :
    openings (Symbol.opening :: w) =
      (if balance? w = none then [] else [0]) ++ w.openings.map (1 + ·) := by
  have hfirst : Unclosed (Symbol.opening :: w) 0 ↔ ¬ balance? w = none :=
    unclosed_iff.trans (and_iff_right rfl)
  rw [← List.singleton_append, openings_append, openings_singleton_opening]
  congr 1
  split_ifs with h <;> simp [hfirst, h]

/-- A word with a first symbol that opens nothing has the openings of its rest. -/
theorem openings_cons_of_ne {c : Symbol} (hc : c ≠ Symbol.opening) (w : Word) :
    openings (c :: w) = w.openings.map (1 + ·) := by
  rw [← List.singleton_append, openings_append, openings_singleton_of_ne hc]
  rfl

/-- A word that closes all branches that are open before it leaves as many branches open as it has
openings. The induction is on the word; that it closes all of them is said by the fewer ones, with
which it has no balance. -/
theorem length_openings_of_balanceFrom? {d k : ℕ} {w : Word} (h : balanceFrom? d w = some k)
    (fewer : ∀ e < d, balanceFrom? e w = none) : w.openings.length = k := by
  induction w using markerInduction generalizing d k with
  | nil =>
    cases d with
    | zero => cases h; rfl
    | succ d => cases fewer d (Nat.lt_succ_self d)
  | opening w ih =>
    rw [openings_opening]
    by_cases hnone : balance? w = none
    · rw [if_pos hnone, List.nil_append, List.length_map]
      refine ih h fun e he => ?_
      cases e with
      | zero => exact hnone
      | succ e => exact fewer e (Nat.lt_of_succ_lt_succ he)
    · obtain ⟨j, hj⟩ := Option.ne_none_iff_exists'.1 hnone
      rw [if_neg hnone, List.length_append, List.length_map, ih hj nofun]
      cases d with
      | zero =>
        cases (balanceFrom?_add hj 1).symm.trans h
        exact Nat.add_comm 1 j
      | succ d => cases (balanceFrom?_add hj 1).symm.trans (fewer 0 d.succ_pos)
  | closing w ih =>
    rw [openings_cons_of_ne Symbol.opening_ne_closing.symm, List.length_map]
    cases d with
    | zero => cases h
    | succ d => exact ih h fun e he => fewer (e + 1) (Nat.succ_lt_succ he)
  | symbol c w hc ih =>
    rw [openings_cons_of_ne (Symbol.ne_opening hc), List.length_map]
    simp only [balanceFrom?_symbol hc] at h fewer
    exact ih h fewer

/-- A word with a balance leaves as many branches open as it has openings. -/
theorem length_openings {w : Word} {k : ℕ} (h : w.balance? = some k) : w.openings.length = k :=
  length_openings_of_balanceFrom? h nofun

/-- Openings are listed in ascending order. -/
theorem pairwise_openings (w : Word) : w.openings.Pairwise (· < ·) :=
  List.pairwise_lt_range.filter _

/-- Positions behind the start of a word count from there. -/
theorem unclosed_drop {w : Word} {n i : ℕ} (hn : n ≤ w.length) :
    Unclosed (w.drop n) i ↔ w.Unclosed (n + i) := by
  have h := unclosed_append_add (u := w.take n) (v := w.drop n) (i := i)
  rw [List.take_append_drop, List.length_take_of_le hn] at h
  exact h.symm

/-- A close closes an opening of the word before it exactly if no branch is open between the two. -/
theorem unclosed_append_closing {w : Word} {i : ℕ} (h : w.Unclosed i) :
    Unclosed (w ++ [Symbol.closing]) i ↔ openings (w.drop (i + 1)) ≠ [] := by
  obtain ⟨hopening, hbalance⟩ := unclosed_iff.1 h
  obtain ⟨k, hk⟩ := Option.ne_none_iff_exists'.1 hbalance
  rw [unclosed_append_of_lt h.lt_length, balance?, balanceFrom?_append_of_some hk,
    ← List.length_pos_iff, length_openings hk, and_iff_right hopening]
  cases k with
  | zero => exact iff_of_false (fun h => h rfl) (Nat.lt_irrefl 0)
  | succ k => exact iff_of_true (Option.some_ne_none k) k.succ_pos

/-- A close takes away the last opening. -/
theorem openings_append_closing (w : Word) :
    openings (w ++ [Symbol.closing]) = w.openings.dropLast := by
  have hinside : ∀ {i j}, w.Unclosed i → (j ∈ openings (w.drop (i + 1)) ↔ w.Unclosed (i + 1 + j)) :=
    fun hi => mem_openings.trans (unclosed_drop hi.lt_length)
  rw [openings_append, openings_singleton_of_ne Symbol.opening_ne_closing.symm, List.map_nil,
    List.append_nil]
  rcases List.eq_nil_or_concat' w.openings with hnil | ⟨before, j, hlast⟩
  · rw [hnil]
    rfl
  · have hmem : ∀ i, i ∈ before ++ [j] ↔ w.Unclosed i := fun i => hlast ▸ mem_openings
    have hbefore : ∀ i ∈ before, i < j := fun i hi =>
      (List.pairwise_append.1 (hlast ▸ w.pairwise_openings)).2.2 i hi j (List.mem_singleton_self j)
    have hj : w.Unclosed j := (hmem j).1 List.mem_concat_self
    rw [hlast, List.dropLast_concat, List.filter_append]
    -- nothing is open behind the last opening, but the last opening is open behind all others
    have hclosed : ¬ Unclosed (w ++ [Symbol.closing]) j := by
      rw [unclosed_append_closing hj, not_not, List.eq_nil_iff_forall_not_mem]
      intro i hi
      have hi := (hmem _).2 ((hinside hj).1 hi)
      rcases List.mem_append.1 hi with hi | hi
      · have := hbefore _ hi
        omega
      · have := List.mem_singleton.1 hi
        omega
    have hopen : ∀ i ∈ before, Unclosed (w ++ [Symbol.closing]) i := by
      intro i hi
      have hlt := hbefore i hi
      have hi := (hmem i).1 (List.mem_append_left _ hi)
      rw [unclosed_append_closing hi]
      refine List.ne_nil_of_mem (a := j - (i + 1)) ((hinside hi).2 ?_)
      rwa [Nat.add_sub_cancel' hlt]
    rw [List.filter_eq_self.2 (by simpa using hopen)]
    simp [hclosed]

/-- An opening of a word is one of every start of the word that holds it. -/
theorem Unclosed.take {w : Word} {i q : ℕ} (h : w.Unclosed i) (hq : i < q) :
    Unclosed (w.take q) i := by
  have hlt : i < (w.take q).length := by
    rw [List.length_take]
    exact Nat.lt_min.2 ⟨hq, h.lt_length⟩
  refine Unclosed.of_append (v := w.drop q) hlt ?_
  rwa [List.take_append_drop]

/-- Before the last opening of a word stand the openings of the word up to there. -/
theorem openings_of_getLast? {w : Word} {j : ℕ} (h : w.openings.getLast? = some j) :
    w.openings = openings (w.take j) ++ [j] := by
  obtain ⟨later, hlater⟩ := openings_of_unclosed (mem_openings.1 (List.mem_of_getLast? h))
  rcases List.eq_nil_or_concat' later with rfl | ⟨before, i, rfl⟩
  · exact hlater
  · have hsorted := w.pairwise_openings
    rw [hlater, List.pairwise_append, List.pairwise_cons] at hsorted
    have hlt : j < i := hsorted.2.1.1 i List.mem_concat_self
    rw [hlater, ← List.cons_append, ← List.append_assoc, List.getLast?_concat] at h
    exact absurd (Option.some.inj h) (Nat.ne_of_gt hlt)

/-- A symbol that is no marker opens and closes nothing. -/
theorem openings_take_succ_of_symbol {w : Word} {q : ℕ} {c : Symbol} (hq : w[q]? = some c)
    (hc : Symbol.isMarker c = false) : openings (w.take (q + 1)) = openings (w.take q) := by
  rw [List.take_add_one, hq, Option.toList_some, openings_append_symbol hc]

/-- A close goes back to the openings at the last one of them. -/
theorem openings_take_succ_of_closing {w : Word} {q j : ℕ} (hq : w[q]? = some Symbol.closing)
    (hj : (openings (w.take q)).getLast? = some j) :
    openings (w.take (q + 1)) = openings (w.take j) := by
  have hlt := (mem_openings.1 (List.mem_of_getLast? hj)).lt_length
  have hle : j ≤ q := Nat.le_of_lt (Nat.lt_of_lt_of_le hlt (List.length_take_le q w))
  rw [List.take_add_one, hq, Option.toList_some, openings_append_closing, openings_of_getLast? hj,
    List.dropLast_concat, List.take_take, Nat.min_eq_left hle]

/-- The number of an opening among the openings is the number of those before it. -/
theorem getElem?_openings_eq_some_iff {w : Word} {i k : ℕ} :
    w.openings[k]? = some i ↔ w.Unclosed i ∧ (openings (w.take i)).length = k := by
  have hget : ∀ hi : w.Unclosed i, w.openings[(openings (w.take i)).length]? = some i := by
    intro hi
    obtain ⟨later, hlater⟩ := openings_of_unclosed hi
    rw [hlater, List.getElem?_append_right (Nat.le_refl _), Nat.sub_self]
    rfl
  constructor
  · intro hk
    have hi : w.Unclosed i := mem_openings.1 (List.mem_of_getElem? hk)
    have hnodup : w.openings.Nodup := w.pairwise_openings.imp fun h => Nat.ne_of_lt h
    have hlt := (List.getElem?_eq_some_iff.1 (hget hi)).1
    exact ⟨hi, (List.getElem?_inj hlt hnodup).1 ((hget hi).trans hk.symm)⟩
  · rintro ⟨hi, rfl⟩
    exact hget hi

/-- An opening of a word has the same number in every start of the word that holds it. -/
theorem getElem?_openings_take {w : Word} {i k q : ℕ} (hk : w.openings[k]? = some i) (hq : i < q) :
    (openings (w.take q))[k]? = some i := by
  obtain ⟨hi, rfl⟩ := getElem?_openings_eq_some_iff.1 hk
  refine getElem?_openings_eq_some_iff.2 ⟨hi.take hq, ?_⟩
  rw [List.take_take, Nat.min_eq_left (Nat.le_of_lt hq)]

end Word

end GrowthGrammar
