import GrowthGrammar.Proofs.Word.Balance
import Mathlib.Order.Bounds.Basic

/-!
# The depth of parts of a word

The depth of a word is counted through its parts: behind a first part the count goes on from the
branches that this part leaves open (`Word.maxDepthFrom_append`), and branches that are open around
a word add to its depth (`Word.maxDepthFrom_add`). So a part that closes all that it opens can be
left out of a word, if its own depth is not (`Word.maxDepthFrom_balanced_append`). For balanced
words this makes laws of their own (`Word.Nests`): the deeper part counts, and a branch adds one.
The depth of a word that has a balance is the greatest balance of its starts
(`Word.isGreatest_reached`), although it is counted without looking for a close too many.
-/

namespace GrowthGrammar.Word

/-! ## One symbol at a time -/

@[simp] theorem maxDepthFrom_nil (d peak : Nat) : maxDepthFrom d peak [] = peak := rfl

@[simp] theorem maxDepthFrom_opening (d peak : Nat) (w : Word) :
    maxDepthFrom d peak (Symbol.opening :: w) = maxDepthFrom (d + 1) (max peak (d + 1)) w := rfl

@[simp] theorem maxDepthFrom_closing (d peak : Nat) (w : Word) :
    maxDepthFrom d peak (Symbol.closing :: w) = maxDepthFrom (d - 1) peak w := rfl

/-- A symbol that is no marker does not go deeper. -/
theorem maxDepthFrom_symbol {c : Symbol} (h : Symbol.isMarker c = false) (d peak : Nat) (w : Word) :
    maxDepthFrom d peak (c :: w) = maxDepthFrom d peak w := by
  simp only [maxDepthFrom, Symbol.ne_opening h, Symbol.ne_closing h, if_false]

/-- What was reached before a word is compared with the depths that the word reaches, and has no
other influence. -/
theorem maxDepthFrom_max (d p q : Nat) (w : Word) :
    maxDepthFrom d (max p q) w = max p (maxDepthFrom d q w) := by
  induction w using markerInduction generalizing d q with
  | nil => rfl
  | opening w ih => rw [maxDepthFrom_opening, maxDepthFrom_opening, Nat.max_assoc, ih]
  | closing w ih => exact ih (d - 1) q
  | symbol c w hc ih => rw [maxDepthFrom_symbol hc, maxDepthFrom_symbol hc, ih]

/-! ## Parts of a word -/

/-- The depth of a word goes on where its first part ends. -/
theorem maxDepthFrom_append {d k : Nat} {u : Word} (h : balanceFrom? d u = some k) (peak : Nat)
    (v : Word) : maxDepthFrom d peak (u ++ v) = maxDepthFrom k (maxDepthFrom d peak u) v := by
  induction u using markerInduction generalizing d peak with
  | nil =>
    cases h
    rfl
  | opening u ih => exact ih h (max peak (d + 1))
  | closing u ih =>
    cases d with
    | zero => cases h
    | succ d => exact ih h peak
  | symbol c u hc ih =>
    rw [balanceFrom?_symbol hc] at h
    rw [List.cons_append, maxDepthFrom_symbol hc, maxDepthFrom_symbol hc, ih h]

/-- Branches that are open around a word make it so much deeper, if the word closes none of them. -/
theorem maxDepthFrom_add {d k : Nat} {w : Word} (h : balanceFrom? d w = some k) (peak n : Nat) :
    maxDepthFrom (d + n) (peak + n) w = maxDepthFrom d peak w + n := by
  induction w using markerInduction generalizing d peak with
  | nil => rfl
  | opening w ih =>
    rw [maxDepthFrom_opening, maxDepthFrom_opening, ← ih h, Nat.add_right_comm d n 1,
      Nat.add_max_add_right]
  | closing w ih =>
    cases d with
    | zero => cases h
    | succ d =>
      rw [maxDepthFrom_closing, maxDepthFrom_closing, Nat.add_right_comm d 1 n]
      exact ih h peak
  | symbol c w hc ih =>
    rw [balanceFrom?_symbol hc] at h
    rw [maxDepthFrom_symbol hc, maxDepthFrom_symbol hc, ih h]

/-- A word that closes all that it opens reaches its own depth inside the branches around it, and
leaves the count as it was. -/
theorem maxDepthFrom_balanced_append {u : Word} (h : u.balance? = some 0) {d peak : Nat}
    (hd : d ≤ peak) (v : Word) :
    maxDepthFrom d peak (u ++ v) = maxDepthFrom d (max peak (u.maxDepth + d)) v := by
  have hinside : maxDepthFrom d peak u = max peak (u.maxDepth + d) := by
    have hadd := maxDepthFrom_add h 0 d
    rw [Nat.zero_add] at hadd
    calc maxDepthFrom d peak u = maxDepthFrom d (max peak d) u := by rw [Nat.max_eq_left hd]
      _ = max peak (maxDepthFrom d d u) := maxDepthFrom_max d peak d u
      _ = max peak (u.maxDepth + d) := by rw [hadd]; rfl
  rw [maxDepthFrom_append (balanceFrom?_of_balance?_zero h d), hinside]

/-! ## The balances of starts -/

/-- The depths that a word reaches from a depth on: the counts of its starts. -/
def reached (d : Nat) (w : Word) : Set Nat := {k | ∃ u, u <+: w ∧ balanceFrom? d u = some k}

@[simp] theorem reached_nil (d : Nat) : reached d [] = {d} := by
  ext k
  constructor
  · rintro ⟨u, hu, hk⟩
    rw [List.prefix_nil.1 hu, balanceFrom?_nil] at hk
    exact (Option.some.inj hk).symm
  · rintro rfl
    exact ⟨[], List.nil_prefix, rfl⟩

/-- Behind a first symbol that leads from one depth to another, the rest of a word reaches the
depths that it reaches from there. -/
theorem reached_cons {d e : Nat} {c : Symbol}
    (h : ∀ u, balanceFrom? d (c :: u) = balanceFrom? e u) (w : Word) :
    reached d (c :: w) = insert d (reached e w) := by
  ext k
  constructor
  · rintro ⟨u, hu, hk⟩
    rcases List.prefix_cons_iff.1 hu with rfl | ⟨v, rfl, hv⟩
    · exact .inl (Option.some.inj hk).symm
    · rw [h] at hk
      exact .inr ⟨v, hv, hk⟩
  · rintro (rfl | ⟨v, hv, hk⟩)
    · exact ⟨[], List.nil_prefix, rfl⟩
    · exact ⟨c :: v, List.prefix_cons_iff.2 (.inr ⟨v, rfl, hv⟩), (h v).trans hk⟩

/-- The depth of a word that has a balance is the greatest of the depths that it reaches. The
induction is on the word: behind each symbol the depth before it is put beside those reached from
there. -/
theorem isGreatest_reached {d k : Nat} {w : Word} (h : balanceFrom? d w = some k) :
    IsGreatest (reached d w) (maxDepthFrom d d w) := by
  induction w using markerInduction generalizing d with
  | nil => simp
  | opening w ih =>
    rw [reached_cons (e := d + 1) (balanceFrom?_opening d), maxDepthFrom_opening,
      maxDepthFrom_max (d + 1) d (d + 1)]
    exact (ih h).insert d
  | closing w ih =>
    cases d with
    | zero => cases h
    | succ d =>
      have hpeak : maxDepthFrom d (d + 1) w = max (d + 1) (maxDepthFrom d d w) := by
        rw [← maxDepthFrom_max, Nat.max_eq_left (Nat.le_succ d)]
      rw [reached_cons (e := d) (balanceFrom?_closing_succ d), maxDepthFrom_closing,
        Nat.add_sub_cancel, hpeak]
      exact (ih h).insert (d + 1)
  | symbol c w hc ih =>
    rw [balanceFrom?_symbol hc] at h
    have hpeak : maxDepthFrom d d w = max d (maxDepthFrom d d w) := by
      rw [← maxDepthFrom_max, Nat.max_self]
    rw [reached_cons (e := d) (balanceFrom?_symbol hc d), maxDepthFrom_symbol hc, hpeak]
    exact (ih h).insert d

/-! ## Words of a known depth -/

/-- The word closes all that it opens, and no more, and its branches nest so deeply. -/
structure Nests (w : Word) (depth : Nat) : Prop where
  balance? : w.balance? = some 0
  maxDepth : w.maxDepth = depth

variable {u v body : Word} {d e : Nat}

theorem nests_nil : Nests [] 0 := ⟨rfl, rfl⟩

/-- A symbol that is no marker does not nest. -/
theorem Nests.symbol {c : Symbol} (hc : Symbol.isMarker c = false) (h : u.Nests d) :
    Nests (c :: u) d where
  balance? := (balanceFrom?_symbol hc 0 u).trans h.balance?
  maxDepth := (maxDepthFrom_symbol hc 0 0 u).trans h.maxDepth

/-- Of two words one after the other the deeper one counts. -/
theorem Nests.append (hu : u.Nests d) (hv : v.Nests e) : Nests (u ++ v) (max d e) where
  balance? := (balanceFrom?_balanced_append hu.balance? 0 v).trans hv.balance?
  maxDepth := by
    have happend := maxDepthFrom_balanced_append hu.balance? (Nat.le_refl 0) v
    rw [Nat.add_zero, Nat.max_comm, maxDepthFrom_max, hu.maxDepth] at happend
    rw [Word.maxDepth, happend]
    exact congrArg (max d) hv.maxDepth

/-- A branch nests one deeper than its inside. -/
theorem Nests.branch (hbody : body.Nests d) :
    Nests (Symbol.opening :: (body ++ [Symbol.closing])) (d + 1) where
  balance? := by
    rw [Word.balance?, balanceFrom?_opening, balanceFrom?_balanced_append hbody.balance?]
    rfl
  maxDepth := by
    have hinside := maxDepthFrom_balanced_append hbody.balance? (Nat.le_refl 1) [Symbol.closing]
    rw [hbody.maxDepth, Nat.max_eq_right (Nat.le_add_left 1 d)] at hinside
    exact hinside

end GrowthGrammar.Word
