import GrowthGrammar.Word.Nesting
import Mathlib.Logic.ExistsUnique

/-!
# The balance of parts of a word

The balance of a word is that of its first part followed by that of its second part, counted from
where the first one ends (`Word.balanceFrom?_append`), and it does not see branches that are open
around the word (`Word.balanceFrom?_add`). A word without a balance has exactly one place where it
first closes a branch that it never opened (`Word.existsUnique_closesUnopened`). Words of trees are
balanced, a word has at most one tree (`Branching.word_injective`), and the words of balance zero
are the well-nested ones (`wellNested_iff_balance?`).
-/

namespace GrowthGrammar

/-- A symbol is one of the two markers or no marker. -/
theorem Symbol.marker_cases (c : Symbol) :
    c = opening ∨ c = closing ∨ isMarker c = false := by
  by_cases h : isMarker c = true
  · exact (isMarker_iff.1 h).imp_right .inl
  · exact .inr (.inr (Bool.eq_false_iff.2 h))

/-- A symbol that is no marker does not open a branch. -/
theorem Symbol.ne_opening {c : Symbol} (h : isMarker c = false) : c ≠ opening := by
  rintro rfl; cases h

/-- A symbol that is no marker does not close a branch. -/
theorem Symbol.ne_closing {c : Symbol} (h : isMarker c = false) : c ≠ closing := by
  rintro rfl; cases h

namespace Word

/-! ## One symbol at a time -/

/-- Induction on a word by what its first symbol does to the branches: it opens one, closes one, or
is no marker. -/
@[elab_as_elim]
theorem markerInduction {motive : Word → Prop} (nil : motive [])
    (opening : ∀ w, motive w → motive (Symbol.opening :: w))
    (closing : ∀ w, motive w → motive (Symbol.closing :: w))
    (symbol : ∀ c w, Symbol.isMarker c = false → motive w → motive (c :: w)) :
    ∀ w, motive w
  | [] => nil
  | c :: w => by
    have ih := markerInduction nil opening closing symbol w
    rcases Symbol.marker_cases c with rfl | rfl | hc
    · exact opening w ih
    · exact closing w ih
    · exact symbol c w hc ih

@[simp] theorem balanceFrom?_nil (d : Nat) : balanceFrom? d [] = some d := rfl

@[simp] theorem balanceFrom?_opening (d : Nat) (w : Word) :
    balanceFrom? d (Symbol.opening :: w) = balanceFrom? (d + 1) w := rfl

@[simp] theorem balanceFrom?_closing_zero (w : Word) :
    balanceFrom? 0 (Symbol.closing :: w) = none := rfl

@[simp] theorem balanceFrom?_closing_succ (d : Nat) (w : Word) :
    balanceFrom? (d + 1) (Symbol.closing :: w) = balanceFrom? d w := rfl

/-- A symbol that is no marker leaves the count as it is. -/
theorem balanceFrom?_symbol {c : Symbol} (h : Symbol.isMarker c = false) (d : Nat) (w : Word) :
    balanceFrom? d (c :: w) = balanceFrom? d w := by
  simp only [balanceFrom?, Symbol.ne_opening h, Symbol.ne_closing h, if_false]

/-! ## Parts of a word -/

/-- The count of a word goes on where the count of its first part ends. -/
theorem balanceFrom?_append (d : Nat) (u v : Word) :
    balanceFrom? d (u ++ v) = (balanceFrom? d u).bind (balanceFrom? · v) := by
  induction u using markerInduction generalizing d with
  | nil => rfl
  | opening u ih => exact ih (d + 1)
  | closing u ih =>
    cases d with
    | zero => rfl
    | succ d => exact ih d
  | symbol c u hc ih => simp only [List.cons_append, balanceFrom?_symbol hc, ih]

/-- A first part without a balance leaves the whole without one. -/
theorem balanceFrom?_append_of_none {d : Nat} {u : Word} (h : balanceFrom? d u = none) (v : Word) :
    balanceFrom? d (u ++ v) = none := by
  simp [balanceFrom?_append, h]

/-- The count of a word from a known count of its first part on. -/
theorem balanceFrom?_append_of_some {d k : Nat} {u : Word} (h : balanceFrom? d u = some k)
    (v : Word) : balanceFrom? d (u ++ v) = balanceFrom? k v := by
  simp [balanceFrom?_append, h]

/-- Branches that are open around a balanced word stay open. -/
theorem balanceFrom?_add {d k : Nat} {w : Word} (h : balanceFrom? d w = some k) (n : Nat) :
    balanceFrom? (d + n) w = some (k + n) := by
  induction w using markerInduction generalizing d with
  | nil => cases h; rfl
  | opening w ih =>
    rw [balanceFrom?_opening, show d + n + 1 = d + 1 + n by omega]
    exact ih h
  | closing w ih =>
    cases d with
    | zero => cases h
    | succ d =>
      rw [show d + 1 + n = d + n + 1 by omega, balanceFrom?_closing_succ]
      exact ih h
  | symbol c w hc ih =>
    rw [balanceFrom?_symbol hc] at h ⊢
    exact ih h

/-- A word that closes all that it opens, and no more, leaves every count as it is. -/
theorem balanceFrom?_of_balance?_zero {w : Word} (h : w.balance? = some 0) (d : Nat) :
    balanceFrom? d w = some d := by
  simpa using balanceFrom?_add h d

/-- A word that closes all that it opens can be left out of a word. -/
theorem balanceFrom?_balanced_append {u : Word} (h : u.balance? = some 0) (d : Nat) (v : Word) :
    balanceFrom? d (u ++ v) = balanceFrom? d v :=
  balanceFrom?_append_of_some (balanceFrom?_of_balance?_zero h d) v

/-! ## The first close without an open -/

/-- The word closes, at the given position, a branch that it never opened, and does so for the first
time: all branches before it are closed. -/
structure ClosesUnopened (w : Word) (position : Nat) : Prop where
  closing : w[position]? = some Symbol.closing
  before : balance? (w.take position) = some 0
  after : balance? (w.take (position + 1)) = none

/-- A start without a balance leaves the whole without one. -/
theorem balance?_eq_none_of_take {w : Word} {n : Nat} (h : balance? (w.take n) = none) :
    w.balance? = none := by
  have := balanceFrom?_append_of_none h (w.drop n)
  rwa [List.take_append_drop] at this

/-- If a start of a word has no balance, a longer start has none either. -/
theorem balance?_take_eq_none_of_le {w : Word} {m n : Nat} (h : balance? (w.take m) = none)
    (hmn : m ≤ n) : balance? (w.take n) = none := by
  refine balance?_eq_none_of_take (n := m) ?_
  rwa [List.take_take, Nat.min_eq_left hmn]

/-- A word without a balance has a place where its count falls below zero. -/
theorem exists_closing_of_balanceFrom?_eq_none {d : Nat} {w : Word} (h : balanceFrom? d w = none) :
    ∃ p : Nat, w[p]? = some Symbol.closing ∧ balanceFrom? d (w.take p) = some 0 := by
  induction w using markerInduction generalizing d with
  | nil => cases h
  | opening w ih =>
    obtain ⟨p, hp, hb⟩ := ih h
    exact ⟨p + 1, hp, hb⟩
  | closing w ih =>
    cases d with
    | zero => exact ⟨0, rfl, rfl⟩
    | succ d =>
      obtain ⟨p, hp, hb⟩ := ih h
      exact ⟨p + 1, hp, hb⟩
  | symbol c w hc ih =>
    rw [balanceFrom?_symbol hc] at h
    obtain ⟨p, hp, hb⟩ := ih h
    exact ⟨p + 1, hp, by rw [List.take_succ_cons, balanceFrom?_symbol hc, hb]⟩

/-- A close at the count zero ends the balance. -/
theorem balanceFrom?_take_succ_of_closing {d p : Nat} {w : Word}
    (hp : w[p]? = some Symbol.closing) (hb : balanceFrom? d (w.take p) = some 0) :
    balanceFrom? d (w.take (p + 1)) = none := by
  rw [List.take_add_one, hp, balanceFrom?_append_of_some hb]
  rfl

/-- A word without a balance has exactly one first close without an open. -/
theorem existsUnique_closesUnopened {w : Word} (h : w.balance? = none) :
    ∃! p, w.ClosesUnopened p := by
  obtain ⟨p, hp, hb⟩ := exists_closing_of_balanceFrom?_eq_none h
  refine ⟨p, ⟨hp, hb, balanceFrom?_take_succ_of_closing hp hb⟩, fun q hq => ?_⟩
  have hpn : balance? (w.take (p + 1)) = none := balanceFrom?_take_succ_of_closing hp hb
  -- of two such places the start up to the later one would have no balance and the balance zero
  rcases Nat.lt_trichotomy q p with hlt | rfl | hlt
  · have hn := balance?_take_eq_none_of_le hq.after hlt
    cases hn.symm.trans hb
  · rfl
  · have hn := balance?_take_eq_none_of_le hpn hlt
    cases hn.symm.trans hq.before

/-- A word without a balance has a first close without an open, with a start of balance zero before
it. -/
theorem exists_eq_append_of_balance?_eq_none {w : Word} (h : w.balance? = none) :
    ∃ body rest, body.balance? = some 0 ∧ w = body ++ Symbol.closing :: rest := by
  obtain ⟨p, hp, -⟩ := existsUnique_closesUnopened h
  obtain ⟨hlt, hclosing⟩ := List.getElem?_eq_some_iff.1 hp.closing
  refine ⟨w.take p, w.drop (p + 1), hp.before, ?_⟩
  rw [← hclosing, ← List.drop_eq_getElem_cons hlt, List.take_append_drop]

end Word

/-! ## Words of trees -/

namespace Branching

/-- The word of a tree closes all that it opens, and no more. -/
theorem balanceFrom?_word (b : Branching) (d : Nat) : Word.balanceFrom? d b.word = some d := by
  induction b generalizing d with
  | done => rfl
  | symbol c hc rest ih => rw [word, Word.balanceFrom?_symbol hc, ih]
  | branch body rest ih₁ ih₂ =>
    rw [word, Word.balanceFrom?_opening, Word.balanceFrom?_append_of_some (ih₁ (d + 1)),
      Word.balanceFrom?_closing_succ, ih₂]

/-- The word of a tree can be told from what stands behind the close that ends it. -/
theorem word_append_closing_inj {b b' : Branching} {u u' : Word}
    (h : b.word ++ Symbol.closing :: u = b'.word ++ Symbol.closing :: u') : b = b' ∧ u = u' := by
  induction b generalizing b' u u' with
  | done =>
    cases b' with
    | done => exact ⟨rfl, (List.cons.inj h).2⟩
    | symbol c hc rest => exact absurd (List.cons.inj h).1.symm (Symbol.ne_closing hc)
    | branch body rest => exact absurd (List.cons.inj h).1.symm Symbol.opening_ne_closing
  | symbol c hc rest ih =>
    cases b' with
    | done => exact absurd (List.cons.inj h).1 (Symbol.ne_closing hc)
    | symbol c' hc' rest' =>
      obtain ⟨rfl, hrest⟩ := List.cons.inj h
      obtain ⟨rfl, rfl⟩ := ih hrest
      exact ⟨rfl, rfl⟩
    | branch body rest => exact absurd (List.cons.inj h).1 (Symbol.ne_opening hc)
  | branch body rest ih₁ ih₂ =>
    cases b' with
    | done => exact absurd (List.cons.inj h).1 Symbol.opening_ne_closing
    | symbol c' hc' rest' => exact absurd (List.cons.inj h).1.symm (Symbol.ne_opening hc')
    | branch body' rest' =>
      simp only [word, List.cons_append, List.append_assoc, List.cons.injEq, true_and] at h
      obtain ⟨rfl, hrest⟩ := ih₁ h
      obtain ⟨rfl, rfl⟩ := ih₂ hrest
      exact ⟨rfl, rfl⟩

/-- A word has at most one tree. -/
theorem word_injective : Function.Injective word := by
  intro b b' h
  have hclosing : b.word ++ Symbol.closing :: [] = b'.word ++ Symbol.closing :: [] := by rw [h]
  exact (word_append_closing_inj hclosing).1

end Branching

/-! ## Well-nested words -/

/-- A word that closes all that it opens, and no more, is well nested. The induction is on the
length: a word that starts with a branch is cut where this branch is closed. -/
theorem wellNested_of_balance? {w : Word} (h : w.balance? = some 0) : WellNested w := by
  induction hn : w.length using Nat.strongRecOn generalizing w with
  | ind n ih =>
    subst hn
    cases w with
    | nil => exact .nil
    | cons c w =>
      rcases Symbol.marker_cases c with rfl | rfl | hc
      · have hnone : Word.balance? w = none := by
          refine Option.eq_none_iff_forall_ne_some.2 fun k hk => ?_
          cases (Word.balanceFrom?_add hk 1).symm.trans h
        obtain ⟨body, rest, hbody, rfl⟩ := Word.exists_eq_append_of_balance?_eq_none hnone
        have hrest : Word.balance? rest = some 0 := by
          rw [Word.balance?, Word.balanceFrom?_opening,
            Word.balanceFrom?_append_of_some (Word.balanceFrom?_of_balance?_zero hbody _)] at h
          exact h
        have hlength : body.length < (Symbol.opening :: (body ++ Symbol.closing :: rest)).length ∧
            rest.length < (Symbol.opening :: (body ++ Symbol.closing :: rest)).length := by
          simp only [List.length_cons, List.length_append]
          omega
        exact .branch (ih _ hlength.1 hbody rfl) (ih _ hlength.2 hrest rfl)
      · cases h
      · rw [Word.balance?, Word.balanceFrom?_symbol hc] at h
        exact .symbol hc (ih _ (Nat.lt_succ_self _) h rfl)

/-- A word is well nested exactly if it closes all that it opens, and no more. -/
theorem wellNested_iff_balance? {w : Word} : WellNested w ↔ w.balance? = some 0 := by
  refine ⟨fun h => ?_, wellNested_of_balance?⟩
  obtain ⟨b, rfl⟩ := wellNested_iff.1 h
  exact b.balanceFrom?_word 0

instance (w : Word) : Decidable (WellNested w) := decidable_of_iff _ wellNested_iff_balance?.symm

/-- A word has no balance exactly if it closes a branch that it never opened, behind a well-nested
start. -/
theorem Word.balance?_eq_none_iff {w : Word} :
    w.balance? = none ↔ ∃ body rest, WellNested body ∧ w = body ++ Symbol.closing :: rest := by
  constructor
  · intro h
    obtain ⟨body, rest, hbody, hw⟩ := exists_eq_append_of_balance?_eq_none h
    exact ⟨body, rest, wellNested_of_balance? hbody, hw⟩
  · rintro ⟨body, rest, hbody, rfl⟩
    exact Word.balanceFrom?_balanced_append (wellNested_iff_balance?.1 hbody) 0 _

end GrowthGrammar
