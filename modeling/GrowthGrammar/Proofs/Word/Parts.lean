import GrowthGrammar.Proofs.Word.Openings

/-!
# The parts of a word between its openings

A word with a balance falls into well-nested parts, with the open markers between them that it
never closes: `Word.joinOpen` puts such a word together, and its openings stand where the parts meet
(`Word.openings_joinOpen`). A word that leaves `k` branches open has `k + 1` parts
(`Word.balance?_eq_some_iff`), which are found one by one, each up to the first opening of what is
left (`Word.exists_eq_append_of_balance?_eq_succ`). `Word.balance_tells_nesting` states what each
balance says about the nesting of a word, and how the balance of a word is made up of those of its
parts.
-/

namespace GrowthGrammar.Word

/-! ## Words put together by openings -/

/-- The word of some parts, with an open marker between any two that follow one another. -/
def joinOpen (parts : List Word) : Word := [Symbol.opening].intercalate parts

/-- The positions at which the parts of a word meet. -/
def separators : List Word → List ℕ
  | [] => []
  | [_] => []
  | p :: q :: parts => p.length :: (separators (q :: parts)).map (p.length + 1 + ·)

@[simp] theorem joinOpen_singleton (p : Word) : joinOpen [p] = p := List.intercalate_singleton

/-- A first part is followed by an open marker and the word of the other parts. -/
theorem joinOpen_cons {parts : List Word} (h : parts ≠ []) (p : Word) :
    joinOpen (p :: parts) = p ++ Symbol.opening :: joinOpen parts := by
  rw [joinOpen, List.intercalate_cons_of_ne_nil h, List.append_assoc]
  rfl

/-- Well-nested parts leave as many branches open as there are markers between them. -/
theorem balance?_joinOpen {parts : List Word} {k : ℕ} (hlength : parts.length = k + 1)
    (h : ∀ p ∈ parts, WellNested p) : (joinOpen parts).balance? = some k := by
  induction parts generalizing k with
  | nil => cases hlength
  | cons p parts ih =>
    obtain ⟨hp, hparts⟩ := List.forall_mem_cons.1 h
    have hzero : p.balance? = some 0 := wellNested_iff_balance?.1 hp
    cases k with
    | zero =>
      obtain rfl : parts = [] := List.length_eq_zero_iff.1 (Nat.succ.inj hlength)
      rw [joinOpen_singleton, hzero]
    | succ k =>
      have hlength' : parts.length = k + 1 := Nat.succ.inj hlength
      rw [joinOpen_cons (List.ne_nil_of_length_eq_add_one hlength'), balance?,
        balanceFrom?_append_of_some hzero, balanceFrom?_opening]
      exact balanceFrom?_add (ih hlength' hparts) 1

/-- A well-nested word has no openings. -/
theorem openings_of_wellNested {w : Word} (h : WellNested w) : w.openings = [] :=
  List.length_eq_zero_iff.1 (length_openings (wellNested_iff_balance?.1 h))

/-- The openings of well-nested parts that are put together are the markers between them. -/
theorem openings_joinOpen {parts : List Word} (h : ∀ p ∈ parts, WellNested p) :
    (joinOpen parts).openings = separators parts := by
  induction parts with
  | nil => rfl
  | cons p parts ih =>
    obtain ⟨hp, hparts⟩ := List.forall_mem_cons.1 h
    cases parts with
    | nil => rw [joinOpen_singleton, openings_of_wellNested hp]; rfl
    | cons q parts =>
      have hrest : (joinOpen (q :: parts)).balance? = some parts.length :=
        balance?_joinOpen rfl hparts
      have hopen : balance? (Symbol.opening :: joinOpen (q :: parts)) ≠ none := by
        rw [balance?, balanceFrom?_opening, balanceFrom?_add hrest 1]
        exact Option.some_ne_none _
      rw [joinOpen_cons (List.cons_ne_nil q parts), openings_append_of_balance? hopen,
        openings_of_wellNested hp, openings_opening, hrest, ih hparts, separators]
      simp [Function.comp_def, Nat.add_assoc]

/-! ## The parts of a word -/

/-- A word that leaves branches open is well nested up to the first of its openings, and behind it
leaves one branch less open. -/
theorem exists_eq_append_of_balance?_eq_succ {w : Word} {k : ℕ} (h : w.balance? = some (k + 1)) :
    ∃ u v : Word, WellNested u ∧ v.balance? = some k ∧ w = u ++ Symbol.opening :: v := by
  obtain ⟨j, later, hopenings⟩ := List.exists_cons_of_length_eq_add_one (length_openings h)
  have hfirst : w.openings[0]? = some j := by rw [hopenings]; rfl
  obtain ⟨hj, hbefore⟩ := getElem?_openings_eq_some_iff.1 hfirst
  obtain ⟨hopening, hafter⟩ := unclosed_iff.1 hj
  have hparts : w = w.take j ++ Symbol.opening :: w.drop (j + 1) := by
    obtain ⟨hlt, hget⟩ := List.getElem?_eq_some_iff.1 hopening
    rw [← hget, ← List.drop_eq_getElem_cons hlt, List.take_append_drop]
  -- no opening stands before the first one, so that the word closes there all that it opened
  have hzero : balance? (w.take j) = some 0 := by
    have hstart : balance? (w.take j) ≠ none := fun hnone => by
      cases (balance?_eq_none_of_take hnone).symm.trans h
    obtain ⟨m, hm⟩ := Option.ne_none_iff_exists'.1 hstart
    rw [hm, ← length_openings hm, hbefore]
  refine ⟨w.take j, w.drop (j + 1), wellNested_of_balance? hzero, ?_, hparts⟩
  obtain ⟨m, hm⟩ := Option.ne_none_iff_exists'.1 hafter
  rw [hparts, balance?, balanceFrom?_append_of_some hzero, balanceFrom?_opening,
    balanceFrom?_add hm 1] at h
  rw [hm, Nat.succ.inj (Option.some.inj h)]

/-- A word leaves `k` branches open exactly if it falls into `k + 1` well-nested parts, with an open
marker between any two that follow one another. -/
theorem balance?_eq_some_iff {w : Word} {k : ℕ} :
    w.balance? = some k ↔ ∃ parts : List Word,
      parts.length = k + 1 ∧ (∀ p ∈ parts, WellNested p) ∧ w = joinOpen parts := by
  constructor
  · intro h
    induction k generalizing w with
    | zero =>
      exact ⟨[w], rfl, List.forall_mem_singleton.2 (wellNested_of_balance? h),
        (joinOpen_singleton w).symm⟩
    | succ k ih =>
      obtain ⟨u, v, hu, hv, rfl⟩ := exists_eq_append_of_balance?_eq_succ h
      obtain ⟨parts, hlength, hparts, rfl⟩ := ih hv
      refine ⟨u :: parts, congrArg (· + 1) hlength, List.forall_mem_cons.2 ⟨hu, hparts⟩, ?_⟩
      rw [joinOpen_cons (List.ne_nil_of_length_eq_add_one hlength)]
  · rintro ⟨parts, hlength, hparts, rfl⟩
    exact balance?_joinOpen hlength hparts

/-! ## Counting from a depth -/

theorem balanceFrom?_replicate_opening (d n : ℕ) :
    balanceFrom? d (List.replicate n Symbol.opening) = some (d + n) := by
  induction n generalizing d with
  | zero => rfl
  | succ n ih => rw [List.replicate_succ, balanceFrom?_opening, ih, Nat.succ_add_eq_add_succ]

/-- To count from a depth is to count behind so many open markers. -/
theorem balanceFrom?_eq_balance? (d : ℕ) (w : Word) :
    balanceFrom? d w = balance? (List.replicate d Symbol.opening ++ w) := by
  rw [balance?, balanceFrom?_append_of_some (balanceFrom?_replicate_opening 0 d), Nat.zero_add]

/-- The balance of a word tells how the word is nested. It is zero exactly for the well-nested
words. It is `k` exactly for the words that fall into `k + 1` well-nested parts with open markers
between them, and these markers are then the branches that the word never closes. There is none
exactly if the word closes a branch that it never opened, behind a well-nested start. The balance of
one word behind another is that of the second one, counted from the depth at which the first one
ends, which is to count behind so many open markers; if the first one has no balance, both together
have none. -/
theorem balance_tells_nesting (w : Word) :
    (w.balance? = some 0 ↔ WellNested w) ∧
    (∀ k, w.balance? = some k ↔ ∃ parts : List Word,
      parts.length = k + 1 ∧ (∀ p ∈ parts, WellNested p) ∧ w = joinOpen parts) ∧
    (∀ parts : List Word, (∀ p ∈ parts, WellNested p) → w = joinOpen parts →
      w.openings = separators parts) ∧
    (w.balance? = none ↔ ∃ body rest, WellNested body ∧ w = body ++ Symbol.closing :: rest) ∧
    (w.balance? = none → ∀ v, balance? (w ++ v) = none) ∧
    ∀ d, w.balance? = some d → ∀ v, balance? (w ++ v) = balanceFrom? d v ∧
      balanceFrom? d v = balance? (List.replicate d Symbol.opening ++ v) := by
  refine ⟨wellNested_iff_balance?.symm, fun _ => balance?_eq_some_iff, ?_, balance?_eq_none_iff,
    balanceFrom?_append_of_none, fun d hd v => ?_⟩
  · rintro parts hparts rfl
    exact openings_joinOpen hparts
  · exact ⟨balanceFrom?_append_of_some hd v, balanceFrom?_eq_balance? d v⟩

/-- The word `A[B[][C` leaves two branches open, at the places where its three parts meet. -/
example : joinOpen [['A'], ['B', '[', ']'], ['C']] = ['A', '[', 'B', '[', ']', '[', 'C'] ∧
    separators [['A'], ['B', '[', ']'], ['C']] = [1, 5] ∧
    balance? ['A', '[', 'B', '[', ']', '[', 'C'] = some 2 := by decide

end GrowthGrammar.Word
