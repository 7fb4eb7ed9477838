import GrowthGrammar.Proofs.Walk.Stack
import Mathlib.Data.List.Find
import Mathlib.Data.List.Sort

/-!
# Jumps between two visits

Between two visits that follow one another a walk passes markers only, and a close can take it back
to an earlier state. `Word.firstClosed?` finds the outermost branch that is open at the first visit
and closed before the second one. If there is none the second instruction runs on the state of the
first visit, and otherwise on the context from before that branch (`consecutive_visits`). Two visits
of one depth can be parted by such a jump, for a branch may be closed and another one opened beside
it: the depth shows no jump there (`consecutive_visits_of_siblings`).
-/

namespace GrowthGrammar

/-! ## Branches closed between two positions -/

namespace Word

/-- The outermost branch that is open at one position and not at another: the place where the word
opens it. -/
def firstClosed? (w : Word) (p q : Nat) : Option Nat :=
  (openings (w.take p)).find? (· ∉ openings (w.take q))

/-- The first branch is closed before the second symbol, though another one is open there. -/
example : firstClosed? ['[', 'A', ']', '[', 'B', ']'] 1 4 = some 0 := by decide

theorem firstClosed?_eq_none_iff {w : Word} {p q : Nat} :
    w.firstClosed? p q = none ↔ openings (w.take p) ⊆ openings (w.take q) := by
  simp [firstClosed?, List.subset_def]

/-- No branch is closed where nothing lies between. -/
theorem firstClosed?_self (w : Word) (p : Nat) : w.firstClosed? p p = none :=
  firstClosed?_eq_none_iff.2 (List.Subset.refl _)

/-- A further opening closes nothing. -/
theorem firstClosed?_succ_of_opening {w : Word} {p q : Nat} (hpq : p ≤ q)
    (hq : w[q]? = some Symbol.opening) : w.firstClosed? p (q + 1) = w.firstClosed? p q := by
  have hlt : q < w.length := (List.getElem?_eq_some_iff.1 hq).1
  refine List.find?_congr fun i hi => ?_
  have hip : i < p :=
    Nat.lt_of_lt_of_le (mem_openings.1 hi).lt_length (List.length_take_le p w)
  have hne : i ≠ q := Nat.ne_of_lt (Nat.lt_of_lt_of_le hip hpq)
  simp [List.take_add_one, hq, openings_append_opening, List.length_take_of_le (Nat.le_of_lt hlt),
    hne]

/-- Behind the close of a branch the openings are those from before it, so no branch further out is
closed. -/
theorem firstClosed?_eq_some {w : Word} {p q j : Nat} (hj : j ∈ openings (w.take p))
    (hq : openings (w.take q) = openings (w.take j)) : w.firstClosed? p q = some j := by
  obtain ⟨later, hlater⟩ := openings_of_unclosed (mem_openings.1 hj)
  have hjp : j < p :=
    Nat.lt_of_lt_of_le (mem_openings.1 hj).lt_length (List.length_take_le p w)
  rw [List.take_take, Nat.min_eq_left (Nat.le_of_lt hjp)] at hlater
  have hself : j ∉ openings (w.take j) := fun hmem =>
    Nat.not_lt_of_le (List.length_take_le j w) (mem_openings.1 hmem).lt_length
  have hbefore : (openings (w.take j)).find? (· ∉ openings (w.take j)) = none := by simp
  rw [firstClosed?, hlater, hq, List.find?_append, hbefore, Option.none_or,
    List.find?_cons_of_pos (by simpa using hself)]

/-- Of two words with as many branches open, the openings of one are those of the other as soon as
they are among them. -/
theorem openings_eq_of_subset {u w : Word} (h : u.openings ⊆ w.openings)
    (hlength : u.openings.length = w.openings.length) : u.openings = w.openings := by
  have hnodup : u.openings.Nodup := u.pairwise_openings.imp fun h => Nat.ne_of_lt h
  have hperm := (List.subperm_of_subset hnodup h).perm_of_length_le (Nat.le_of_eq hlength.symm)
  refine hperm.eq_of_pairwise (fun i j _ _ hij hji => ?_) u.pairwise_openings w.pairwise_openings
  exact absurd hij (Nat.lt_asymm hji)

/-- Where as many branches are open as before, none is closed exactly if the same ones are open. -/
theorem firstClosed?_eq_none_iff_of_length {w : Word} {p q : Nat}
    (h : (openings (w.take p)).length = (openings (w.take q)).length) :
    w.firstClosed? p q = none ↔ openings (w.take p) = openings (w.take q) := by
  rw [firstClosed?_eq_none_iff]
  exact ⟨fun hsubset => openings_eq_of_subset hsubset h, fun heq => heq ▸ List.Subset.refl _⟩

/-- A symbol that is no marker closes nothing. -/
theorem firstClosed?_succ_left {w : Word} {p q : Nat} {c : Symbol} (hp : w[p]? = some c)
    (hc : Symbol.isMarker c = false) : w.firstClosed? (p + 1) q = w.firstClosed? p q := by
  rw [firstClosed?, openings_take_succ_of_symbol hp hc, firstClosed?]

/-- Only markers stand between two positions of the word. -/
def OnlyMarkers (w : Word) (p q : Nat) : Prop :=
  ∀ i, p ≤ i → i < q → ∃ c, w[i]? = some c ∧ Symbol.isMarker c = true

end Word

variable {ρ S : Type} {table : InstructionTable ρ S} {m next : Walker ρ S}

namespace Walker

/-! ## Where markers lead -/

/-- Behind markers the walk is back at the outermost branch that they close, or still where it was
if they close none. The induction is on the place behind the markers: a close goes back to a place
before it. -/
theorem current_eq_firstClosed (h : m.stack = []) {w : Word} {p q : Nat} (hpq : p ≤ q)
    (hmarkers : w.OnlyMarkers p q) (hq : m.through? table (w.take q) = some next) :
    some next.current = m.currentAt? table w ((w.firstClosed? p q).getD p) := by
  induction q using Nat.strongRecOn generalizing next with
  | ind q ih =>
    rcases Nat.eq_or_lt_of_le hpq with rfl | hlt
    · rw [Word.firstClosed?_self, currentAt?, Option.getD_none, hq]
      rfl
    · obtain ⟨q, rfl⟩ := Nat.exists_eq_add_of_le' (Nat.zero_lt_of_lt hlt)
      have hpq : p ≤ q := Nat.le_of_lt_succ hlt
      obtain ⟨c, hc, hmarker⟩ := hmarkers q hpq q.lt_succ_self
      have ih : ∀ j, p ≤ j → j ≤ q → ∀ {earlier}, m.through? table (w.take j) = some earlier →
          some earlier.current = m.currentAt? table w ((w.firstClosed? p j).getD p) :=
        fun j hpj hjq => ih j (Nat.lt_succ_of_le hjq) hpj
          fun i hpi hij => hmarkers i hpi (by omega)
      rcases Symbol.isMarker_iff.1 hmarker with rfl | rfl
      · rw [through?_take_succ table m hc] at hq
        obtain ⟨last, hlast, hstep⟩ := Option.bind_eq_some_iff.1 hq
        cases hstep
        rw [Word.firstClosed?_succ_of_opening hpq hc]
        have hcurrent := ih q hpq (Nat.le_refl q) hlast
        exact hcurrent
      · obtain ⟨j, hjq, hj, hback⟩ := exists_currentAt?_of_closing h hc hq
        have hopenings := Word.openings_take_succ_of_closing hc hj
        rw [← hback]
        by_cases hjp : j < p
        · -- the branch was open before the markers, so it is the outermost one that they close
          have hopen : j ∈ Word.openings (w.take p) := by
            have hunclosed := (Word.mem_openings.1 (List.mem_of_getLast? hj)).take hjp
            rw [List.take_take, Nat.min_eq_left hpq] at hunclosed
            exact Word.mem_openings.2 hunclosed
          rw [Word.firstClosed?_eq_some hopen hopenings]
          rfl
        · -- the branch was opened by the markers, and what they did before it still holds
          obtain ⟨earlier, hearlier⟩ := exists_through?_take table m hq j
          rw [List.take_take, Nat.min_eq_left (by omega)] at hearlier
          have hfirst : w.firstClosed? p (q + 1) = w.firstClosed? p j := by
            rw [Word.firstClosed?, Word.firstClosed?, hopenings]
          rw [hfirst, ← ih j (by omega) (by omega) hearlier, currentAt?, hearlier]
          rfl

/-- Behind a symbol and markers the walk is back at the outermost branch around the symbol that the
markers close, or it goes on from the symbol if they close none. -/
theorem current_behind_symbol (h : m.stack = []) {w : Word} {p q : Nat} {c : Symbol}
    (hp : w[p]? = some c) (hc : Symbol.isMarker c = false) (hpq : p < q)
    (hmarkers : w.OnlyMarkers (p + 1) q) {last : Walker ρ S}
    (hlast : m.through? table (w.take p) = some last)
    (hq : m.through? table (w.take q) = some next) :
    some next.current =
      (w.firstClosed? p q).elim (some (last.advance table c).current) (m.currentAt? table w) := by
  have hafter : m.through? table (w.take (p + 1)) = some (last.advance table c) := by
    rw [through?_take_succ table m hp, hlast, Option.bind_some, step?_symbol table last hc]
  have hcurrent := current_eq_firstClosed h hpq hmarkers hq
  rw [Word.firstClosed?_succ_left hp hc] at hcurrent
  cases hfirst : w.firstClosed? p q with
  | none =>
    rw [hcurrent, hfirst, Option.getD_none, currentAt?, hafter]
    rfl
  | some i =>
    rw [hcurrent, hfirst]
    rfl

/-! ## Calls in their order -/

/-- The calls of a walk come in the order of their positions. -/
theorem pairwise_calls (table : InstructionTable ρ S) (m : Walker ρ S) (position : Nat) (w : Word) :
    (m.calls table position w).Pairwise fun call later => call.2.position < later.2.position := by
  induction w generalizing m position with
  | nil => exact .nil
  | cons c w ih =>
    cases hstep : m.step? table c with
    | none =>
      rw [calls, hstep]
      exact .nil
    | some next =>
      rw [calls_of_step? table m position hstep, List.pairwise_append]
      refine ⟨?_, ih next (position + 1), fun call hcall later hlater => ?_⟩
      · cases hc : Symbol.isMarker c with
        | true => rw [calls_marker table m position hc]; exact .nil
        | false => rw [calls_symbol table m position hc]; exact List.pairwise_singleton _ _
      · obtain ⟨i, _, hi, -, -, hvisit⟩ := (mem_calls_iff table m position).1 hcall
        obtain ⟨j, _, -, -, -, hvisit'⟩ := (mem_calls_iff table next (position + 1)).1 hlater
        have hi : i < 1 := (List.getElem?_eq_some_iff.1 hi).1
        rw [hvisit, hvisit']
        show position + i < position + 1 + j
        omega

/-- The later one of two calls has the greater position. -/
theorem position_lt_of_calls {w : Word} {k l : Nat} {call later : Walker ρ S × Visit S}
    (hkl : k < l) (hcall : (m.calls table 0 w)[k]? = some call)
    (hlater : (m.calls table 0 w)[l]? = some later) : call.2.position < later.2.position := by
  obtain ⟨hk, rfl⟩ := List.getElem?_eq_some_iff.1 hcall
  obtain ⟨hl, rfl⟩ := List.getElem?_eq_some_iff.1 hlater
  exact List.pairwise_iff_getElem.1 (pairwise_calls table m 0 w) k l hk hl hkl

/-- Between two calls that follow one another stand markers only. -/
theorem onlyMarkers_of_calls {w : Word} {k : Nat} {call call' : Walker ρ S × Visit S}
    (hcall : (m.calls table 0 w)[k]? = some call)
    (hcall' : (m.calls table 0 w)[k + 1]? = some call') :
    call.2.position < call'.2.position ∧
      w.OnlyMarkers (call.2.position + 1) call'.2.position := by
  refine ⟨position_lt_of_calls k.lt_succ_self hcall hcall', fun i hpi hiq => ?_⟩
  obtain ⟨q, c', hq, -, hthrough, hvisit⟩ :=
    (mem_calls_iff table m 0).1 (List.mem_of_getElem? hcall')
  have hposition : call'.2.position = q := by rw [hvisit]; exact Nat.zero_add q
  have hi : i < w.length := by
    have := (List.getElem?_eq_some_iff.1 hq).1
    omega
  refine ⟨w[i], List.getElem?_eq_getElem hi, ?_⟩
  -- a symbol in between would be called, with a place in the list between the two
  by_contra hc
  obtain ⟨between, hbetween⟩ := exists_through?_take table m hthrough i
  rw [List.take_take, Nat.min_eq_left (by omega)] at hbetween
  have hmem : (between, between.visit table i w[i]) ∈ m.calls table 0 w :=
    (mem_calls_iff table m 0).2 ⟨i, w[i], List.getElem?_eq_getElem hi, Bool.eq_false_iff.2 hc,
      hbetween, by rw [Nat.zero_add]⟩
  obtain ⟨l, hl⟩ := List.getElem?_of_mem hmem
  rcases Nat.lt_trichotomy l k with hlk | rfl | hlk
  · have : i < call.2.position := position_lt_of_calls hlk hl hcall
    omega
  · rw [hl] at hcall
    cases hcall
    exact Nat.not_succ_le_self i hpi
  · rcases Nat.eq_or_lt_of_le (Nat.succ_le_of_lt hlk) with rfl | hlk
    · rw [hl] at hcall'
      cases hcall'
      exact Nat.lt_irrefl i hiq
    · have : call'.2.position < i := position_lt_of_calls hlk hcall' hl
      omega

end Walker

/-- If a walk succeeds, then of two visits that follow one another the second instruction runs on
the state of the first visit, unless a branch around the first visit is closed in between: then it
runs on the context from before the outermost such branch. Of two visits of one depth no branch is
closed in between exactly if the same branches are open at both. -/
theorem consecutive_visits {ρ S : Type} {table : InstructionTable ρ S} {initial : Context S}
    {streams : Streams ρ} {w : Word} {visits : List (Visit S)}
    (success : (trace table initial streams w).result = .ok visits) {k : Nat} {v v' : Visit S}
    (first : visits[k]? = some v) (second : visits[k + 1]? = some v') :
    v.position < v'.position ∧
    v.depth = (Word.openings (w.take v.position)).length ∧
    v'.depth = (Word.openings (w.take v'.position)).length ∧
    (v.depth = v'.depth → (w.firstClosed? v.position v'.position = none ↔
      Word.openings (w.take v.position) = Word.openings (w.take v'.position))) ∧
    ∃ m, (Walker.start initial streams).through? table (w.take v'.position) = some m ∧
      v' = m.visit table v'.position v'.symbol ∧
      match w.firstClosed? v.position v'.position with
      | none => m.current.state = v.state
      | some i => (Walker.start initial streams).currentAt? table w i = some m.current := by
  let start : Walker ρ S := .start initial streams
  rw [trace, walk_calls] at success
  split at success
  · cases success
    obtain ⟨⟨m, v⟩, hcall, rfl⟩ := Option.map_eq_some_iff.1 (List.getElem?_map ▸ first)
    obtain ⟨⟨m', v'⟩, hcall', rfl⟩ := Option.map_eq_some_iff.1 (List.getElem?_map ▸ second)
    obtain ⟨hlt, hmarkers⟩ := Walker.onlyMarkers_of_calls hcall hcall'
    obtain ⟨p, c, hp, hc, hthrough, hvisit⟩ :=
      (Walker.mem_calls_iff table start 0).1 (List.mem_of_getElem? hcall)
    obtain ⟨q, c', hq, hc', hthrough', hvisit'⟩ :=
      (Walker.mem_calls_iff table start 0).1 (List.mem_of_getElem? hcall')
    rw [Nat.zero_add] at hvisit hvisit'
    obtain rfl : v = m.visit table p c := hvisit
    obtain rfl : v' = m'.visit table q c' := hvisit'
    have hcurrent : some m'.current = (w.firstClosed? p q).elim
        (some (m.advance table c).current) (start.currentAt? table w) :=
      Walker.current_behind_symbol rfl hp hc hlt hmarkers hthrough hthrough'
    have hdepth : m.stack.depth = (Word.openings (w.take p)).length :=
      Walker.depth_take rfl hthrough
    have hdepth' : m'.stack.depth = (Word.openings (w.take q)).length :=
      Walker.depth_take rfl hthrough'
    refine ⟨hlt, hdepth, hdepth', fun heq => ?_, m', hthrough', rfl, ?_⟩
    · exact Word.firstClosed?_eq_none_iff_of_length (hdepth.symm.trans (heq.trans hdepth'))
    · show match w.firstClosed? p q with | none => _ | some i => _
      cases hfirst : w.firstClosed? p q with
      | none =>
        rw [hfirst] at hcurrent
        exact congrArg Context.state (Option.some.inj hcurrent)
      | some i =>
        rw [hfirst] at hcurrent
        exact hcurrent.symm
  · cases success

/-- Two branches beside one another. Both visits have the depth one, but the second instruction runs
on the context from before the first branch, whose state is zero, and not on the state of the first
visit. -/
theorem consecutive_visits_of_siblings :
    (trace countingTable ⟨0, 0⟩ (.single 1) ['[', 'S', ']', '[', 'S', ']']).result =
      .ok [⟨101, 'S', 1, 1⟩, ⟨102, 'S', 1, 4⟩] ∧
    Word.firstClosed? ['[', 'S', ']', '[', 'S', ']'] 1 4 = some 0 ∧
    ∃ m, (Walker.start ⟨0, 0⟩ (.single 1)).through? countingTable ['[', 'S', ']', '['] = some m ∧
      (m.visit countingTable 4 'S').state = 102 ∧
      (Walker.start ⟨0, 0⟩ (.single 1)).currentAt? countingTable ['[', 'S', ']', '[', 'S', ']'] 0 =
        some m.current ∧
      m.current.state = 0 := by
  have hsuccess : (trace countingTable ⟨0, 0⟩ (.single 1) ['[', 'S', ']', '[', 'S', ']']).result =
      .ok [⟨101, 'S', 1, 1⟩, ⟨102, 'S', 1, 4⟩] := by
    let b : Branching :=
      .branch (.symbol 'S' rfl .done) (.branch (.symbol 'S' rfl .done) .done)
    have hword : b.word = ['[', 'S', ']', '[', 'S', ']'] := rfl
    rw [← hword, trace_word keepsHandles_countingTable]
    simp only [b, Branching.trace, lookup_countingTable]
    rfl
  obtain ⟨-, -, -, -, m, hthrough, hvisit, hcurrent⟩ :=
    consecutive_visits hsuccess (k := 0) rfl rfl
  refine ⟨hsuccess, by decide, m, hthrough, congrArg Visit.state hvisit.symm, hcurrent, ?_⟩
  have hzero : some ⟨0, 0⟩ = some m.current := hcurrent
  rw [← Option.some.inj hzero]

end GrowthGrammar
