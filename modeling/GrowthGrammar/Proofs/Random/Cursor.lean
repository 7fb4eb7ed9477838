import GrowthGrammar.Random.Cursor
import Mathlib.Data.List.Basic

/-!
# Cursors behave as one sequential stream for each seed call

A program makes cursors by seeding and by cloning, drops them, and draws through them in any order.
A `Cursors.Ledger` says what such a history amounts to without any shared state: which draws were
made so far on the stream of each seeded call, and of every cursor the seeded call that it descends
from and whether it is still live. The cursors after a history are what the ledger tells
(`Cursors.after_eq`), by one case for each operation. From this `Cursors.sequential_streams` reads
what a cursor draws, namely what a single cursor would draw at that point, which cursors share a
stream and how many, and that a draw can be left out of a history for all streams but its own.
-/

namespace GrowthGrammar.Cursors

/-- The bounds of a draw. -/
structure Draw where
  low : Float
  high : Float
  inclusive : Bool

/-- An operation on cursors, which are numbered in the order in which they were made. -/
inductive Operation where
  | seeded (seed : UInt64)
  | clone (k : ℕ)
  | drop (k : ℕ)
  | draw (k : ℕ) (d : Draw)

/-- The value drawn next through a cursor, if it is live. -/
def drawn? (c : Cursors Generator) (k : ℕ) (d : Draw) : Option Float :=
  (c.real? k d.low d.high d.inclusive).map (·.1)

/-- The cursors after an operation. One that names no live cursor does nothing. -/
def perform (c : Cursors Generator) : Operation → Cursors Generator
  | .seeded seed => (c.start (.ofSeed seed)).2
  | .clone k => (c.clone? k).elim c (·.2)
  | .drop k => c.drop k
  | .draw k d => (c.real? k d.low d.high d.inclusive).elim c (·.2)

/-- The cursors after a history of operations. -/
def after (history : List Operation) : Cursors Generator := history.foldl perform empty

/-! ## The ledger of a history -/

/-- A seeded call, with the draws made so far on its stream. -/
structure Seeding where
  seed : UInt64
  draws : List Draw

/-- A cursor by the number of the seeded call that it descends from, and whether it is live. -/
structure Holder where
  seeding : ℕ
  live : Bool

/-- The seeded call that a cursor descends from, while it is live. -/
def Holder.origin? (h : Holder) : Option ℕ := if h.live then some h.seeding else none

/-- The seeded calls and the cursors of a history. -/
structure Ledger where
  seedings : List Seeding
  holders : List Holder

namespace Ledger

/-- The seeded call that the cursor with a number descends from, while it is live. -/
def origin? (l : Ledger) (k : ℕ) : Option ℕ :=
  l.holders[k]?.bind Holder.origin?

/-- The number of live cursors that descend from a seeded call. -/
def liveCount (l : Ledger) (i : ℕ) : ℕ := l.holders.countP fun h => h.live && h.seeding == i

/-- Enters an operation. A clone descends from the seeded call of its parent, and a draw is one of
the stream of that call, through whichever cursor it is made. -/
def record (l : Ledger) : Operation → Ledger
  | .seeded seed => ⟨l.seedings ++ [⟨seed, []⟩], l.holders ++ [⟨l.seedings.length, true⟩]⟩
  | .clone k => (l.origin? k).elim l fun i => { l with holders := l.holders ++ [⟨i, true⟩] }
  | .drop k => { l with holders := l.holders.modify k fun h => { h with live := false } }
  | .draw k d => (l.origin? k).elim l fun i =>
    { l with seedings := l.seedings.modify i fun s => { s with draws := s.draws ++ [d] } }

end Ledger

/-- The ledger of a history. -/
def ledger (history : List Operation) : Ledger := history.foldl Ledger.record ⟨[], []⟩

/-- The cursors after all draws of a seeded call were made through a single cursor. -/
def alone (s : Seeding) : Cursors Generator := after (.seeded s.seed :: s.draws.map (.draw 0))

/-! ## The cursors of a ledger -/

/-- The generator after a draw. -/
def Draw.advance (g : Generator) (d : Draw) : Generator := (g.real d.low d.high d.inclusive).2

/-- The generator after the draws of a seeded call. -/
def Seeding.source (s : Seeding) : Generator := s.draws.foldl Draw.advance (.ofSeed s.seed)

/-- The cursors that a ledger tells of. -/
def Ledger.cursors (l : Ledger) : Cursors Generator :=
  ⟨⟨(l.seedings.map Seeding.source).toArray⟩, (l.holders.map Holder.origin?).toArray⟩

namespace Ledger

variable (l : Ledger)

theorem stream?_cursors (k : ℕ) : l.cursors.stream? k = l.origin? k := by
  rw [stream?, cursors, List.getElem?_toArray, List.getElem?_map, origin?]
  cases l.holders[k]? <;> rfl

/-- A draw on a stream steps its generator and leaves the others alone. -/
theorem real_toArray (sources : List Generator) (i : ℕ) (d : Draw) :
    (Streams.real i d.low d.high d.inclusive ⟨sources.toArray⟩).2 =
      ⟨(sources.modify i (Draw.advance · d)).toArray⟩ := by
  rw [Streams.real, List.getElem?_toArray]
  cases h : sources[i]? with
  | none => rw [List.modify_eq_self (List.getElem?_eq_none_iff.1 h)]
  | some g =>
    show (⟨sources.toArray.setIfInBounds i (Draw.advance g d)⟩ : Streams Generator) = _
    rw [List.setIfInBounds_toArray, List.modify_eq_set_getElem?, h]
    rfl

/-- A stream with one more draw. -/
theorem map_source_modify (i : ℕ) (d : Draw) :
    (l.seedings.modify i fun s => { s with draws := s.draws ++ [d] }).map Seeding.source =
      (l.seedings.map Seeding.source).modify i (Draw.advance · d) := by
  refine List.ext_getElem? fun j => ?_
  rw [List.getElem?_map, List.getElem?_modify, List.getElem?_modify, List.getElem?_map]
  cases l.seedings[j]? with
  | none => rfl
  | some s => by_cases hij : i = j <;> simp [hij, Seeding.source]

/-- A cursor that is dropped points to no stream. -/
theorem map_origin?_modify (k : ℕ) :
    (l.holders.modify k fun h => { h with live := false }).map Holder.origin? =
      (l.holders.map Holder.origin?).set k none := by
  refine List.ext_getElem? fun j => ?_
  rw [List.getElem?_map, List.getElem?_modify, List.getElem?_set, List.getElem?_map,
    List.length_map]
  by_cases hkj : k = j
  · subst hkj
    by_cases hk : k < l.holders.length
    · simp [hk, Holder.origin?]
    · simp [hk]
  · simp [hkj]

/-- An operation does to the cursors what it does to the ledger. -/
theorem perform_cursors (o : Operation) : perform l.cursors o = (l.record o).cursors := by
  cases o with
  | seeded seed =>
    simp [perform, start, Streams.add, record, cursors, Seeding.source, Holder.origin?]
  | clone k =>
    rw [perform, clone?, stream?_cursors, record]
    cases l.origin? k with
    | none => rfl
    | some i => simp [cursors, Holder.origin?]
  | drop k =>
    rw [perform, drop, record, cursors, cursors, map_origin?_modify, List.setIfInBounds_toArray]
  | draw k d =>
    rw [perform, real?, stream?_cursors, record]
    cases l.origin? k with
    | none => rfl
    | some i =>
      rw [Option.map_some, Option.elim_some, Option.elim_some, cursors, cursors, map_source_modify,
        ← real_toArray]
      rfl

/-- A live cursor draws from the generator behind the draws of its seeded call. -/
theorem drawn?_cursors {k i : ℕ} {s : Seeding} (hk : l.origin? k = some i)
    (hs : l.seedings[i]? = some s) (d : Draw) :
    l.cursors.drawn? k d = some (s.source.real d.low d.high d.inclusive).1 := by
  have hsource : l.cursors.streams.sources[i]? = some s.source := by
    rw [cursors, List.getElem?_toArray, List.getElem?_map, hs]
    rfl
  rw [drawn?, real?, stream?_cursors, hk, Option.map_some, Option.map_some, Streams.real, hsource]
  rfl

theorem shares?_cursors {k k' i i' : ℕ} (hk : l.origin? k = some i) (hk' : l.origin? k' = some i') :
    l.cursors.shares? k k' = some (decide (i = i')) := by
  rw [shares?, stream?_cursors, stream?_cursors, hk, hk']
  rfl

theorem shareCount?_cursors {k i : ℕ} (hk : l.origin? k = some i) :
    l.cursors.shareCount? k = some (l.liveCount i) := by
  rw [shareCount?, stream?_cursors, hk, Option.map_some, cursors, List.countP_map, liveCount]
  refine congrArg some (List.countP_congr fun h _ => ?_)
  rw [Function.comp_apply, Holder.origin?]
  cases h.live <;> simp

end Ledger

/-- The cursors after a history are those that its ledger tells of. -/
theorem after_eq (history : List Operation) : after history = (ledger history).cursors := by
  suffices h : ∀ l : Ledger, history.foldl perform l.cursors =
      (history.foldl Ledger.record l).cursors from h ⟨[], []⟩
  induction history with
  | nil => exact fun _ => rfl
  | cons o history ih =>
    intro l
    rw [List.foldl_cons, List.foldl_cons, l.perform_cursors]
    exact ih (l.record o)

/-- All draws of a seeded call, made through a single cursor, are entered as the draws of that
call. -/
theorem ledger_alone (s : Seeding) :
    ledger (.seeded s.seed :: s.draws.map (.draw 0)) = ⟨[s], [⟨0, true⟩]⟩ := by
  suffices h : ∀ before draws : List Draw,
      (draws.map (.draw 0)).foldl Ledger.record ⟨[⟨s.seed, before⟩], [⟨0, true⟩]⟩ =
        ⟨[⟨s.seed, before ++ draws⟩], [⟨0, true⟩]⟩ from h [] s.draws
  intro before draws
  induction draws generalizing before with
  | nil => rw [List.append_nil]; rfl
  | cons d draws ih => exact (ih (before ++ [d])).trans (by rw [List.append_assoc]; rfl)

/-- A single cursor draws on the generator of its seeded call. -/
theorem drawn?_alone (s : Seeding) (d : Draw) :
    (alone s).drawn? 0 d = some (s.source.real d.low d.high d.inclusive).1 := by
  rw [alone, after_eq, ledger_alone]
  exact Ledger.drawn?_cursors _ rfl rfl d

/-! ## Streams of their own -/

namespace Ledger

variable {l l' : Ledger} {i : ℕ}

/-- Every cursor descends from a seeded call. -/
def Rooted (l : Ledger) : Prop := ∀ h ∈ l.holders, h.seeding < l.seedings.length

theorem Rooted.lt (hl : l.Rooted) {k : ℕ} (hk : l.origin? k = some i) : i < l.seedings.length := by
  obtain ⟨h, hh, hlive⟩ := Option.bind_eq_some_iff.1 hk
  unfold Holder.origin? at hlive
  split at hlive
  · cases hlive
    exact hl h (List.mem_of_getElem? hh)
  · cases hlive

/-- No operation brings in a cursor without a seeded call. -/
theorem Rooted.record (hl : l.Rooted) (o : Operation) : (l.record o).Rooted := by
  cases o with
  | seeded seed =>
    intro h hh
    rw [Ledger.record, List.length_append, List.length_singleton]
    rcases List.mem_append.1 hh with hh | hh
    · exact Nat.lt_succ_of_lt (hl h hh)
    · cases List.mem_singleton.1 hh
      exact Nat.lt_succ_self _
  | clone k =>
    rw [Ledger.record]
    cases hk : l.origin? k with
    | none => exact hl
    | some i =>
      intro h hh
      rcases List.mem_append.1 hh with hh | hh
      · exact hl h hh
      · cases List.mem_singleton.1 hh
        exact hl.lt hk
  | drop k =>
    intro h hh
    obtain ⟨j, hj⟩ := List.getElem?_of_mem hh
    rw [Ledger.record, List.getElem?_modify] at hj
    obtain ⟨before, hbefore, rfl⟩ := Option.map_eq_some_iff.1 hj
    have hlt := hl before (List.mem_of_getElem? hbefore)
    split <;> exact hlt
  | draw k d =>
    rw [Ledger.record]
    cases l.origin? k with
    | none => exact hl
    | some i =>
      intro h hh
      rw [Option.elim_some, List.length_modify]
      exact hl h hh

/-- Two ledgers differ at most in the draws of one seeded call. -/
structure AgreeBut (i : ℕ) (l l' : Ledger) : Prop where
  holders : l.holders = l'.holders
  length : l.seedings.length = l'.seedings.length
  seedings : ∀ j, j ≠ i → l.seedings[j]? = l'.seedings[j]?

/-- A draw differs from no operation in the draws of its stream only. -/
theorem agreeBut_record_draw {k : ℕ} (hk : l.origin? k = some i) (d : Draw) :
    AgreeBut i (l.record (.draw k d)) l := by
  rw [record, hk]
  refine ⟨rfl, List.length_modify .., fun j hj => ?_⟩
  exact List.getElem?_modify_ne _ _ hj.symm

/-- Ledgers that differ in the draws of one seeded call do so after any further operation. -/
theorem AgreeBut.record (h : AgreeBut i l l') (o : Operation) :
    AgreeBut i (l.record o) (l'.record o) := by
  have horigin : ∀ k, l.origin? k = l'.origin? k := fun k => by rw [origin?, origin?, h.holders]
  cases o with
  | seeded seed =>
    refine ⟨?_, ?_, fun j hj => ?_⟩
    · rw [Ledger.record, Ledger.record, h.holders, h.length]
    · rw [Ledger.record, Ledger.record, List.length_append, List.length_append, h.length]
    · rw [Ledger.record, Ledger.record, List.getElem?_append, List.getElem?_append, h.length,
        h.seedings j hj]
  | clone k =>
    rw [Ledger.record, Ledger.record, horigin]
    cases l'.origin? k with
    | none => exact h
    | some s => exact ⟨congrArg (· ++ [(⟨s, true⟩ : Holder)]) h.holders, h.length, h.seedings⟩
  | drop k => exact ⟨congrArg (List.modify · k _) h.holders, h.length, h.seedings⟩
  | draw k d =>
    rw [Ledger.record, Ledger.record, horigin]
    cases l'.origin? k with
    | none => exact h
    | some s =>
      refine ⟨h.holders, ?_, fun j hj => ?_⟩
      · rw [Option.elim_some, Option.elim_some, List.length_modify, List.length_modify, h.length]
      · rw [Option.elim_some, Option.elim_some, List.getElem?_modify, List.getElem?_modify,
          h.seedings j hj]

end Ledger

/-- Every cursor of a history descends from a seeded call. -/
theorem rooted_ledger (history : List Operation) : (ledger history).Rooted := by
  suffices h : ∀ l : Ledger, l.Rooted → (history.foldl Ledger.record l).Rooted from h ⟨[], []⟩ nofun
  induction history with
  | nil => exact fun _ h => h
  | cons o history ih => exact fun l h => ih (l.record o) (h.record o)

/-- A draw that is left out of a history changes no draws but those of its own stream. -/
theorem agreeBut_leave_out {past : List Operation} {k i : ℕ} (hk : (ledger past).origin? k = some i)
    (d : Draw) (later : List Operation) :
    Ledger.AgreeBut i (ledger (past ++ .draw k d :: later)) (ledger (past ++ later)) := by
  suffices h : ∀ l l', Ledger.AgreeBut i l l' →
      Ledger.AgreeBut i (later.foldl Ledger.record l) (later.foldl Ledger.record l') by
    rw [ledger, ledger, List.foldl_append, List.foldl_append, List.foldl_cons]
    exact h _ _ (Ledger.agreeBut_record_draw hk d)
  induction later with
  | nil => exact fun _ _ h => h
  | cons o later ih => exact fun _ _ h => ih _ _ (h.record o)

/-- Whatever was done with all cursors before, a live cursor draws next what a single cursor of the
same seed would draw after all draws that were made so far on their stream, through any cursor. A
draw on another stream, even one of the same seed, can be left out of the history. Two live cursors
share a stream exactly if they descend from the same seeded call, and the text of a cursor counts
the live ones that do. -/
theorem sequential_streams (history : List Operation) {k i : ℕ}
    (live : (ledger history).origin? k = some i) :
    (∃ s, (ledger history).seedings[i]? = some s ∧
      ∀ d, ∃ x, (after history).drawn? k d = some x ∧ (alone s).drawn? 0 d = some x) ∧
    (∀ past j d later i', history = past ++ .draw j d :: later →
      (ledger past).origin? j = some i' → i' ≠ i →
      ∀ d', (after (past ++ later)).drawn? k d' = (after history).drawn? k d') ∧
    (∀ k' i', (ledger history).origin? k' = some i' →
      (after history).shares? k k' = some (decide (i = i'))) ∧
    (after history).shareCount? k = some ((ledger history).liveCount i) ∧
    (after history).describe? k = some ("RandomCursor \x7b handles: " ++
      toString ((ledger history).liveCount i) ++ " \x7d") := by
  obtain ⟨s, hs⟩ : ∃ s, (ledger history).seedings[i]? = some s :=
    ⟨_, List.getElem?_eq_getElem ((rooted_ledger history).lt live)⟩
  have hcount : (after history).shareCount? k = some ((ledger history).liveCount i) := by
    rw [after_eq, Ledger.shareCount?_cursors _ live]
  refine ⟨⟨s, hs, fun d => ?_⟩, ?_, fun k' i' hk' => ?_, hcount, ?_⟩
  · rw [after_eq, Ledger.drawn?_cursors _ live hs, drawn?_alone]
    exact ⟨_, rfl, rfl⟩
  · rintro past j d later i' rfl hj hne d'
    have hagree := agreeBut_leave_out hj d later
    have hlive : (ledger (past ++ later)).origin? k = some i := by
      rw [← live, Ledger.origin?, Ledger.origin?, hagree.holders]
    have hs' : (ledger (past ++ later)).seedings[i]? = some s :=
      (hagree.seedings i hne.symm).symm.trans hs
    rw [after_eq, after_eq, Ledger.drawn?_cursors _ live hs, Ledger.drawn?_cursors _ hlive hs']
  · rw [after_eq, Ledger.shares?_cursors _ live hk']
  · rw [describe?, hcount]
    rfl

/-- A clone draws on after its parent, although that is dropped, and apart from the draws on the
other stream of the same seed. -/
theorem sequential_streams_clone :
    let history : List Operation := [.seeded 7, .clone 0, .draw 0 ⟨0, 1, true⟩, .seeded 7,
      .draw 2 ⟨0, 1, false⟩, .drop 0]
    (ledger history).origin? 1 = some 0 ∧
    (∃ x, (after history).drawn? 1 ⟨0, 1, true⟩ = some x ∧
      (after [.seeded 7, .draw 0 ⟨0, 1, true⟩]).drawn? 0 ⟨0, 1, true⟩ = some x) ∧
    (after history).shares? 1 2 = some false ∧
    (after history).describe? 1 = some "RandomCursor \x7b handles: 1 \x7d" := by
  intro history
  have live : (ledger history).origin? 1 = some 0 := rfl
  obtain ⟨⟨s, hs, hdrawn⟩, -, hshares, -, htext⟩ := sequential_streams history live
  cases hs
  have hcount : (ledger history).liveCount 0 = 1 := rfl
  rw [hcount] at htext
  exact ⟨live, hdrawn ⟨0, 1, true⟩, hshares 2 1 rfl, htext⟩

end GrowthGrammar.Cursors
