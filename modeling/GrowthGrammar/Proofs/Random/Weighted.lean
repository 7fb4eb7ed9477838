import GrowthGrammar.Proofs.Random.Uniform
import GrowthGrammar.Random.Weighted
import Mathlib.Algebra.Order.BigOperators.Group.List
import Mathlib.Algebra.BigOperators.Group.List.Basic

/-!
# Weighted choice by running totals

`drawnIndex` says which of several weighted items a draw selects: it counts the running totals that
the draw has reached. In exact arithmetic item number `i` owns the interval between the totals
before and after its weight (`drawnIndex_eq_iff`). A `WeightedIndex` of weights that can be drawn
from (`Drawable`) selects this number, by a draw below the total that takes one word
(`WeightedIndex.sample_eq`).
-/

namespace GrowthGrammar

open Double

/-! ## Running totals -/

/-- The totals of a list of weights, each added to the sum of the weights before it. -/
def runningTotals {α : Type} [Add α] : List α → List α
  | [] => []
  | w :: weights => weights.scanl (· + ·) w

/-- The number of the item that the draw `x` selects: how many running totals, without the last one,
are at most `x`. -/
def drawnIndex {α : Type} [Add α] [LE α] [DecidableLE α] (weights : List α) (x : α) : ℕ :=
  (runningTotals weights).dropLast.countP (· ≤ x)

section

variable {α : Type} [Add α]

@[simp] theorem length_runningTotals (weights : List α) :
    (runningTotals weights).length = weights.length := by
  cases weights <;> simp [runningTotals]

/-- A draw selects one of the items, whatever the weights and the draw are. -/
theorem drawnIndex_lt [LE α] [DecidableLE α] {weights : List α} (h : weights ≠ []) (x : α) :
    drawnIndex weights x < weights.length := by
  have hle : drawnIndex weights x ≤ (runningTotals weights).dropLast.length :=
    List.countP_le_length
  have hpos := List.length_pos_iff.2 h
  rw [List.length_dropLast, length_runningTotals] at hle
  omega

end

/-! ## The interval of an item -/

section

variable {α : Type} [LinearOrder α] {low x : α}

/-- In a list in ascending order the number of elements up to `x` is the place where `x` belongs. -/
theorem countP_le_eq_iff {ts : List α} (hs : ts.Pairwise (· ≤ ·)) (hlow : low ≤ x) {i : ℕ}
    (hi : i < ts.length) :
    ts.countP (· ≤ x) = i ↔ (low :: ts).get ⟨i, Nat.lt_succ_of_lt hi⟩ ≤ x ∧ x < ts[i] := by
  induction ts generalizing low i with
  | nil => cases hi
  | cons t ts ih =>
    obtain ⟨hhead, htail⟩ := List.pairwise_cons.1 hs
    rcases le_or_gt t x with hle | hgt
    · rw [List.countP_cons_of_pos (by simpa using hle)]
      cases i with
      | zero =>
        refine iff_of_false (Nat.succ_ne_zero _) fun h => ?_
        exact (not_lt_of_ge hle) h.2
      | succ i =>
        rw [Nat.add_right_cancel_iff]
        exact ih htail hle (Nat.lt_of_succ_lt_succ hi)
    · have hall : ∀ u ∈ t :: ts, ¬ u ≤ x := by
        rintro u (_ | ⟨_, hu⟩)
        · exact not_le_of_gt hgt
        · exact not_le_of_gt (hgt.trans_le (hhead u hu))
      rw [List.countP_eq_zero.2 (by simpa using hall)]
      cases i with
      | zero => exact iff_of_true rfl ⟨hlow, hgt⟩
      | succ i =>
        refine iff_of_false (Nat.succ_ne_zero _).symm fun h => ?_
        exact hall _ (List.getElem_mem _) h.1

/-- Below the last element it does not matter whether the last element is counted. -/
theorem countP_dropLast_eq_iff {ts : List α} (hs : ts.Pairwise (· ≤ ·)) (hlow : low ≤ x)
    (hlast : ∀ t ∈ ts.getLast?, x < t) {i : ℕ} (hi : i < ts.length) :
    ts.dropLast.countP (· ≤ x) = i ↔
      (low :: ts).get ⟨i, Nat.lt_succ_of_lt hi⟩ ≤ x ∧ x < ts[i] := by
  have hne : ts ≠ [] := List.ne_nil_of_length_pos (Nat.zero_lt_of_lt hi)
  have hcount : ts.dropLast.countP (· ≤ x) = ts.countP (· ≤ x) := by
    have hgt := hlast _ (List.getLast_mem_getLast? hne)
    conv_rhs => rw [← List.dropLast_append_getLast hne, List.countP_append]
    rw [List.countP_singleton, if_neg (by simpa using hgt), Nat.add_zero]
  rw [hcount]
  exact countP_le_eq_iff hs hlow hi

end

/-- In exact arithmetic the running totals are the sums of the first weights. -/
theorem zero_cons_runningTotals {weights : List ℚ} (h : weights ≠ []) :
    0 :: runningTotals weights = weights.scanl (· + ·) 0 := by
  obtain ⟨w, ws, rfl⟩ := List.exists_cons_of_ne_nil h
  rw [runningTotals, List.scanl_cons, zero_add]

/-- In exact arithmetic an item owns the interval between the sums of the weights before it and up
to it. -/
theorem drawnIndex_eq_iff {weights : List ℚ} (hpos : ∀ w ∈ weights, 0 < w) {x : ℚ} (hx : 0 ≤ x)
    (hx' : x < weights.sum) {i : ℕ} (hi : i < weights.length) :
    drawnIndex weights x = i ↔ (weights.take i).sum ≤ x ∧ x < (weights.take (i + 1)).sum := by
  have hne : weights ≠ [] := List.ne_nil_of_length_pos (Nat.zero_lt_of_lt hi)
  have htotals := zero_cons_runningTotals hne
  have hsum : ∀ j (hj : j < (0 :: runningTotals weights).length),
      (0 :: runningTotals weights)[j] = (weights.take j).sum := by
    intro j hj
    rw [List.getElem_of_eq htotals, List.getElem_scanl, List.sum_eq_foldl]
  have hlen : i < (runningTotals weights).length := hi.trans_eq (length_runningTotals _).symm
  have hpairwise : (runningTotals weights).Pairwise (· ≤ ·) := by
    refine List.pairwise_iff_getElem.2 fun j k hj hk hjk => ?_
    have hsub : (weights.take (j + 1)).Sublist (weights.take (k + 1)) :=
      (List.take_prefix_take_left (by omega)).sublist
    refine (hsum (j + 1) (by simpa using hj)).trans_le ?_
    refine (hsub.sum_le_sum fun w hw => (hpos w (List.mem_of_mem_take hw)).le).trans_eq ?_
    exact (hsum (k + 1) (by simpa using hk)).symm
  have hlast : ∀ t ∈ (runningTotals weights).getLast?, x < t := by
    intro t ht
    have hlast? : (0 :: runningTotals weights).getLast? = some t := by
      rw [List.getLast?_cons, ht]
      rfl
    rw [htotals, List.getLast?_scanl, ← List.sum_eq_foldl] at hlast?
    exact hx'.trans_eq (Option.some.inj hlast?)
  have h := countP_dropLast_eq_iff hpairwise hx hlast hlen
  rw [List.get_eq_getElem, hsum i] at h
  exact h.trans (and_congr_right fun _ => by rw [← hsum (i + 1) (by simpa using hlen)]; rfl)

/-! ## Weights that can be drawn from -/

/-- Weights are finite and positive, and their running totals stay finite. -/
structure Drawable (weights : List Float) : Prop where
  positive : ∀ w ∈ weights, w.isFinite = true ∧ 0 < value w
  finite : ∀ t ∈ runningTotals weights, t.isFinite = true

/-- The total of a list of weights, zero if there is none. -/
def totalWeight (weights : List Float) : Float := (runningTotals weights).getLastD 0

/-- The total is the last one of the running totals. -/
theorem totalWeight_mem {weights : List Float} (hne : weights ≠ []) :
    totalWeight weights ∈ runningTotals weights := by
  have hlen : runningTotals weights ≠ [] := by
    rwa [← List.length_pos_iff, length_runningTotals, List.length_pos_iff]
  rw [totalWeight, List.getLastD_eq_getLast?, List.getLast?_eq_some_getLast hlen]
  exact List.getLast_mem hlen

/-- A running total with a positive weight added to it does not become less. -/
theorem value_le_value_add {t w : Float} (ht : t.isFinite = true) (hw : w.isFinite = true)
    (hpos : 0 < value w) : value t ≤ value (t + w) := by
  rw [(value_add ht hw).2]
  refine (nearest_value t).symm.trans_le (nearest_mono ?_)
  linarith

/-- Running totals ascend. -/
theorem pairwise_scanl {first : Float} {weights : List Float}
    (hpos : ∀ w ∈ weights, w.isFinite = true ∧ 0 < value w)
    (hfinite : ∀ t ∈ weights.scanl (· + ·) first, t.isFinite = true) :
    (∀ t ∈ weights.scanl (· + ·) first, value first ≤ value t) ∧
      ((weights.scanl (· + ·) first).map value).Pairwise (· ≤ ·) := by
  induction weights generalizing first with
  | nil => simp
  | cons w weights ih =>
    rw [List.scanl_cons] at hfinite ⊢
    obtain ⟨hw, hw₀⟩ := hpos w List.mem_cons_self
    obtain ⟨hle, hpairwise⟩ := ih (fun v hv => hpos v (List.mem_cons_of_mem w hv))
      fun t ht => hfinite t (List.mem_cons_of_mem first ht)
    have hstep := value_le_value_add (hfinite first List.mem_cons_self) hw hw₀
    refine ⟨?_, ?_⟩
    · rintro t (_ | ⟨_, ht⟩)
      · exact le_rfl
      · exact hstep.trans (hle t ht)
    · rw [List.map_cons, List.pairwise_cons]
      refine ⟨fun v hv => ?_, hpairwise⟩
      obtain ⟨t, ht, rfl⟩ := List.mem_map.1 hv
      exact hstep.trans (hle t ht)

namespace Drawable

variable {weights : List Float} (h : Drawable weights)

include h

/-- The running totals of weights that can be drawn from ascend from the first weight on. -/
theorem pairwise : ((runningTotals weights).map value).Pairwise (· ≤ ·) := by
  cases weights with
  | nil => exact List.Pairwise.nil
  | cons w weights =>
    exact (pairwise_scanl (fun v hv => h.positive v (List.mem_cons_of_mem w hv)) h.finite).2

/-- The running totals of weights that can be drawn from are positive. -/
theorem total_pos {t : Float} (ht : t ∈ runningTotals weights) : 0 < value t := by
  cases weights with
  | nil => cases ht
  | cons w weights =>
    refine (h.positive w List.mem_cons_self).2.trans_le ?_
    exact (pairwise_scanl (fun v hv => h.positive v (List.mem_cons_of_mem w hv)) h.finite).1 t ht

/-- The total of weights that can be drawn from is finite and positive. -/
theorem totalWeight_pos (hne : weights ≠ []) :
    (totalWeight weights).isFinite = true ∧ 0 < value (totalWeight weights) := by
  have hmem := totalWeight_mem hne
  exact ⟨h.finite _ hmem, h.total_pos hmem⟩

/-- A draw from the interval that ends with the total lies between zero and the total. -/
theorem draw_range (hne : weights ≠ []) (w : UInt64) :
    0 ≤ (Uniform.halfOpen 0 (totalWeight weights)).valueOf (unitOfWord w) ∧
      (Uniform.halfOpen 0 (totalWeight weights)).valueOf (unitOfWord w) < totalWeight weights := by
  obtain ⟨hfinite, hpos⟩ := h.totalWeight_pos hne
  obtain ⟨hnan, hwidth⟩ := value_sub hfinite isFinite_zero
  rw [value_zero, sub_zero, nearest_value] at hwidth
  have hlt : 0 < totalWeight weights :=
    (lt_iff_value rfl (isNaN_of_isFinite hfinite)).2 (value_zero.trans_lt hpos)
  exact Uniform.halfOpen_range isFinite_zero hlt (isFinite_congr hnan hfinite hwidth)
    (hpos.trans_eq hwidth.symm) w

/-- A draw between zero and the total selects the item whose running total is the first one above
the draw. -/
theorem drawnIndex_eq_iff {x : Float} (hx : 0 ≤ x) (hx' : x < totalWeight weights) {i : ℕ}
    (hi : i < (runningTotals weights).length) :
    drawnIndex weights x = i ↔
      (0 :: runningTotals weights).get ⟨i, Nat.lt_succ_of_lt hi⟩ ≤ x ∧
        x < (runningTotals weights)[i] := by
  obtain ⟨-, hnan, hnonneg⟩ := le_iff.1 hx
  have hle : ∀ t : Float, t.isFinite = true → (t ≤ x ↔ value t ≤ value x) := fun t ht =>
    le_iff_value (isNaN_of_isFinite ht) hnan
  have hlt : ∀ t : Float, t.isFinite = true → (x < t ↔ value x < value t) := fun t ht =>
    lt_iff_value hnan (isNaN_of_isFinite ht)
  -- the same count over the values, whose order is linear
  have hcount : drawnIndex weights x =
      ((runningTotals weights).map value).dropLast.countP (· ≤ value x) := by
    rw [drawnIndex, ← List.map_dropLast, List.countP_map]
    refine List.countP_congr fun t ht => ?_
    rw [decide_eq_true_iff, Function.comp_apply, decide_eq_true_iff]
    exact hle t (h.finite t (List.mem_of_mem_dropLast ht))
  have hlast : ∀ q ∈ ((runningTotals weights).map value).getLast?, value x < q := by
    intro q hq
    rw [List.getLast?_map, Option.mem_map] at hq
    obtain ⟨t, ht, rfl⟩ := hq
    have htotal : totalWeight weights = t := by
      rw [totalWeight, List.getLastD_eq_getLast?, ht]
      rfl
    exact (hlt t (h.finite t (List.mem_of_getLast? ht))).1 (htotal ▸ hx')
  have hfinite : ∀ t ∈ 0 :: runningTotals weights, t.isFinite = true := by
    rintro t (_ | ⟨_, ht⟩)
    · exact isFinite_zero
    · exact h.finite t ht
  have hget : (value 0 :: (runningTotals weights).map value).get
      ⟨i, Nat.lt_succ_of_lt (hi.trans_eq (List.length_map value).symm)⟩ =
      value ((0 :: runningTotals weights).get ⟨i, Nat.lt_succ_of_lt hi⟩) := by
    simp only [List.get_eq_getElem, ← List.map_cons, List.getElem_map]
  rw [hcount]
  refine (countP_dropLast_eq_iff h.pairwise hnonneg hlast (by simpa using hi)).trans ?_
  rw [hget, List.getElem_map]
  exact and_congr (hle _ (hfinite _ (List.get_mem _ _))).symm
    (hlt _ (h.finite _ (List.getElem_mem hi))).symm

end Drawable

/-! ## Weighted choices -/

namespace WeightedIndex

/-- The bounds of a weighted choice and its total are the running totals. -/
theorem runningSums_spec (sum : Float) {weights : List Float} (hpos : ∀ w ∈ weights, w ≥ 0) :
    ∃ bounds total, runningSums sum weights = .ok (bounds, total) ∧
      bounds ++ [total] = weights.scanl (· + ·) sum := by
  induction weights generalizing sum with
  | nil => exact ⟨[], sum, rfl, rfl⟩
  | cons w weights ih =>
    obtain ⟨bounds, total, hsums, htotals⟩ :=
      ih (sum + w) fun v hv => hpos v (List.mem_cons_of_mem _ hv)
    refine ⟨sum :: bounds, total, ?_, ?_⟩
    · rw [runningSums, if_pos (hpos w List.mem_cons_self), hsums]
      rfl
    · rw [List.cons_append, htotals, List.scanl_cons]

/-- A draw below the first bound picks the number zero, any other one a later number. -/
theorem pick_cons (bound : Float) (bounds : List Float) (sampler : Uniform) (x : Float) :
    pick ⟨bound :: bounds, sampler⟩ x = if x < bound then 0 else pick ⟨bounds, sampler⟩ x + 1 := by
  unfold pick
  rw [List.findIdx_cons]
  by_cases h : x < bound
  · rw [if_pos h, decide_eq_true h, cond_true]
  · rw [if_neg h, decide_eq_false h, cond_false]

/-- A draw picks how many bounds it has reached. -/
theorem pick_eq_countP {choice : WeightedIndex} {x : Float} (hx : x.isNaN = false)
    (hfinite : ∀ t ∈ choice.bounds, t.isFinite = true)
    (hs : (choice.bounds.map value).Pairwise (· ≤ ·)) :
    choice.pick x = choice.bounds.countP (· ≤ x) := by
  obtain ⟨bounds, sampler⟩ := choice
  dsimp only at hfinite hs ⊢
  induction bounds with
  | nil => rfl
  | cons bound bounds ih =>
    rw [List.map_cons, List.pairwise_cons] at hs
    obtain ⟨hbound, hrest⟩ := List.forall_mem_cons.1 hfinite
    have hle : ∀ t : Float, t.isFinite = true → (t ≤ x ↔ value t ≤ value x) := fun t ht =>
      le_iff_value (isNaN_of_isFinite ht) hx
    have hlt : x < bound ↔ value x < value bound := lt_iff_value hx (isNaN_of_isFinite hbound)
    rw [pick_cons]
    rcases lt_or_ge (value x) (value bound) with hgt | hge
    · -- no later bound is reached either
      rw [if_pos (hlt.2 hgt), eq_comm, List.countP_eq_zero]
      intro t ht
      rw [decide_eq_true_iff]
      rcases List.mem_cons.1 ht with rfl | ht
      · exact fun h => not_le_of_gt hgt ((hle t hbound).1 h)
      · have hsort := hs.1 _ (List.mem_map_of_mem ht)
        exact fun h => not_le_of_gt (hgt.trans_le hsort) ((hle t (hrest t ht)).1 h)
    · rw [if_neg fun h => not_lt_of_ge hge (hlt.1 h), ih hrest hs.2,
        List.countP_cons_of_pos (p := (· ≤ x)) (decide_eq_true ((hle bound hbound).2 hge))]

/-- Weights that can be drawn from make a weighted choice. Its bounds are the running totals
without the last one, which is the end of the interval that it draws from. -/
theorem ofWeights?_eq_ok {weights : List Float} (hne : weights ≠ []) (h : Drawable weights) :
    ∃ choice, ofWeights? weights = .ok choice ∧
      choice.bounds = (runningTotals weights).dropLast ∧
      choice.sampler = Uniform.halfOpen 0 (totalWeight weights) := by
  obtain ⟨w, ws, rfl⟩ := List.exists_cons_of_ne_nil hne
  have hge : ∀ v ∈ w :: ws, v ≥ 0 := by
    intro v hv
    obtain ⟨hfinite, hpos⟩ := h.positive v hv
    exact (le_iff_value rfl (isNaN_of_isFinite hfinite)).2 (value_zero.trans_le hpos.le)
  obtain ⟨bounds, total, hsums, htotals⟩ :=
    runningSums_spec w fun v hv => hge v (List.mem_cons_of_mem _ hv)
  have hrunning : runningTotals (w :: ws) = bounds ++ [total] := htotals.symm
  have hpos : 0 < value total := h.total_pos (hrunning ▸ List.mem_concat_self)
  have hzero : (total == 0) = false := by
    rw [Bool.eq_false_iff]
    exact fun heq => hpos.ne' ((beq_iff.1 heq).2.2.trans value_zero)
  refine ⟨⟨bounds, Uniform.halfOpen 0 total⟩, ?_, ?_, ?_⟩
  · rw [ofWeights?, if_pos (hge w List.mem_cons_self), hsums]
    simp only [bind, Except.bind, hzero]
    rfl
  · rw [hrunning, List.dropLast_concat]
  · rw [totalWeight, hrunning, List.getLastD_concat]

/-- A sample of a weighted choice takes one word, as a draw from the interval that ends with the
total, and is the number that the draw selects. -/
theorem sample_eq {ρ : Type} [RandomBits ρ] {weights : List Float} (hne : weights ≠ [])
    (h : Drawable weights) {choice : WeightedIndex} (hchoice : ofWeights? weights = .ok choice)
    (rng : ρ) :
    let x := (Uniform.halfOpen 0 (totalWeight weights)).valueOf (unitOfWord (RandomBits.next rng).1)
    choice.sample rng = (drawnIndex weights x, (RandomBits.next rng).2) := by
  intro x
  obtain ⟨choice', hok, hbounds, hsampler⟩ := ofWeights?_eq_ok hne h
  obtain rfl : choice' = choice := Except.ok.inj (hok.symm.trans hchoice)
  have hx : 0 ≤ x := (h.draw_range hne _).1
  have hfinite : ∀ t ∈ choice'.bounds, t.isFinite = true := fun t ht =>
    h.finite t (List.mem_of_mem_dropLast (hbounds ▸ ht))
  have hsorted : (choice'.bounds.map value).Pairwise (· ≤ ·) := by
    rw [hbounds, List.map_dropLast]
    exact h.pairwise.sublist (List.dropLast_sublist _)
  have hpick : choice'.pick x = drawnIndex weights x := by
    rw [pick_eq_countP (le_iff.1 hx).2.1 hfinite hsorted, hbounds, drawnIndex]
  have hsample : choice'.sample rng =
      (choice'.pick (choice'.sampler.valueOf (unitOfWord (RandomBits.next rng).1)),
        (RandomBits.next rng).2) := rfl
  rw [hsample, hsampler, hpick]

end WeightedIndex

end GrowthGrammar
