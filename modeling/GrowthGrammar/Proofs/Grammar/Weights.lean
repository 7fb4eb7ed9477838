import GrowthGrammar.Grammar.Basic
import GrowthGrammar.Proofs.Random.Weighted

/-!
# The weights of a grammar

The check of a grammar goes through its rules once and adds each weight to the total of its
predecessor. `Rule.firstFault?_eq_none_iff` says what it finds for each predecessor apart from the
others. So the weights of the rules of a predecessor can be drawn from
(`Grammar.drawable_weightsFor`).
-/

namespace GrowthGrammar

open Double

/-! ## What the check of a rule says -/

/-- A rule has no fault if its weight is positive and finite, its predecessor is no marker, and the
total is not too great. -/
theorem Rule.fault?_eq_none_iff {r : Rule} {total : Float} :
    r.fault? total = none ↔
      (r.weight > 0 ∧ r.weight.isFinite = true) ∧ Symbol.isMarker r.predecessor = false ∧
        ¬ total > maxTotalWeight := by
  unfold fault?
  by_cases hweight : r.weight > 0 ∧ r.weight.isFinite = true
  · rw [if_neg (not_not.2 hweight)]
    by_cases hmarker : Symbol.isMarker r.predecessor = true
    · simp [hmarker]
    · rw [if_neg hmarker]
      by_cases htotal : total > maxTotalWeight
      · rw [if_pos htotal]
        exact iff_of_false (Option.some_ne_none _) fun h => h.2.2 htotal
      · rw [if_neg htotal]
        exact iff_of_true rfl ⟨hweight, Bool.eq_false_iff.2 hmarker, htotal⟩
  · rw [if_pos hweight]
    exact iff_of_false (Option.some_ne_none _) fun h => hweight h.1

/-- Rules have no fault if the first one has none and the others have none with its weight added to
the totals. -/
theorem Rule.firstFault?_cons_eq_none_iff {totals : Std.HashMap Symbol Float} {r : Rule}
    {rules : List Rule} :
    firstFault? totals (r :: rules) = none ↔
      r.fault? (totals.getD r.predecessor 0 + r.weight) = none ∧
        firstFault? (totals.insert r.predecessor (totals.getD r.predecessor 0 + r.weight)) rules =
          none := by
  rw [firstFault?]
  cases h : r.fault? (totals.getD r.predecessor 0 + r.weight) <;> simp

theorem isFinite_maxTotalWeight : maxTotalWeight.isFinite = true := rfl

/-! ## The weights of one predecessor -/

/-- A running total is the first one or a later one. -/
theorem mem_scanl {first t : Float} {weights : List Float} :
    t ∈ weights.scanl (· + ·) first ↔ t = first ∨ t ∈ (weights.scanl (· + ·) first).tail := by
  cases weights <;> simp

namespace Rule

/-- The running totals of a predecessor begin with the weight of the first rule if that rule is one
of its own, and go on from what the rule leaves. -/
theorem forall_totals_cons {totals : Std.HashMap Symbol Float} {r : Rule} {rules : List Rule}
    {c : Symbol} {P : Float → Prop} :
    (∀ t ∈ ((((r :: rules).filter (·.predecessor == c)).map (·.weight)).scanl (· + ·)
        (totals.getD c 0)).tail, P t) ↔
      (r.predecessor = c → P (totals.getD r.predecessor 0 + r.weight)) ∧
      ∀ t ∈ (((rules.filter (·.predecessor == c)).map (·.weight)).scanl (· + ·)
        ((totals.insert r.predecessor (totals.getD r.predecessor 0 + r.weight)).getD c 0)).tail,
        P t := by
  rw [Std.HashMap.getD_insert, List.filter_cons]
  by_cases hc : r.predecessor = c
  · subst hc
    rw [if_pos (beq_self_eq_true _), if_pos (beq_self_eq_true _), List.map_cons, List.scanl_cons,
      List.tail_cons]
    simp only [mem_scanl, forall_eq_or_imp, forall_const]
  · rw [if_neg (mt eq_of_beq hc), if_neg (mt eq_of_beq hc)]
    exact (and_iff_right fun h => absurd h hc).symm

/-- Rules have no fault if their weights are positive and finite, none of them replaces a branch
marker, and no predecessor brings its total beyond the greatest one. The totals start from what was
gathered before. -/
theorem firstFault?_eq_none_iff {totals : Std.HashMap Symbol Float} {rules : List Rule} :
    firstFault? totals rules = none ↔
      (∀ r ∈ rules, (r.weight > 0 ∧ r.weight.isFinite = true) ∧
        Symbol.isMarker r.predecessor = false) ∧
      ∀ c, ∀ t ∈ (((rules.filter (·.predecessor == c)).map (·.weight)).scanl (· + ·)
        (totals.getD c 0)).tail, ¬ t > maxTotalWeight := by
  induction rules generalizing totals with
  | nil => simp [firstFault?]
  | cons r rules ih =>
    simp only [firstFault?_cons_eq_none_iff, fault?_eq_none_iff, ih, List.forall_mem_cons,
      forall_totals_cons, forall_and, forall_eq']
    tauto

/-- Positive finite weights of rules have positive values. -/
theorem value_pos_of_mem_weights {rules : List Rule}
    (h : ∀ r ∈ rules, r.weight > 0 ∧ r.weight.isFinite = true) (c : Symbol) :
    ∀ w ∈ (rules.filter (·.predecessor == c)).map (·.weight), w.isFinite = true ∧ 0 < value w := by
  intro w hw
  obtain ⟨r, hr, rfl⟩ := List.mem_map.1 hw
  obtain ⟨hgt, hfinite⟩ := h r (List.mem_of_mem_filter hr)
  exact ⟨hfinite, value_zero.symm.trans_lt (lt_iff.1 hgt).2.2⟩

end Rule

/-- Running totals that pass no bound are finite. -/
theorem isFinite_scanl {first : Float} {weights : List Float} (hfirst : first.isFinite = true)
    (hnonneg : 0 ≤ value first) (hpos : ∀ w ∈ weights, w.isFinite = true ∧ 0 < value w)
    (hmax : ∀ t ∈ (weights.scanl (· + ·) first).tail, ¬ t > maxTotalWeight) :
    ∀ t ∈ weights.scanl (· + ·) first, t.isFinite = true := by
  induction weights generalizing first with
  | nil => simpa using hfirst
  | cons w weights ih =>
    rw [List.scanl_cons] at hmax ⊢
    obtain ⟨hw, hw₀⟩ := hpos w List.mem_cons_self
    obtain ⟨hnan, hvalue⟩ := value_add hfirst hw
    have hmaxnan := isNaN_of_isFinite isFinite_maxTotalWeight
    have hsum : 0 ≤ value (first + w) := by
      rw [hvalue]
      exact nearest_nonneg (by linarith)
    have hle : value (first + w) ≤ value maxTotalWeight :=
      not_lt.1 fun h => hmax _ (mem_scanl.2 (.inl rfl)) ((lt_iff_value hmaxnan hnan).2 h)
    have hfinite : (first + w).isFinite = true :=
      isFinite_of_range hnan hsum (hle.trans_lt (value_lt_outOfRange isFinite_maxTotalWeight))
    rintro t (_ | ⟨_, ht⟩)
    · exact hfirst
    · exact ih hfinite hsum (fun v hv => hpos v (List.mem_cons_of_mem w hv))
        (fun u hu => hmax u (mem_scanl.2 (.inr hu))) t ht

/-- Whether running totals are finite depends on the value of the first one only. -/
theorem isFinite_scanl_congr {first first' : Float} {weights : List Float}
    (hvalue : value first = value first') (hfirst' : first'.isFinite = true)
    (hpos : ∀ w ∈ weights, w.isFinite = true)
    (hfinite : ∀ t ∈ weights.scanl (· + ·) first, t.isFinite = true) :
    ∀ t ∈ weights.scanl (· + ·) first', t.isFinite = true := by
  induction weights generalizing first first' with
  | nil => simpa using hfirst'
  | cons w weights ih =>
    rw [List.scanl_cons] at hfinite ⊢
    have hw := hpos w List.mem_cons_self
    have hsum := value_add (hfinite first List.mem_cons_self) hw
    obtain ⟨hnan, hsum'⟩ := value_add hfirst' hw
    have hvalues : value (first + w) = value (first' + w) := by
      rw [hsum.2, hsum', hvalue]
    have hnext : (first + w).isFinite = true :=
      hfinite _ (List.mem_cons_of_mem _ (mem_scanl.2 (.inl rfl)))
    rintro t (_ | ⟨_, ht⟩)
    · exact hfirst'
    · exact ih hvalues (isFinite_congr hnan hnext hvalues.symm)
        (fun v hv => hpos v (List.mem_cons_of_mem w hv))
        (fun u hu => hfinite u (List.mem_cons_of_mem _ hu)) t ht

namespace Grammar

/-- No rule of a grammar replaces a branch marker. -/
theorem isMarker_predecessor (g : Grammar) {r : Rule} (hr : r ∈ g.rules) :
    Symbol.isMarker r.predecessor = false :=
  ((Rule.firstFault?_eq_none_iff.1 g.faultless).1 r hr).2

/-- The weights of a predecessor in the order of its rules. -/
def weightsFor (g : Grammar) (c : Symbol) : List Float := (g.rulesFor c).map (·.weight)

/-- The weights of every predecessor can be drawn from. -/
theorem drawable_weightsFor (g : Grammar) (c : Symbol) : Drawable (g.weightsFor c) := by
  obtain ⟨hrules, htotals⟩ := Rule.firstFault?_eq_none_iff.1 g.faultless
  have hpos : ∀ w ∈ g.weightsFor c, w.isFinite = true ∧ 0 < value w :=
    Rule.value_pos_of_mem_weights (fun r hr => (hrules r hr).1) c
  refine ⟨hpos, ?_⟩
  have hscanl : ∀ t ∈ (g.weightsFor c).scanl (· + ·) 0, t.isFinite = true := by
    refine isFinite_scanl isFinite_zero value_zero.ge hpos fun t ht => ?_
    have hzero : (∅ : Std.HashMap Symbol Float).getD c 0 = 0 := Std.HashMap.getD_empty
    exact htotals c t (hzero.symm ▸ ht)
  cases hws : g.weightsFor c with
  | nil => simp [runningTotals]
  | cons w weights =>
    rw [hws] at hpos hscanl
    obtain ⟨hw, hw₀⟩ := hpos w List.mem_cons_self
    rw [List.scanl_cons] at hscanl
    have hvalue : value (0 + w) = value w := by
      rw [(value_add isFinite_zero hw).2, value_zero, zero_add, nearest_value]
    exact isFinite_scanl_congr hvalue hw (fun v hv => (hpos v (List.mem_cons_of_mem w hv)).1)
      fun t ht => hscanl t (List.mem_cons_of_mem _ ht)

end Grammar

end GrowthGrammar
