import GrowthGrammar.Proofs.Random.Draws
import GrowthGrammar.Proofs.Random.Uniform

/-!
# Reals from an interval

A real is drawn from an interval only if the interval can be sampled, and then everything that the
sampler asks for holds: the ends are finite and in their order, the scale does not overflow, and the
scale of a closed interval ends up where no unit draw passes the upper end (`Uniform.Ready`). The
draw from a half-open interval is repeated while rounding takes it to the upper end, and
`Generator.FirstBelow` says which word ends the repetition, with no limit on their number.
`Generator.real_range` puts this together for all doubles: a real lies in its interval, and an
interval that cannot be sampled gives its lower end and takes nothing from the stream.
-/

namespace GrowthGrammar

open Double Generator

/-! ## Intervals that can be sampled -/

/-- The widest span is half of the greatest finite double. -/
theorem value_widestSpan : value widestSpan = ((2 ^ 53 - 1 : ℕ) : ℚ) * 2 ^ (970 : ℤ) := by
  have h : value widestSpan = signum .positive * ((2 ^ 53 - 1 : ℕ) * 2 ^ (970 : ℤ)) := rfl
  rw [h, signum, one_mul]

namespace Generator.Samplable

variable {low high : Float} (h : Samplable low high)

include h

/-- The width of an interval that can be sampled is finite, and it is not rounded to zero. -/
theorem width : (high - low).isFinite = true ∧ 0 < value (high - low) := by
  obtain ⟨hlt, hlow, hhigh, hspan⟩ := h
  obtain ⟨hnan, -, hle⟩ := le_iff.1 hspan
  have hpos : 0 < value (high - low) := value_sub_pos hhigh hlow (lt_iff.1 hlt).2.2
  have hspanFinite : widestSpan.isFinite = true := rfl
  exact ⟨isFinite_of_range hnan hpos.le (hle.trans_lt (value_lt_outOfRange hspanFinite)), hpos⟩

/-- Dividing the width by the greatest unit draw takes it neither out of range nor to zero. -/
theorem width_div : ((high - low) / greatestUnit).isFinite = true ∧
    0 < value ((high - low) / greatestUnit) := by
  obtain ⟨hfinite, hpos⟩ := h.width
  obtain ⟨hg, hg₀, hg₁⟩ := greatestUnit_range
  have hhalf : 1 / 2 ≤ value greatestUnit := by
    rw [value_greatestUnit]
    norm_num
  have hgpos : 0 < value greatestUnit := one_half_pos.trans_le hhalf
  obtain ⟨hnan, hvalue⟩ := value_div hfinite hg hgpos.ne'
  have hspan : value (high - low) ≤ ((2 ^ 53 - 1 : ℕ) : ℚ) * 2 ^ (970 : ℤ) :=
    value_widestSpan ▸ (le_iff.1 h.2.2.2).2.2
  -- the quotient is between the width and its double, which is still a double
  have hge : value (high - low) ≤ value (high - low) / value greatestUnit :=
    le_div_self hpos.le hgpos hg₁
  have hle : value (high - low) / value greatestUnit ≤ ((2 ^ 53 - 1 : ℕ) : ℚ) * 2 ^ (971 : ℤ) := by
    calc value (high - low) / value greatestUnit
        ≤ value (high - low) / (1 / 2) := div_le_div_of_nonneg_left hpos.le one_half_pos hhalf
      _ = value (high - low) * 2 := by ring
      _ ≤ ((2 ^ 53 - 1 : ℕ) : ℚ) * 2 ^ (970 : ℤ) * 2 := mul_le_mul_of_nonneg_right hspan zero_le_two
      _ = ((2 ^ 53 - 1 : ℕ) : ℚ) * 2 ^ (971 : ℤ) := by
          rw [mul_assoc, ← zpow_add_one₀ two_ne_zero]
          rfl
  have hout : ((2 ^ 53 - 1 : ℕ) : ℚ) * 2 ^ (971 : ℤ) < outOfRange := by
    have hcanonical : Canonical (2 ^ 53 - 1) 971 := ⟨by decide, by decide, .inl (by decide)⟩
    exact hcanonical.lt_outOfRange le_rfl
  have hquotient : 0 < value ((high - low) / greatestUnit) := by
    rw [hvalue]
    exact hpos.trans_le ((nearest_value (high - low)).symm.trans_le (nearest_mono hge))
  refine ⟨isFinite_of_range hnan hquotient.le ?_, hquotient⟩
  rw [hvalue]
  exact ((nearest_mono hle).trans_eq (nearest_dyadic (by decide) (by decide) hout.le)).trans_lt hout

end Generator.Samplable

namespace Uniform

/-- What a sampler of an interval asks for before it draws. The scale of a closed interval is the
width divided by the greatest unit draw and then lowered; that of a half-open one is the width. -/
structure Ready (low high : Float) (inclusive : Bool) : Prop where
  isFinite_low : low.isFinite = true
  isFinite_high : high.isFinite = true
  lt : low < high
  isFinite_scale : (if inclusive then (high - low) / greatestUnit else high - low).isFinite = true
  lowered : inclusive = true → (closed low high).scale.isFinite = true ∧
    0 ≤ (closed low high).scale ∧ (closed low high).scale * greatestUnit + low ≤ high

/-- An interval that can be sampled has what its sampler asks for. -/
theorem ready {low high : Float} (h : Samplable low high) (inclusive : Bool) :
    Ready low high inclusive where
  isFinite_low := h.2.1
  isFinite_high := h.2.2.1
  lt := h.1
  isFinite_scale := by
    cases inclusive with
    | true => exact h.width_div.1
    | false => exact h.width.1
  lowered _ := by
    obtain ⟨hfinite, hnonneg, hle⟩ := closed_scale h.2.1 h.1 h.width_div.1 h.width_div.2
    exact ⟨hfinite, (le_iff_value rfl (isNaN_of_isFinite hfinite)).2 (value_zero.trans_le hnonneg),
      hle⟩

/-- The values of a sampler of `[low, high]` lie in the interval. -/
theorem closed_range {low high : Float} (h : Samplable low high) (w : UInt64) :
    low ≤ (closed low high).valueOf (unitOfWord w) ∧
      (closed low high).valueOf (unitOfWord w) ≤ high := by
  obtain ⟨hlnan, hhnan, -⟩ := lt_iff.1 h.1
  obtain ⟨hscale, hnonneg, hgreatest⟩ := closed_scale h.2.1 h.1 h.width_div.1 h.width_div.2
  obtain ⟨hnan, hge, hle⟩ := valueOf_range h.2.1 hscale hnonneg w
  refine ⟨le_iff.2 ⟨hlnan, hnan, hge⟩, le_iff.2 ⟨hnan, hhnan, hle.trans ?_⟩⟩
  exact (value_valueOf_greatestUnit h.2.1 hscale hnonneg).2.trans_le (le_iff.1 hgreatest).2.2

end Uniform

/-! ## Repeated draws -/

namespace Generator

variable {low high : Float} {g : Generator}

/-- The value that the next word gives in `[low, high)`, before it is compared with `high`. -/
def valueBelow (low high : Float) (g : Generator) : Float :=
  unitOfWord g.word * (high - low) + low

/-- The first word with a value below `high` comes after `n` others. -/
structure FirstBelow (low high : Float) (g : Generator) (n : ℕ) : Prop where
  lt : valueBelow low high (g.skip n) < high
  first : ∀ i < n, ¬valueBelow low high (g.skip i) < high

/-- Drawing again counts the words that miss. -/
theorem FirstBelow.succ {n : ℕ} (hnot : ¬valueBelow low high g < high)
    (h : FirstBelow low high (g.skip 1) n) : FirstBelow low high g (n + 1) := by
  refine ⟨?_, fun i hi => ?_⟩
  · rw [Nat.add_comm, ← skip_skip]
    exact h.lt
  · cases i with
    | zero => exact hnot
    | succ i =>
      rw [Nat.add_comm, ← skip_skip]
      exact h.first i (Nat.lt_of_succ_lt_succ hi)

/-- Every word gives a value that is at least the lower end. -/
theorem le_valueBelow (h : Samplable low high) (g : Generator) : low ≤ valueBelow low high g := by
  obtain ⟨hlnan, -, -⟩ := lt_iff.1 h.1
  obtain ⟨hnan, hge, -⟩ := Uniform.valueOf_range h.2.1 h.width.1 h.width.2.le g.word
  exact le_iff.2 ⟨hlnan, hnan, hge⟩

theorem belowWithin_succ (low high : Float) (tries : ℕ) (g : Generator) :
    belowWithin low high (tries + 1) g =
      if valueBelow low high g < high then (valueBelow low high g, g.skip 1)
      else belowWithin low high tries (g.skip 1) := rfl

/-- A repeated draw takes the first value below `high`, or the lower end where no try gives one. -/
theorem belowWithin_cases (low high : Float) (tries : ℕ) (g : Generator) :
    (∃ n < tries, FirstBelow low high g n ∧
      belowWithin low high tries g = (valueBelow low high (g.skip n), g.skip (n + 1))) ∨
    (∀ n < tries, ¬valueBelow low high (g.skip n) < high) ∧
      belowWithin low high tries g = (low, g.skip tries) := by
  induction tries generalizing g with
  | zero => exact .inr ⟨fun _ hn => absurd hn (Nat.not_lt_zero _), rfl⟩
  | succ tries ih =>
    by_cases hlt : valueBelow low high g < high
    · refine .inl ⟨0, tries.succ_pos, ⟨hlt, fun _ hi => absurd hi (Nat.not_lt_zero _)⟩, ?_⟩
      rw [belowWithin_succ, if_pos hlt]
      rfl
    · have hskip : ∀ n, (g.skip 1).skip n = g.skip (n + 1) := fun n => by
        rw [skip_skip, Nat.add_comm]
      rw [belowWithin_succ, if_neg hlt]
      rcases ih (g.skip 1) with ⟨n, hn, hfirst, heq⟩ | ⟨hmiss, heq⟩
      · rw [hskip, hskip] at heq
        exact .inl ⟨n + 1, Nat.succ_lt_succ hn, hfirst.succ hlt, heq⟩
      · rw [hskip] at heq
        refine .inr ⟨fun n hn => ?_, heq⟩
        cases n with
        | zero => exact hlt
        | succ n => exact hskip n ▸ hmiss n (Nat.lt_of_succ_lt_succ hn)

/-- However often it is repeated, a draw from `[low, high)` lies in the interval. -/
theorem belowWithin_range (h : Samplable low high) (tries : ℕ) (g : Generator) :
    low ≤ (belowWithin low high tries g).1 ∧ (belowWithin low high tries g).1 < high := by
  rcases belowWithin_cases low high tries g with ⟨n, -, hfirst, heq⟩ | ⟨-, heq⟩
  · rw [heq]
    exact ⟨le_valueBelow h _, hfirst.lt⟩
  · have hnan := isNaN_of_isFinite h.2.1
    rw [heq]
    exact ⟨(le_iff_value hnan hnan).2 le_rfl, h.1⟩

/-- A real from an interval that can be sampled meets what the sampler asks for and lies in the
interval. A closed interval takes one word, whose unit draw is scaled and moved; a half-open one
takes words up to the first whose value is below the upper end, where no word gives a value below
the lower end. Every other interval gives its lower end and takes nothing from the stream. -/
theorem real_range (low high : Float) (inclusive : Bool) (g : Generator) :
    (Samplable low high →
      Uniform.Ready low high inclusive ∧ low ≤ (g.real low high inclusive).1 ∧
      if inclusive then
        (g.real low high inclusive).1 ≤ high ∧
        g.real low high inclusive =
          (unitOfWord g.word * (Uniform.closed low high).scale + low, g.skip 1)
      else
        (g.real low high inclusive).1 < high ∧ (∀ n, low ≤ valueBelow low high (g.skip n)) ∧
        ((∃ n < 1024, FirstBelow low high g n ∧
          g.real low high inclusive = (valueBelow low high (g.skip n), g.skip (n + 1))) ∨
        (∀ n < 1024, ¬valueBelow low high (g.skip n) < high) ∧
          g.real low high inclusive = (low, g.skip 1024))) ∧
    (¬Samplable low high → g.real low high inclusive = (low, g)) := by
  refine ⟨fun h => ⟨Uniform.ready h inclusive, ?_⟩, fun h => if_neg h⟩
  cases inclusive with
  | true =>
    have hreal : g.real low high true = (Uniform.closed low high).sample g := by
      rw [real, if_pos h, if_pos rfl]
    obtain ⟨hlow, hhigh⟩ := Uniform.closed_range h g.word
    rw [hreal, if_pos rfl]
    exact ⟨hlow, hhigh, rfl⟩
  | false =>
    have hreal : g.real low high false = belowWithin low high 1024 g := by
      rw [real, if_pos h, if_neg Bool.false_ne_true, below]
    obtain ⟨hlow, hhigh⟩ := belowWithin_range h 1024 g
    rw [hreal, if_neg Bool.false_ne_true]
    exact ⟨hlow, hhigh, fun n => le_valueBelow h _, belowWithin_cases low high 1024 g⟩

/-- Between one and the next double there is nothing but one itself, and the interval between the
greatest finite double and its negative is too wide. -/
theorem real_range_of_extremes :
    (Samplable 1 (Float.ofBits 0x3FF0000000000001) ∧
      1 ≤ ((Generator.ofSeed 9).real 1 (Float.ofBits 0x3FF0000000000001) false).1 ∧
      ((Generator.ofSeed 9).real 1 (Float.ofBits 0x3FF0000000000001) false).1 <
        Float.ofBits 0x3FF0000000000001) ∧
    ¬Samplable (-greatestFinite) greatestFinite ∧
      (Generator.ofSeed 9).real (-greatestFinite) greatestFinite true =
        (-greatestFinite, Generator.ofSeed 9) := by
  have hnarrow : Samplable 1 (Float.ofBits 0x3FF0000000000001) := by decide +kernel
  have hwide : ¬Samplable (-greatestFinite) greatestFinite := by decide +kernel
  obtain ⟨-, hlow, hhigh⟩ := (real_range _ _ false (.ofSeed 9)).1 hnarrow
  exact ⟨⟨hnarrow, hlow, hhigh.1⟩, hwide, (real_range _ _ true _).2 hwide⟩

end Generator

end GrowthGrammar
