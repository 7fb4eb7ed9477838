import GrowthGrammar.Proofs.Double.Arithmetic
import GrowthGrammar.Random.Uniform

/-!
# The range of uniform reals

A unit draw is at least zero and at most `greatestUnit` (`unit_range`). A sampler is monotone in its
unit draw, and its scale was lowered until the greatest one stays in the interval;
`Uniform.halfOpen_range` concludes that every value of a sampler of `[low, high)` lies in the
interval, and `Uniform.closed_scale` is what this takes for `[low, high]`.
-/

namespace GrowthGrammar

open Double

/-! ## Unit draws -/

/-- The fraction bits of a word. -/
def unitFraction (w : UInt64) : ℕ := w.toNat / 2 ^ 12

theorem unitFraction_lt (w : UInt64) : unitFraction w < 2 ^ 52 := by
  have := w.toNat_lt
  unfold unitFraction
  omega

/-- The double in `[1, 2)` with the fraction bits of a word. -/
theorem ofBits_fraction (w : UInt64) :
    (Float.ofBits ((w >>> 12) ||| 0x3FF0000000000000)).isFinite = true ∧
      value (Float.ofBits ((w >>> 12) ||| 0x3FF0000000000000)) =
        1 + (unitFraction w : ℚ) / 2 ^ 52 := by
  have hlt := unitFraction_lt w
  have hbits : ((w >>> 12) ||| 0x3FF0000000000000 : UInt64).toNat =
      1023 * 2 ^ 52 + unitFraction w := by
    have hor := Nat.shiftLeft_add_eq_or_of_lt hlt 1023
    have hshift : (w >>> 12).toNat = unitFraction w := by
      rw [UInt64.toNat_shiftRight]
      exact Nat.shiftRight_eq_div_pow _ _
    rw [UInt64.toNat_or, hshift, Nat.or_comm, ← Nat.shiftLeft_eq, hor]
    rfl
  have hunpack := (unpack_ofBits _).trans (unpack_normal hbits (by norm_num) (by norm_num) hlt)
  constructor
  · exact congrArg Float.Model.UnpackedFloat.isFinite hunpack
  · refine (congrArg numeral hunpack).trans ?_
    rw [numeral_positive]
    push_cast
    norm_num
    ring

/-- A unit draw is exactly the fraction of its word. -/
theorem value_unitOfWord (w : UInt64) :
    (unitOfWord w).isNaN = false ∧ value (unitOfWord w) = (unitFraction w : ℚ) / 2 ^ 52 := by
  obtain ⟨hfinite, hvalue⟩ := ofBits_fraction w
  obtain ⟨hnan, hsub⟩ := value_sub hfinite isFinite_one
  have hdyadic : (unitFraction w : ℚ) / 2 ^ 52 = unitFraction w * 2 ^ (-52 : ℤ) := by
    rw [zpow_neg, div_eq_mul_inv]
    norm_num
  have hlt : (unitFraction w : ℚ) < 2 ^ 52 := by exact_mod_cast unitFraction_lt w
  have hrange : (unitFraction w * 2 ^ (-52 : ℤ) : ℚ) ≤ outOfRange := by
    rw [← hdyadic]
    refine ((div_lt_one (by positivity)).2 hlt).le.trans ?_
    exact one_le_pow₀ one_le_two
  refine ⟨hnan, ?_⟩
  show value (Float.ofBits _ - 1.0) = _
  rw [hsub, hvalue, value_one, add_sub_cancel_left, hdyadic]
  exact nearest_dyadic (by have := unitFraction_lt w; omega) (by decide) hrange

/-- The greatest unit draw has all fraction bits set. -/
theorem value_greatestUnit : value greatestUnit = ((2 ^ 52 - 1 : ℕ) : ℚ) / 2 ^ 52 := by
  have hfraction : unitFraction 0xFFFFFFFFFFFFFFFF = 2 ^ 52 - 1 := by decide
  rw [greatestUnit, (value_unitOfWord _).2, hfraction]

/-- A unit draw is finite, at least zero, and at most the greatest one, which is less than one. -/
theorem unit_range (w : UInt64) :
    (unitOfWord w).isFinite = true ∧ 0 ≤ value (unitOfWord w) ∧
      value (unitOfWord w) ≤ value greatestUnit ∧ value greatestUnit < 1 := by
  obtain ⟨hnan, hvalue⟩ := value_unitOfWord w
  have hlt : value greatestUnit < 1 := by
    rw [value_greatestUnit]
    norm_num
  have hle : value (unitOfWord w) ≤ value greatestUnit := by
    have hfraction : unitFraction w ≤ 2 ^ 52 - 1 := by
      have := unitFraction_lt w
      omega
    rw [hvalue, value_greatestUnit]
    exact div_le_div_of_nonneg_right (by exact_mod_cast hfraction) (by positivity)
  have hnonneg : 0 ≤ value (unitOfWord w) := by
    rw [hvalue]
    positivity
  have hrange : value (unitOfWord w) < outOfRange :=
    (hle.trans hlt.le).trans_lt (one_lt_pow₀ one_lt_two (by norm_num))
  exact ⟨isFinite_of_range hnan hnonneg hrange, hnonneg, hle, hlt⟩

/-- The greatest unit draw is a unit draw. -/
theorem greatestUnit_range :
    greatestUnit.isFinite = true ∧ 0 ≤ value greatestUnit ∧ value greatestUnit ≤ 1 := by
  obtain ⟨hfinite, hnonneg, -, hlt⟩ := unit_range 0xFFFFFFFFFFFFFFFF
  exact ⟨hfinite, hnonneg, hlt.le⟩

/-! ## Samplers -/

namespace Uniform

/-- The lowered scale is finite and not negative, and it is not too wide unless it is zero. -/
theorem lowerScale_spec (tooWide : Float → Bool) {n : ℕ} (hn : n < 0x7FF0000000000000) :
    (lowerScale tooWide n).isFinite = true ∧ 0 ≤ value (lowerScale tooWide n) ∧
      (tooWide (lowerScale tooWide n) = false ∨ lowerScale tooWide n = 0) := by
  induction n with
  | zero =>
    have h : lowerScale tooWide 0 = 0 := rfl
    rw [h]
    exact ⟨isFinite_zero, value_zero.ge, .inr rfl⟩
  | succ n ih =>
    simp only [lowerScale]
    split_ifs with h
    · exact ih (by omega)
    · have hbits : (n + 1).toUInt64.toNat < 0x7FF0000000000000 := by
        rw [Nat.toUInt64, UInt64.toNat_ofNat']
        omega
      obtain ⟨hfinite, hnonneg⟩ := ofBits_of_lt hbits
      exact ⟨hfinite, hnonneg, .inl (Bool.not_eq_true _ ▸ h)⟩

section

variable {low scale : Float} (hlow : low.isFinite = true) (hscale : scale.isFinite = true)
  (hnonneg : 0 ≤ value scale)

include hscale hnonneg

/-- A unit factor does not take a scale out of range. -/
theorem value_mul_unit {u : Float} (hu : u.isFinite = true) (hu₀ : 0 ≤ value u)
    (hu₁ : value u ≤ 1) :
    (scale * u).isFinite = true ∧ value (scale * u) = nearest (value u * value scale) := by
  obtain ⟨hnan, hvalue⟩ := value_mul hscale hu
  rw [mul_comm (value scale)] at hvalue
  have hmul₀ : 0 ≤ value u * value scale := mul_nonneg hu₀ hnonneg
  have hmul₁ : value u * value scale ≤ value scale := mul_le_of_le_one_left hnonneg hu₁
  have hle : value (scale * u) ≤ value scale := by
    rw [hvalue]
    exact (nearest_mono hmul₁).trans_eq (nearest_value scale)
  refine ⟨isFinite_of_range hnan ?_ (hle.trans_lt (value_lt_outOfRange hscale)), hvalue⟩
  rw [hvalue]
  exact nearest_nonneg hmul₀

/-- The factors of a product with a unit factor can be swapped. -/
theorem value_unit_mul {u : Float} (hu : u.isFinite = true) (hu₀ : 0 ≤ value u)
    (hu₁ : value u ≤ 1) :
    (u * scale).isFinite = true ∧ value (u * scale) = nearest (value u * value scale) := by
  obtain ⟨hfinite, hvalue⟩ := value_mul_unit hscale hnonneg hu hu₀ hu₁
  obtain ⟨hnan, hswap⟩ := value_mul hu hscale
  exact ⟨isFinite_congr hnan hfinite (hswap.trans hvalue.symm), hswap⟩

include hlow

/-- A value of a sampler, from its unit draw. -/
theorem value_valueOf {u : Float} (hu : u.isFinite = true) (hu₀ : 0 ≤ value u)
    (hu₁ : value u ≤ 1) :
    ((⟨low, scale⟩ : Uniform).valueOf u).isNaN = false ∧
      value ((⟨low, scale⟩ : Uniform).valueOf u) =
        nearest (nearest (value u * value scale) + value low) := by
  obtain ⟨hmul, hvalue⟩ := value_unit_mul hscale hnonneg hu hu₀ hu₁
  have h := value_add hmul hlow
  rwa [hvalue] at h

/-- The greatest unit draw has the value that a scale is lowered by. There the factors are swapped,
which changes no value. -/
theorem value_valueOf_greatestUnit :
    (scale * greatestUnit + low).isNaN = false ∧
      value ((⟨low, scale⟩ : Uniform).valueOf greatestUnit) =
        value (scale * greatestUnit + low) := by
  obtain ⟨hg, hg₀, hg₁⟩ := greatestUnit_range
  obtain ⟨hmul, hmulValue⟩ := value_mul_unit hscale hnonneg hg hg₀ hg₁
  obtain ⟨hsum, hsumValue⟩ := value_add hmul hlow
  refine ⟨hsum, ?_⟩
  rw [(value_valueOf hlow hscale hnonneg hg hg₀ hg₁).2, hsumValue, hmulValue]

/-- A sampler without a width has its lower end as the only value. -/
theorem value_valueOf_of_zero (hzero : value scale = 0) {u : Float} (hu : u.isFinite = true)
    (hu₀ : 0 ≤ value u) (hu₁ : value u ≤ 1) :
    value ((⟨low, scale⟩ : Uniform).valueOf u) = value low := by
  rw [(value_valueOf hlow hscale hnonneg hu hu₀ hu₁).2, hzero, mul_zero, nearest_zero, zero_add,
    nearest_value]

/-- The values of a sampler are at least its lower end, and at most the value of the greatest unit
draw. -/
theorem valueOf_range (w : UInt64) :
    ((⟨low, scale⟩ : Uniform).valueOf (unitOfWord w)).isNaN = false ∧
      value low ≤ value ((⟨low, scale⟩ : Uniform).valueOf (unitOfWord w)) ∧
      value ((⟨low, scale⟩ : Uniform).valueOf (unitOfWord w)) ≤
        value ((⟨low, scale⟩ : Uniform).valueOf greatestUnit) := by
  obtain ⟨hu, hu₀, hle, hlt⟩ := unit_range w
  obtain ⟨hg, hg₀, hg₁⟩ := greatestUnit_range
  obtain ⟨hnan, hvalue⟩ := value_valueOf hlow hscale hnonneg hu hu₀ (hle.trans hlt.le)
  obtain ⟨-, hgreatest⟩ := value_valueOf hlow hscale hnonneg hg hg₀ hg₁
  have hmul : value (unitOfWord w) * value scale ≤ value greatestUnit * value scale :=
    mul_le_mul_of_nonneg_right hle hnonneg
  refine ⟨hnan, ?_, ?_⟩
  · have hmul₀ : 0 ≤ nearest (value (unitOfWord w) * value scale) :=
      nearest_nonneg (mul_nonneg hu₀ hnonneg)
    rw [hvalue, ← nearest_value low]
    refine nearest_mono ?_
    rw [nearest_value]
    linarith
  · rw [hvalue, hgreatest]
    exact nearest_mono (add_le_add_left (nearest_mono hmul) _)

end

/-- The values of a sampler of `[low, high)` lie in the interval, provided that its width is
finite and not zero. -/
theorem halfOpen_range {low high : Float} (hlow : low.isFinite = true) (hlt : low < high)
    (hwidth : (high - low).isFinite = true) (hpos : 0 < value (high - low)) (w : UInt64) :
    low ≤ (halfOpen low high).valueOf (unitOfWord w) ∧
      (halfOpen low high).valueOf (unitOfWord w) < high := by
  obtain ⟨hlnan, hhnan, hvalues⟩ := lt_iff.1 hlt
  obtain ⟨hscale, hnonneg, hwide⟩ := lowerScale_spec
    (fun scale => decide (scale * greatestUnit + low ≥ high)) (toBits_lt hwidth hpos)
  obtain ⟨hg, hg₀, hg₁⟩ := greatestUnit_range
  obtain ⟨hnan, hge, hle⟩ := valueOf_range hlow hscale hnonneg w
  refine ⟨le_iff.2 ⟨hlnan, hnan, hge⟩, lt_iff.2 ⟨hnan, hhnan, hle.trans_lt ?_⟩⟩
  rcases hwide with hwide | hzero
  · obtain ⟨hsum, hsumValue⟩ := value_valueOf_greatestUnit hlow hscale hnonneg
    have hnot := of_decide_eq_false hwide
    rw [ge_iff_le, le_iff, ← hsumValue] at hnot
    exact not_le.1 fun h => hnot ⟨hhnan, hsum, h⟩
  · have hvalue : value (lowerScale (fun scale => decide (scale * greatestUnit + low ≥ high))
        (high - low).toBits.toNat) = 0 := (congrArg value hzero).trans value_zero
    exact (value_valueOf_of_zero hlow hscale hnonneg hvalue hg hg₀ hg₁).trans_lt hvalues

/-- The scale of a sampler of `[low, high]` is finite, and the greatest unit draw does not pass
`high`, provided that the scale before it is lowered is finite and not zero. -/
theorem closed_scale {low high : Float} (hlow : low.isFinite = true) (hlt : low < high)
    (hfirst : ((high - low) / greatestUnit).isFinite = true)
    (hpos : 0 < value ((high - low) / greatestUnit)) :
    (closed low high).scale.isFinite = true ∧ 0 ≤ value (closed low high).scale ∧
      (closed low high).scale * greatestUnit + low ≤ high := by
  obtain ⟨-, hhnan, hvalues⟩ := lt_iff.1 hlt
  obtain ⟨hscale, hnonneg, hwide⟩ := lowerScale_spec
    (fun scale => decide (scale * greatestUnit + low > high)) (toBits_lt hfirst hpos)
  obtain ⟨hsum, hsumValue⟩ := value_valueOf_greatestUnit hlow hscale hnonneg
  refine ⟨hscale, hnonneg, le_iff.2 ⟨hsum, hhnan, ?_⟩⟩
  rcases hwide with hwide | hzero
  · have hnot := of_decide_eq_false hwide
    rw [gt_iff_lt, lt_iff] at hnot
    exact not_lt.1 fun h => hnot ⟨hhnan, hsum, h⟩
  · have hvalue : value (lowerScale (fun scale => decide (scale * greatestUnit + low > high))
        ((high - low) / greatestUnit).toBits.toNat) = 0 := (congrArg value hzero).trans value_zero
    obtain ⟨hg, hg₀, hg₁⟩ := greatestUnit_range
    exact hsumValue.symm.trans_le
      ((value_valueOf_of_zero hlow hscale hnonneg hvalue hg hg₀ hg₁).trans_le hvalues.le)

end Uniform

end GrowthGrammar
