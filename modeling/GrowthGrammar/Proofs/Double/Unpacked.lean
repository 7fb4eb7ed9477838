import GrowthGrammar.Proofs.Double.Rounding
import Mathlib.Order.Compare

/-!
# Unpacked doubles

An unpacked double has a sign, a mantissa and an exponent. `numeral` is the rational number that it
stands for; an infinity stands for the first power of two out of range, and what is not a number for
zero. Unpacked doubles in canonical form compare as these numbers (`compare_numeral`), and
`unpack_pack` says that nothing is lost by packing one into bits but what is out of range.
-/

namespace GrowthGrammar.Double

open Float.Model (UnpackedFloat Format)
open Float.Model.UnpackedFloat

/-! ## Unpacked doubles -/

/-- A sign as a factor. -/
def signum : Sign → ℚ
  | .negative => -1
  | .positive => 1

/-- The number of a signed mantissa. -/
theorem cast_apply (s : Sign) (m : ℕ) : ((s.apply m : ℤ) : ℚ) = signum s * m := by
  cases s <;> simp [Sign.apply, signum]

/-- The number that an unpacked double stands for. -/
def numeral : UnpackedFloat → ℚ
  | .notANumber => 0
  | .infinity s => signum s * outOfRange
  | .zero _ => 0
  | .finite s m e _ => signum s * (m * 2 ^ e)

/-- The number of a zero. -/
theorem numeral_zero {s : Sign} : numeral (.zero s) = 0 := rfl

/-- The number of a finite unpacked double. -/
theorem numeral_finite {s : Sign} {m : ℕ} {e : ℤ} {hm : 0 < m} :
    numeral (.finite s m e hm) = signum s * (m * 2 ^ e) := rfl

/-- The number of the infinity with a sign. -/
theorem numeral_negative_infinity : numeral (.infinity .negative) = -outOfRange := neg_one_mul _

/-- The number of the infinity without a sign. -/
theorem numeral_positive_infinity : numeral (.infinity .positive) = outOfRange := one_mul _

/-- The magnitude of an infinity. -/
theorem abs_numeral_infinity {s : Sign} : |numeral (.infinity s)| = outOfRange := by
  cases s with
  | negative => rw [numeral_negative_infinity, abs_neg, abs_of_pos outOfRange_pos]
  | positive => rw [numeral_positive_infinity, abs_of_pos outOfRange_pos]

/-- The number of a finite unpacked double with a sign. -/
theorem numeral_negative {m : ℕ} {e : ℤ} {hm : 0 < m} :
    numeral (.finite .negative m e hm) = -(m * 2 ^ e) := neg_one_mul _

/-- The number of a finite unpacked double without a sign. -/
theorem numeral_positive {m : ℕ} {e : ℤ} {hm : 0 < m} :
    numeral (.finite .positive m e hm) = m * 2 ^ e := one_mul _

/-- A finite unpacked double is in canonical form. -/
def Rounded : UnpackedFloat → Prop
  | .finite _ m e _ => Canonical m e
  | _ => True

/-- A finite unpacked double has an exponent that fits into the bits. -/
def InRange : UnpackedFloat → Prop
  | .finite _ _ e _ => e ≤ 971
  | _ => True

/-- A magnitude whose exponent fits is in range. -/
theorem Canonical.lt_outOfRange {m : ℕ} {e : ℤ} (h : Canonical m e) (he : e ≤ 971) :
    (m * 2 ^ e : ℚ) < outOfRange := by
  have hm : (m : ℚ) < 2 ^ 53 := by exact_mod_cast h.lt
  calc (m * 2 ^ e : ℚ) < 2 ^ 53 * 2 ^ e := mul_lt_mul_of_pos_right hm (by positivity)
    _ ≤ 2 ^ 53 * 2 ^ (971 : ℤ) :=
        mul_le_mul_of_nonneg_left (zpow_le_zpow_right₀ one_le_two he) (by positivity)
    _ = outOfRange := by rw [zpow_ofNat, outOfRange, ← pow_add]

/-- A magnitude whose exponent does not fit is out of range. -/
theorem Canonical.outOfRange_le {m : ℕ} {e : ℤ} (h : Canonical m e) (he : 971 < e) :
    outOfRange ≤ (m * 2 ^ e : ℚ) := by
  have hm : (2 ^ 52 : ℚ) ≤ m := by
    have hfull : 2 ^ 52 ≤ m := h.full.resolve_right (by unfold leastExponent; omega)
    exact_mod_cast hfull
  calc outOfRange = 2 ^ 52 * 2 ^ (972 : ℤ) := by rw [zpow_ofNat, outOfRange, ← pow_add]
    _ ≤ 2 ^ 52 * 2 ^ e :=
        mul_le_mul_of_nonneg_left (zpow_le_zpow_right₀ one_le_two he) (by positivity)
    _ ≤ m * 2 ^ e := mul_le_mul_of_nonneg_right hm (by positivity)

/-- The number of a finite unpacked double is in range if its exponent fits. -/
theorem abs_numeral_lt {s : Sign} {m : ℕ} {e : ℤ} {hm : 0 < m}
    (h : Rounded (.finite s m e hm)) (he : InRange (.finite s m e hm)) :
    |numeral (.finite s m e hm)| < outOfRange := by
  have hlt : (m * 2 ^ e : ℚ) < outOfRange := Canonical.lt_outOfRange h he
  have hnonneg : (0 : ℚ) ≤ m * 2 ^ e := by positivity
  cases s with
  | negative =>
    rw [numeral_negative, abs_neg, abs_of_nonneg hnonneg]
    exact hlt
  | positive =>
    rw [numeral_positive, abs_of_nonneg hnonneg]
    exact hlt

/-! ## The order of unpacked doubles -/

/-- Magnitudes in canonical form are ordered by their exponents first. -/
theorem Canonical.lt_of_exponent_lt {m n : ℕ} {e f : ℤ} (h : Canonical m e) (h' : Canonical n f)
    (hlt : e < f) : (m * 2 ^ e : ℚ) < n * 2 ^ f := by
  have hm : (m : ℚ) < 2 ^ 53 := by exact_mod_cast h.lt
  have hn : (2 ^ 52 : ℚ) ≤ n := by
    have hfull : 2 ^ 52 ≤ n := h'.full.resolve_right (h.least.trans_lt hlt).ne'
    exact_mod_cast hfull
  calc (m * 2 ^ e : ℚ) < 2 ^ 53 * 2 ^ e := mul_lt_mul_of_pos_right hm (by positivity)
    _ = 2 ^ 52 * 2 ^ (e + 1) := by rw [zpow_add₀ two_ne_zero]; ring
    _ ≤ 2 ^ 52 * 2 ^ f :=
        mul_le_mul_of_nonneg_left (zpow_le_zpow_right₀ one_le_two hlt) (by positivity)
    _ ≤ n * 2 ^ f := mul_le_mul_of_nonneg_right hn (by positivity)

/-- Comparing exponents and then mantissas compares the magnitudes. -/
theorem Canonical.compares {m n : ℕ} {e f : ℤ} (h : Canonical m e) (h' : Canonical n f) :
    ((compare e f).then (compare m n)).Compares (m * 2 ^ e : ℚ) (n * 2 ^ f) := by
  rcases lt_trichotomy e f with hlt | rfl | hgt
  · rw [compare_lt_iff_lt.2 hlt]
    exact h.lt_of_exponent_lt h' hlt
  · rw [compare_eq_iff_eq.2 rfl, Ordering.eq_then]
    have hpos : (0 : ℚ) < 2 ^ e := by positivity
    rcases lt_trichotomy m n with hlt | rfl | hgt
    · rw [compare_lt_iff_lt.2 hlt]
      exact mul_lt_mul_of_pos_right (by exact_mod_cast hlt) hpos
    · rw [compare_eq_iff_eq.2 rfl]
      rfl
    · rw [compare_gt_iff_gt.2 hgt]
      exact mul_lt_mul_of_pos_right (by exact_mod_cast hgt) hpos
  · rw [compare_gt_iff_gt.2 hgt]
    exact h'.lt_of_exponent_lt h hgt

/-- Opposite numbers compare the other way round. -/
theorem compares_neg {o : Ordering} {a b : ℚ} (h : o.Compares a b) : o.Compares (-b) (-a) := by
  cases o with
  | lt => exact neg_lt_neg h
  | eq => exact congrArg Neg.neg (Eq.symm h)
  | gt => exact neg_lt_neg h

/-- Finite unpacked doubles compare as the numbers that they stand for. -/
theorem compare_finite {s t : Sign} {m n : ℕ} {e f : ℤ} {hm : 0 < m} {hn : 0 < n}
    (h : Canonical m e) (h' : Canonical n f) :
    ∃ o, UnpackedFloat.compare (.finite s m e hm) (.finite t n f hn) = some o ∧
      o.Compares (numeral (.finite s m e hm)) (numeral (.finite t n f hn)) := by
  have hpos : (0 : ℚ) < m * 2 ^ e := by positivity
  have hpos' : (0 : ℚ) < n * 2 ^ f := by positivity
  have hmn := h.compares h'
  cases s with
  | negative =>
    cases t with
    | negative =>
      refine ⟨_, rfl, Ordering.compares_swap.2 ?_⟩
      rw [numeral_negative, numeral_negative]
      exact compares_neg hmn
    | positive =>
      refine ⟨.lt, rfl, ?_⟩
      rw [numeral_negative, numeral_positive]
      exact (neg_neg_of_pos hpos).trans hpos'
  | positive =>
    cases t with
    | negative =>
      refine ⟨.gt, rfl, ?_⟩
      rw [numeral_negative, numeral_positive]
      exact (neg_neg_of_pos hpos').trans hpos
    | positive =>
      refine ⟨_, rfl, ?_⟩
      rw [numeral_positive, numeral_positive]
      exact hmn

/-- Two unpacked doubles that are numbers compare as the numbers that they stand for. -/
theorem compare_numeral {u v : UnpackedFloat} (hu : Rounded u) (hv : Rounded v) (iu : InRange u)
    (iv : InRange v) (nu : u.isNaN = false) (nv : v.isNaN = false) :
    ∃ o, u.compare v = some o ∧ o.Compares (numeral u) (numeral v) := by
  have hneg := numeral_negative_infinity.trans_lt (neg_neg_of_pos outOfRange_pos)
  have hpos := outOfRange_pos.trans_eq numeral_positive_infinity.symm
  cases u with
  | notANumber => cases nu
  | infinity s =>
    cases v with
    | notANumber => cases nv
    | infinity t =>
      cases s with
      | negative =>
        cases t with
        | negative => exact ⟨.eq, rfl, rfl⟩
        | positive => exact ⟨.lt, rfl, hneg.trans hpos⟩
      | positive =>
        cases t with
        | negative => exact ⟨.gt, rfl, hneg.trans hpos⟩
        | positive => exact ⟨.eq, rfl, rfl⟩
    | zero t =>
      cases s with
      | negative => exact ⟨.lt, rfl, hneg⟩
      | positive => exact ⟨.gt, rfl, hpos⟩
    | finite t m e hm =>
      have habs := abs_lt.1 (abs_numeral_lt hv iv)
      cases s with
      | negative => exact ⟨.lt, rfl, numeral_negative_infinity.trans_lt habs.1⟩
      | positive => exact ⟨.gt, rfl, habs.2.trans_eq numeral_positive_infinity.symm⟩
  | zero s =>
    cases v with
    | notANumber => cases nv
    | infinity t =>
      cases t with
      | negative => exact ⟨.gt, rfl, hneg⟩
      | positive => exact ⟨.lt, rfl, hpos⟩
    | zero t => exact ⟨.eq, rfl, rfl⟩
    | finite t m e hm =>
      have hm : (0 : ℚ) < m * 2 ^ e := by positivity
      cases t with
      | negative => exact ⟨.gt, rfl, numeral_negative.trans_lt (neg_neg_of_pos hm)⟩
      | positive => exact ⟨.lt, rfl, hm.trans_eq numeral_positive.symm⟩
  | finite s m e hm =>
    cases v with
    | notANumber => cases nv
    | infinity t =>
      have habs := abs_lt.1 (abs_numeral_lt hu iu)
      cases t with
      | negative =>
        exact ⟨.gt, by cases s <;> rfl, numeral_negative_infinity.trans_lt habs.1⟩
      | positive =>
        exact ⟨.lt, by cases s <;> rfl, habs.2.trans_eq numeral_positive_infinity.symm⟩
    | zero t =>
      have hm : (0 : ℚ) < m * 2 ^ e := by positivity
      cases s with
      | negative => exact ⟨.lt, rfl, numeral_negative.trans_lt (neg_neg_of_pos hm)⟩
      | positive => exact ⟨.gt, rfl, hm.trans_eq numeral_positive.symm⟩
    | finite t n f hn => exact compare_finite hu hv

/-! ## Packing -/

/-- A finite unpacked double whose exponent does not fit becomes an infinity. -/
def overflow : UnpackedFloat → UnpackedFloat
  | .finite s m e hm => if 971 < e then .infinity s else .finite s m e hm
  | u => u

/-- The exponent alone decides whether a finite unpacked double fits. -/
theorem overflow_finite {s : Sign} {m : ℕ} {e : ℤ} {hm : 0 < m} :
    overflow (.finite s m e hm) = if 971 < e then .infinity s else .finite s m e hm := rfl

/-- What does not fit stands for the first number out of range. -/
theorem numeral_overflow {u : UnpackedFloat} (h : Rounded u) :
    numeral (overflow u) = clamp (numeral u) := by
  have hout := outOfRange_pos
  cases u with
  | notANumber | zero s => exact (clamp_of_abs_le (abs_zero.trans_le hout.le)).symm
  | infinity s => exact (clamp_of_abs_le abs_numeral_infinity.le).symm
  | finite s m e hm =>
    rw [overflow_finite]
    by_cases he : 971 < e
    · have hle := Canonical.outOfRange_le h he
      rw [if_pos he]
      cases s with
      | negative =>
        rw [numeral_negative, numeral_negative_infinity, clamp, min_eq_right (by linarith),
          max_eq_left (neg_le_neg hle)]
      | positive =>
        rw [numeral_positive, numeral_positive_infinity, clamp, min_eq_left hle,
          max_eq_right (by linarith)]
    · rw [if_neg he, clamp_of_abs_le (abs_numeral_lt h (not_lt.1 he)).le]

/-- The sign of a packed double. -/
theorem unpackSign_packComponents {spec : Format} (s : Sign) (e : BitVec spec.exponentBits)
    (m : BitVec spec.mantissaBitsWithoutImplicit) :
    unpackSign (packComponents spec s e m) = s.toBitVec := by
  ext i hi
  obtain rfl : i = 0 := by omega
  delta unpackSign
  simp [packComponents, BitVec.getLsbD_append, BitVec.getElem_append]

/-- The sign that a bit was made from. -/
theorem ofBitVec_toBitVec (s : Sign) : Sign.ofBitVec s.toBitVec = s := by
  cases s <;> rfl

/-- The mantissa with its first bit, which is not stored. -/
theorem toNat_append_implicit (m : BitVec 52) : (1#1 ++ m).toNat = 2 ^ 52 + m.toNat := by
  rw [BitVec.toNat_append, ← Nat.shiftLeft_add_eq_or_of_lt m.isLt]
  rfl

/-- Finite unpacked doubles with the same fields are the same. -/
theorem finite_congr {s : Sign} {m n : ℕ} {e f : ℤ} {hm : 0 < m} {hn : 0 < n} (h : m = n)
    (h' : e = f) : UnpackedFloat.finite s m e hm = .finite s n f hn := by
  subst h h'
  rfl

/-- An exponent field that is neither the least nor the greatest belongs to a normal double. -/
theorem unpack_packComponents_normal (s : Sign) {b m : ℕ} (hm : 0 < m) (hb : 0 < b)
    (hb' : b < 2047) (hlo : 2 ^ 52 ≤ m) (hhi : m < 2 ^ 53) :
    unpack Format.binary64 (packComponents Format.binary64 s (BitVec.ofNat 11 b)
      (BitVec.ofNat 52 m)) = .finite s m (b - 1075) hm := by
  have hbn : (BitVec.ofNat 11 b).toNat = b := by rw [BitVec.toNat_ofNat]; omega
  have hmn : (BitVec.ofNat 52 m).toNat = m - 2 ^ 52 := by rw [BitVec.toNat_ofNat]; omega
  have htop : BitVec.ofNat 11 b ≠ -1#11 := fun h => by
    have : b = 2047 := hbn.symm.trans (congrArg BitVec.toNat h)
    omega
  have hbot : BitVec.ofNat 11 b ≠ 0#11 := fun h => by
    have : b = 0 := hbn.symm.trans (congrArg BitVec.toNat h)
    omega
  delta unpack
  dsimp only
  rw [unpackSign_packComponents, ofBitVec_toBitVec,
    if_neg (mt unpackExponent_packComponents.symm.trans htop),
    if_neg (mt unpackExponent_packComponents.symm.trans hbot)]
  refine finite_congr ?_ ?_
  · rw [unpackMantissa_packComponents, toNat_append_implicit, hmn]
    omega
  · rw [unpackExponent_packComponents, hbn]
    rfl

/-- The least exponent field belongs to a subnormal double, if the mantissa is not zero. -/
theorem unpack_packComponents_subnormal (s : Sign) {m : ℕ} (hm : 0 < m) (hhi : m < 2 ^ 52) :
    unpack Format.binary64 (packComponents Format.binary64 s 0#11 (BitVec.ofNat 52 m)) =
      .finite s m (-1074) hm := by
  have hmn : (BitVec.ofNat 52 m).toNat = m := by rw [BitVec.toNat_ofNat]; omega
  have hne : BitVec.ofNat 52 m ≠ 0#52 := fun h => by
    have : m = 0 := hmn.symm.trans (congrArg BitVec.toNat h)
    omega
  have htop : 0#11 ≠ -1#11 := by decide
  delta unpack
  dsimp only
  rw [unpackSign_packComponents, ofBitVec_toBitVec,
    if_neg (mt unpackExponent_packComponents.symm.trans htop), if_pos unpackExponent_packComponents,
    dif_neg (mt unpackMantissa_packComponents.symm.trans hne)]
  refine finite_congr ?_ ?_
  · rw [unpackMantissa_packComponents, hmn]
  · rw [unpackExponent_packComponents]
    rfl

/-- Packing a finite double in canonical form and unpacking it again loses nothing, unless the
exponent does not fit. -/
theorem unpack_pack_finite (s : Sign) {m : ℕ} {e : ℤ} (hm : 0 < m) (h : Canonical m e) :
    unpack Format.binary64 (pack Format.binary64 (.finite s m e hm)) =
      overflow (.finite s m e hm) := by
  have hleast : -1074 ≤ e := h.least
  have hhi := h.lt
  have hbias : (e + Format.binary64.exponentBias + Format.binary64.mantissaBitsWithoutImplicit)
      = e + 1075 := by
    have : (Format.binary64.exponentBias : ℤ) = 1023 := rfl
    have : (Format.binary64.mantissaBitsWithoutImplicit : ℤ) = 52 := rfl
    omega
  have hlog : m.log2 + 1 = Format.binary64.mantissaBits ↔ 2 ^ 52 ≤ m := by
    have hlt : m.log2 < 53 := (Nat.log2_lt hm.ne').2 hhi
    have hge : 52 ≤ m.log2 ↔ 2 ^ 52 ≤ m := Nat.le_log2 hm.ne'
    have : Format.binary64.mantissaBits = 53 := rfl
    omega
  delta pack
  rw [overflow_finite]
  dsimp only
  rw [hbias]
  by_cases he : 971 < e
  · rw [if_pos (by omega), if_pos he]
    cases s <;> rfl
  · rw [if_neg (by omega), if_neg he]
    by_cases hn : 2 ^ 52 ≤ m
    · rw [if_pos (hlog.2 hn)]
      refine (unpack_packComponents_normal s hm (by omega) (by omega) hn hhi).trans ?_
      exact finite_congr rfl (by omega)
    · have hle : e = -1074 := h.full.resolve_left hn
      rw [if_neg (mt hlog.1 hn)]
      refine (unpack_packComponents_subnormal s hm (by omega)).trans ?_
      exact finite_congr rfl hle.symm

/-- Packing a double in canonical form and unpacking it again loses nothing but what does not
fit. -/
theorem unpack_pack {u : UnpackedFloat} (h : Rounded u) :
    (Float.Model.pack u).unpack = overflow u := by
  cases u with
  | notANumber => rfl
  | infinity s => cases s <;> rfl
  | zero s => cases s <;> rfl
  | finite s m e hm => exact unpack_pack_finite s hm h

end GrowthGrammar.Double
