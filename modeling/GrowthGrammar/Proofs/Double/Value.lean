import GrowthGrammar.Proofs.Double.Unpacked

/-!
# The value of a double

`value x` is the rational number that a double stands for. Apart from what is not a number the order
of doubles is that of their values (`le_iff`, `lt_iff`, `beq_iff`), and a double is finite if its
value is in range (`isFinite_iff`). Among the doubles that are not negative the finite ones have the
least bits (`ofBits_of_lt`, `toBits_lt`).
-/

namespace GrowthGrammar.Double

open Float.Model (UnpackedFloat Format)
open Float.Model.UnpackedFloat

/-! ## The bits of a double -/

/-- What holds of every kind of double with the fields of some bits holds of these bits. -/
theorem unpack_cases {p : UnpackedFloat → Prop} (b : BitVec 64) (notANumber : p .notANumber)
    (infinity : p (.infinity (Sign.ofBitVec (@unpackSign Format.binary64 b))))
    (zero : p (.zero (Sign.ofBitVec (@unpackSign Format.binary64 b))))
    (subnormal : ∀ hm, p (.finite (Sign.ofBitVec (@unpackSign Format.binary64 b))
      (@unpackMantissa Format.binary64 b).toNat (-1074) hm))
    (normal : (@unpackExponent Format.binary64 b).toNat ≠ 0 →
      (@unpackExponent Format.binary64 b).toNat ≠ 2047 →
      ∀ hm, p (.finite (Sign.ofBitVec (@unpackSign Format.binary64 b))
        (1#1 ++ @unpackMantissa Format.binary64 b).toNat
        ((@unpackExponent Format.binary64 b).toNat - 1075) hm)) :
    p (unpack Format.binary64 b) := by
  delta unpack
  dsimp only
  by_cases htop : @unpackExponent Format.binary64 b = -1#_
  · rw [if_pos htop]
    by_cases hm : @unpackMantissa Format.binary64 b = 0#_
    · rw [if_pos hm]
      exact infinity
    · rw [if_neg hm]
      exact notANumber
  · rw [if_neg htop]
    by_cases hbot : @unpackExponent Format.binary64 b = 0#_
    · rw [if_pos hbot]
      by_cases hm : @unpackMantissa Format.binary64 b = 0#_
      · rw [dif_pos hm]
        exact zero
      · rw [dif_neg hm, hbot]
        exact subnormal _
    · rw [if_neg hbot]
      exact normal (fun h => hbot (BitVec.eq_of_toNat_eq h))
        (fun h => htop (BitVec.eq_of_toNat_eq h)) _

/-- What bits are unpacked to is in canonical form, with an exponent that fits. -/
theorem rounded_unpack (b : BitVec 64) :
    Rounded (unpack Format.binary64 b) ∧ InRange (unpack Format.binary64 b) := by
  have hm : (@unpackMantissa Format.binary64 b).toNat < 2 ^ 52 := BitVec.isLt _
  have he : (@unpackExponent Format.binary64 b).toNat < 2 ^ 11 := BitVec.isLt _
  refine unpack_cases (p := fun u => Rounded u ∧ InRange u) b ⟨trivial, trivial⟩ ⟨trivial, trivial⟩
    ⟨trivial, trivial⟩ (fun _ => ⟨⟨hm.trans (by decide), le_rfl, .inr rfl⟩, ?_⟩)
    fun hbot htop _ => ⟨⟨?_, ?_, .inl ?_⟩, ?_⟩
  · show (-1074 : ℤ) ≤ 971
    decide
  · rw [toNat_append_implicit]
    omega
  · unfold leastExponent
    omega
  · rw [toNat_append_implicit]
    omega
  · show _ ≤ _
    omega

/-- The exponent field of a double. -/
theorem toNat_unpackExponent (b : BitVec 64) :
    (@unpackExponent Format.binary64 b).toNat = b.toNat / 2 ^ 52 % 2 ^ 11 := by
  simp [unpackExponent, Nat.shiftRight_eq_div_pow]

/-- The mantissa field of a double. -/
theorem toNat_unpackMantissa (b : BitVec 64) :
    (@unpackMantissa Format.binary64 b).toNat = b.toNat % 2 ^ 52 := by
  simp [unpackMantissa]

/-- The sign of a double without the sign bit. -/
theorem unpackSign_of_lt {b : BitVec 64} (hb : b.toNat < 2 ^ 63) :
    Sign.ofBitVec (@unpackSign Format.binary64 b) = .positive := by
  have h : @unpackSign Format.binary64 b = 0#1 := by
    apply BitVec.eq_of_toNat_eq
    delta unpackSign
    simp [Nat.shiftRight_eq_div_pow]
    omega
  rw [h]
  rfl

/-- The sign of a double with the sign bit. -/
theorem unpackSign_of_ge {b : BitVec 64} (hb : 2 ^ 63 ≤ b.toNat) :
    Sign.ofBitVec (@unpackSign Format.binary64 b) = .negative := by
  have hlt := b.isLt
  have h : @unpackSign Format.binary64 b = 1#1 := by
    apply BitVec.eq_of_toNat_eq
    delta unpackSign
    simp [Nat.shiftRight_eq_div_pow]
    omega
  rw [h]
  rfl

/-- Bits with a positive exponent field below the greatest are those of a normal double. -/
theorem unpack_normal {b : BitVec 64} {f k : ℕ} (hb : b.toNat = f * 2 ^ 52 + k) (hf : 0 < f)
    (hf' : f < 2047) (hk : k < 2 ^ 52) :
    unpack Format.binary64 b = .finite .positive (2 ^ 52 + k) (f - 1075) (by omega) := by
  have he : (@unpackExponent Format.binary64 b).toNat = f := by
    rw [toNat_unpackExponent]
    omega
  have hm : (@unpackMantissa Format.binary64 b).toNat = k := by
    rw [toNat_unpackMantissa]
    omega
  have htop : @unpackExponent Format.binary64 b ≠ -1#_ := fun h => by
    have : f = 2047 := he.symm.trans (congrArg BitVec.toNat h)
    omega
  have hbot : @unpackExponent Format.binary64 b ≠ 0#_ := fun h => by
    have : f = 0 := he.symm.trans (congrArg BitVec.toNat h)
    omega
  delta unpack
  dsimp only
  rw [if_neg htop, if_neg hbot, unpackSign_of_lt (by omega)]
  refine finite_congr ?_ ?_
  · rw [toNat_append_implicit, hm]
  · rw [he]
    rfl

/-- Bits without sign and exponent are those of zero or of a subnormal double. -/
theorem unpack_subnormal {b : BitVec 64} (hb : b.toNat < 2 ^ 52) :
    unpack Format.binary64 b =
      if h : b.toNat = 0 then .zero .positive
      else .finite .positive b.toNat (-1074) (Nat.pos_of_ne_zero h) := by
  have he : @unpackExponent Format.binary64 b = 0#_ := by
    apply BitVec.eq_of_toNat_eq
    rw [toNat_unpackExponent]
    show _ = 0
    omega
  have hm : (@unpackMantissa Format.binary64 b).toNat = b.toNat := by
    rw [toNat_unpackMantissa]
    omega
  delta unpack
  dsimp only
  rw [he, if_neg (by decide), if_pos rfl, unpackSign_of_lt (by omega)]
  by_cases h : b.toNat = 0
  · have hzero : @unpackMantissa Format.binary64 b = 0#_ := by
      apply BitVec.eq_of_toNat_eq
      rw [hm, h]
      rfl
    rw [dif_pos h, dif_pos hzero]
  · have hne : @unpackMantissa Format.binary64 b ≠ 0#_ := fun hzero =>
      h (hm.symm.trans (congrArg BitVec.toNat hzero))
    rw [dif_neg h, dif_neg hne]
    exact finite_congr hm rfl

/-! ## Doubles -/

/-- The number that a double stands for. -/
def value (x : Float) : ℚ := numeral x.toModel.unpack

/-- The double that an unpacked one is packed into. -/
def ofUnpacked (u : UnpackedFloat) : Float := .ofModel (.pack u)

/-- A double keeps the number that it was packed from, unless that is out of range. -/
theorem value_ofUnpacked {u : UnpackedFloat} (h : Rounded u) :
    value (ofUnpacked u) = clamp (numeral u) :=
  (congrArg numeral (unpack_pack h)).trans (numeral_overflow h)

/-- A double is a number if what it was packed from is one. -/
theorem isNaN_ofUnpacked {u : UnpackedFloat} (h : Rounded u) :
    (ofUnpacked u).isNaN = u.isNaN := by
  refine (congrArg UnpackedFloat.isNaN (unpack_pack h)).trans ?_
  cases u with
  | finite s m e hm =>
    rw [overflow_finite]
    by_cases he : 971 < e
    · rw [if_pos he]
      rfl
    · rw [if_neg he]
  | notANumber | infinity | zero => rfl

/-- A number of doubles unpacks to a canonical form whose exponent fits. -/
theorem rounded_toModel (x : Float) :
    Rounded x.toModel.unpack ∧ InRange x.toModel.unpack := rounded_unpack _

/-- Nothing compares with what is not a number. -/
theorem compare_of_isNaN {u v : UnpackedFloat} (h : ¬(u.isNaN = false ∧ v.isNaN = false)) :
    u.compare v = none := by
  cases u with
  | notANumber => rfl
  | infinity s | zero s | finite s m e hm =>
    cases v with
    | notANumber => rfl
    | infinity t | zero t | finite t n f hn => exact absurd ⟨rfl, rfl⟩ h

/-- Two doubles compare as their values, unless one of them is not a number. -/
theorem compare_toModel (x y : Float) :
    (∃ o, x.toModel.unpack.compare y.toModel.unpack = some o ∧
      o.Compares (value x) (value y) ∧ x.isNaN = false ∧ y.isNaN = false) ∨
    (x.toModel.unpack.compare y.toModel.unpack = none ∧
      ¬(x.isNaN = false ∧ y.isNaN = false)) := by
  obtain ⟨hu, iu⟩ := rounded_toModel x
  obtain ⟨hv, iv⟩ := rounded_toModel y
  by_cases h : x.isNaN = false ∧ y.isNaN = false
  · obtain ⟨o, ho, hcmp⟩ := compare_numeral hu hv iu iv h.1 h.2
    exact .inl ⟨o, ho, hcmp, h⟩
  · exact .inr ⟨compare_of_isNaN h, h⟩

/-- The order of doubles is that of their values, apart from what is not a number. -/
theorem le_iff {x y : Float} :
    x ≤ y ↔ x.isNaN = false ∧ y.isNaN = false ∧ value x ≤ value y := by
  have hle : x ≤ y ↔ (x.toModel.unpack.compare y.toModel.unpack).any (·.isLE) = true := by
    show decide (x.toModel ≤ y.toModel) = true ↔ _
    rw [decide_eq_true_iff]
    rfl
  rw [hle]
  rcases compare_toModel x y with ⟨o, ho, hcmp, hx, hy⟩ | ⟨hnone, hnan⟩
  · rw [ho, Option.any_some]
    cases o with
    | lt => exact iff_of_true rfl ⟨hx, hy, le_of_lt hcmp⟩
    | eq => exact iff_of_true rfl ⟨hx, hy, le_of_eq hcmp⟩
    | gt => exact iff_of_false Bool.false_ne_true fun h => not_le_of_gt hcmp h.2.2
  · rw [hnone]
    exact iff_of_false Bool.false_ne_true fun h => hnan ⟨h.1, h.2.1⟩

/-- The strict order of doubles is that of their values, apart from what is not a number. -/
theorem lt_iff {x y : Float} :
    x < y ↔ x.isNaN = false ∧ y.isNaN = false ∧ value x < value y := by
  have hlt : x < y ↔ (x.toModel.unpack.compare y.toModel.unpack == some .lt) = true := by
    show decide (x.toModel < y.toModel) = true ↔ _
    rw [decide_eq_true_iff]
    rfl
  rw [hlt]
  rcases compare_toModel x y with ⟨o, ho, hcmp, hx, hy⟩ | ⟨hnone, hnan⟩
  · rw [ho]
    cases o with
    | lt => exact iff_of_true rfl ⟨hx, hy, hcmp⟩
    | eq => exact iff_of_false Bool.false_ne_true fun h => not_lt_of_ge (ge_of_eq hcmp) h.2.2
    | gt => exact iff_of_false Bool.false_ne_true fun h => lt_asymm hcmp h.2.2
  · rw [hnone]
    exact iff_of_false Bool.false_ne_true fun h => hnan ⟨h.1, h.2.1⟩

/-- Equality of doubles is that of their values, apart from what is not a number. -/
theorem beq_iff {x y : Float} :
    (x == y) = true ↔ x.isNaN = false ∧ y.isNaN = false ∧ value x = value y := by
  have heq : (x == y) = (x.toModel.unpack.compare y.toModel.unpack == some .eq) := rfl
  rw [heq]
  rcases compare_toModel x y with ⟨o, ho, hcmp, hx, hy⟩ | ⟨hnone, hnan⟩
  · rw [ho]
    cases o with
    | eq => exact iff_of_true rfl ⟨hx, hy, hcmp⟩
    | lt => exact iff_of_false Bool.false_ne_true fun h => ne_of_lt hcmp h.2.2
    | gt => exact iff_of_false Bool.false_ne_true fun h => ne_of_gt hcmp h.2.2
  · rw [hnone]
    exact iff_of_false Bool.false_ne_true fun h => hnan ⟨h.1, h.2.1⟩

/-- A double is finite if it is a number in range. -/
theorem isFinite_iff {x : Float} :
    x.isFinite = true ↔ x.isNaN = false ∧ |value x| < outOfRange := by
  obtain ⟨hu, iu⟩ := rounded_toModel x
  show x.toModel.unpack.isFinite = true ↔
    x.toModel.unpack.isNaN = false ∧ |numeral x.toModel.unpack| < outOfRange
  generalize x.toModel.unpack = u at hu iu
  cases u with
  | notANumber => exact iff_of_false Bool.false_ne_true fun h => Bool.noConfusion h.1
  | infinity s =>
    exact iff_of_false Bool.false_ne_true fun h => h.2.ne abs_numeral_infinity
  | zero s => exact iff_of_true rfl ⟨rfl, abs_zero.trans_lt outOfRange_pos⟩
  | finite s m e hm => exact iff_of_true rfl ⟨rfl, abs_numeral_lt hu iu⟩

/-- A finite double is a number. -/
theorem isNaN_of_isFinite {x : Float} (hx : x.isFinite = true) : x.isNaN = false :=
  (isFinite_iff.1 hx).1

/-- The value of a finite double is below the first number out of range. -/
theorem value_lt_outOfRange {x : Float} (hx : x.isFinite = true) : value x < outOfRange :=
  (le_abs_self _).trans_lt (isFinite_iff.1 hx).2

/-- A number in range that is not negative is finite. -/
theorem isFinite_of_range {x : Float} (hx : x.isNaN = false) (hnonneg : 0 ≤ value x)
    (hlt : value x < outOfRange) : x.isFinite = true :=
  isFinite_iff.2 ⟨hx, (abs_of_nonneg hnonneg).trans_lt hlt⟩

/-- A number with the value of a finite double is finite. -/
theorem isFinite_congr {x y : Float} (hx : x.isNaN = false) (hy : y.isFinite = true)
    (h : value x = value y) : x.isFinite = true :=
  isFinite_iff.2 ⟨hx, h ▸ (isFinite_iff.1 hy).2⟩

/-- Two doubles that are numbers are in the order of their values. -/
theorem le_iff_value {x y : Float} (hx : x.isNaN = false) (hy : y.isNaN = false) :
    x ≤ y ↔ value x ≤ value y :=
  le_iff.trans ⟨fun h => h.2.2, fun h => ⟨hx, hy, h⟩⟩

/-- Two doubles that are numbers are in the strict order of their values. -/
theorem lt_iff_value {x y : Float} (hx : x.isNaN = false) (hy : y.isNaN = false) :
    x < y ↔ value x < value y :=
  lt_iff.trans ⟨fun h => h.2.2, fun h => ⟨hx, hy, h⟩⟩

/-- Rounding a signed magnitude rounds the magnitude. -/
theorem roundUnbounded_signum (s : Sign) {q : ℚ} (hq : 0 ≤ q) :
    roundUnbounded (signum s * q) = signum s * roundMagnitude q := by
  have hpos : roundUnbounded q = roundMagnitude q := by rw [roundUnbounded, if_neg hq.not_gt]
  cases s with
  | negative => rw [signum, neg_one_mul, neg_one_mul, roundUnbounded_neg, hpos]
  | positive => rw [signum, one_mul, one_mul, hpos]

/-- The first number out of range is not rounded. -/
theorem roundMagnitude_outOfRange : roundMagnitude outOfRange = outOfRange := by
  have heq : (((2 ^ 52 : ℕ) : ℚ) * 2 ^ (972 : ℤ)) = outOfRange := by
    rw [zpow_ofNat, outOfRange, Nat.cast_pow, Nat.cast_ofNat, ← pow_add]
  rw [← heq]
  exact roundMagnitude_dyadic (by decide) (by decide)

/-- An unpacked double in canonical form is not rounded. -/
theorem roundUnbounded_numeral {u : UnpackedFloat} (h : Rounded u) :
    roundUnbounded (numeral u) = numeral u := by
  cases u with
  | notANumber | zero s => exact roundUnbounded_zero
  | infinity s =>
    refine (roundUnbounded_signum s outOfRange_pos.le).trans ?_
    rw [roundMagnitude_outOfRange]
    rfl
  | finite s m e hm =>
    rw [numeral_finite, roundUnbounded_signum s (by positivity),
      roundMagnitude_dyadic h.lt h.least]

/-- The value of a double is in range, or the first number out of range. -/
theorem abs_value_le (x : Float) : |value x| ≤ outOfRange := by
  obtain ⟨hu, iu⟩ := rounded_toModel x
  unfold value
  generalize x.toModel.unpack = u at hu iu
  cases u with
  | notANumber | zero s => exact abs_zero.trans_le outOfRange_pos.le
  | infinity s => exact abs_numeral_infinity.le
  | finite s m e hm => exact (abs_numeral_lt hu iu).le

/-- Every double is the one nearest to its value. -/
theorem nearest_value (x : Float) : nearest (value x) = value x := by
  rw [nearest, value, roundUnbounded_numeral (rounded_toModel x).1]
  exact clamp_of_abs_le (abs_value_le x)

/-- The value of a finite double is a whole number of times the least positive double. -/
theorem exists_value_eq {x : Float} (hx : x.isFinite = true) :
    ∃ n : ℤ, value x = n * 2 ^ leastExponent := by
  obtain ⟨hu, -⟩ := rounded_toModel x
  show ∃ n : ℤ, numeral x.toModel.unpack = n * 2 ^ leastExponent
  replace hx : x.toModel.unpack.isFinite = true := hx
  generalize x.toModel.unpack = u at hu hx
  cases u with
  | notANumber | infinity => cases hx
  | zero s => exact ⟨0, by rw [numeral_zero, Int.cast_zero, zero_mul]⟩
  | finite s m e hm =>
    obtain ⟨k, hk⟩ := Int.le.dest hu.least
    refine ⟨s.apply (m * 2 ^ k : ℕ), ?_⟩
    rw [numeral_finite, cast_apply, ← hk, zpow_add₀ two_ne_zero, zpow_natCast, Nat.cast_mul,
      Nat.cast_pow, Nat.cast_ofNat]
    ring

/-- Two finite doubles are apart by at least the least positive double. -/
theorem least_le_value_sub {x y : Float} (hx : x.isFinite = true) (hy : y.isFinite = true)
    (h : value x < value y) : 2 ^ leastExponent ≤ value y - value x := by
  obtain ⟨m, hm⟩ := exists_value_eq hx
  obtain ⟨n, hn⟩ := exists_value_eq hy
  have hpos : (0 : ℚ) < 2 ^ leastExponent := zpow_pos two_pos _
  rw [hm, hn] at h ⊢
  have hlt : (m : ℚ) < n := lt_of_mul_lt_mul_right h hpos.le
  have hone : (1 : ℚ) ≤ n - m := by exact_mod_cast Int.sub_pos_of_lt (by exact_mod_cast hlt)
  rw [← sub_mul]
  exact le_mul_of_one_le_left hpos.le hone

/-! ## Doubles from their bits -/

/-- Bits unpack to what they stand for. -/
theorem unpack_ofBits (w : UInt64) :
    (Float.ofBits w).toModel.unpack = unpack Format.binary64 w.toBitVec := by
  obtain ⟨hu, iu⟩ := rounded_unpack w.toBitVec
  refine (unpack_pack hu).trans ?_
  generalize unpack Format.binary64 w.toBitVec = u at iu
  cases u with
  | notANumber | infinity | zero => rfl
  | finite s m e hm => exact if_neg (not_lt.2 iu)

/-- Bits below those of the positive infinity are those of a finite double that is not negative. -/
theorem ofBits_of_lt {w : UInt64} (hw : w.toNat < 0x7FF0000000000000) :
    (Float.ofBits w).isFinite = true ∧ 0 ≤ value (Float.ofBits w) := by
  show (Float.ofBits w).toModel.unpack.isFinite = true ∧
    0 ≤ numeral (Float.ofBits w).toModel.unpack
  rw [unpack_ofBits]
  rcases lt_or_ge w.toNat (2 ^ 52) with hlt | hge
  · rw [unpack_subnormal hlt]
    by_cases h : w.toBitVec.toNat = 0
    · rw [dif_pos h]
      exact ⟨rfl, le_rfl⟩
    · rw [dif_neg h]
      refine ⟨rfl, ?_⟩
      rw [numeral_positive]
      positivity
  · rw [unpack_normal (f := w.toNat / 2 ^ 52) (k := w.toNat % 2 ^ 52)
      (Nat.div_add_mod' _ _).symm (by omega) (by omega) (by omega)]
    refine ⟨rfl, ?_⟩
    rw [numeral_positive]
    positivity

/-- A negative sign stands for no positive number. -/
theorem numeral_negative_nonpos {m : ℕ} {e : ℤ} (hm : 0 < m) :
    numeral (.finite .negative m e hm) ≤ 0 := by
  rw [numeral_negative]
  exact neg_nonpos.2 (by positivity)

/-- Bits with the sign bit stand for no positive number. -/
theorem numeral_unpack_nonpos {b : BitVec 64} (hb : 2 ^ 63 ≤ b.toNat) :
    numeral (unpack Format.binary64 b) ≤ 0 := by
  have hsign := unpackSign_of_ge hb
  refine unpack_cases (p := fun u => numeral u ≤ 0) b le_rfl ?_ le_rfl (fun hm => ?_)
    fun _ _ hm => ?_
  · rw [hsign, numeral_negative_infinity]
    exact (neg_neg_of_pos outOfRange_pos).le
  · rw [hsign]
    exact numeral_negative_nonpos hm
  · rw [hsign]
    exact numeral_negative_nonpos hm

/-- Bits with the greatest exponent field stand for nothing finite. -/
theorem isFinite_unpack_top {b : BitVec 64} (hb : b.toNat / 2 ^ 52 % 2 ^ 11 = 2047) :
    (unpack Format.binary64 b).isFinite = false := by
  have htop : @unpackExponent Format.binary64 b = -1#_ := by
    apply BitVec.eq_of_toNat_eq
    rw [toNat_unpackExponent, hb]
    rfl
  delta unpack
  dsimp only
  rw [if_pos htop]
  split_ifs <;> rfl

/-- The bits of a finite positive double are below those of the positive infinity. -/
theorem toBits_lt {x : Float} (hx : x.isFinite = true) (hpos : 0 < value x) :
    x.toBits.toNat < 0x7FF0000000000000 := by
  by_contra hge
  have hlt := x.toBits.toNat_lt
  rcases lt_or_ge x.toBits.toNat (2 ^ 63) with hsign | hsign
  · have htop : x.toBits.toNat / 2 ^ 52 % 2 ^ 11 = 2047 := by omega
    have hinf : x.isFinite = false := isFinite_unpack_top (b := x.toBits.toBitVec) htop
    exact Bool.false_ne_true (hinf.symm.trans hx)
  · exact absurd hpos (numeral_unpack_nonpos (b := x.toBits.toBitVec) hsign).not_gt

/-! ## Constants -/

theorem value_zero : value 0 = 0 := rfl

theorem isFinite_zero : Float.isFinite 0 = true := rfl

theorem isFinite_one : Float.isFinite 1.0 = true := rfl

theorem value_one : value 1.0 = 1 := by
  have h : value 1.0 = signum .positive * ((2 ^ 52 : ℕ) * 2 ^ (-52 : ℤ)) := rfl
  rw [h, signum]
  norm_num

end GrowthGrammar.Double
