import GrowthGrammar.Proofs.Double.Value

/-!
# The arithmetic of doubles

The sum, the difference, the product and the quotient of two finite doubles are the doubles nearest
to the sum, the difference, the product and the quotient of their values (`value_add`, `value_sub`,
`value_mul`, `value_div`). What the operations have in common is the rounding of a fraction and an
exponent, which shifts the fraction to the unit of the last place and rounds what falls off
(`rounds_roundWithAccuracy`); only a quotient has more to it than a whole mantissa.
-/

namespace GrowthGrammar.Double

open Float.Model (UnpackedFloat Format totalExponent)
open Float.Model.UnpackedFloat

/-! ## Shifting a fraction -/

/-- The extended mantissa of a fraction: its whole part, whether the rest is at least a half, and
whether the rest is neither nothing nor a half. -/
def ofFraction (num den : ℕ) : ExtendedMantissa :=
  ⟨num / den, decide (den ≤ 2 * (num % den)), decide (num % den ≠ 0 ∧ 2 * (num % den) ≠ den)⟩

theorem mantissa_ofFraction (num den : ℕ) : (ofFraction num den).mantissa = num / den := rfl

/-- A mantissa without a rest is a fraction. -/
theorem ofMantissaAndAccuracy_exact (m : ℕ) :
    ExtendedMantissa.ofMantissaAndAccuracy m .exact = ofFraction m 1 := by
  simp [ExtendedMantissa.ofMantissaAndAccuracy, ofFraction, Nat.mod_one]

/-- A whole part and a rest are a fraction. -/
theorem ofMantissaAndAccuracy_fraction (num : ℕ) {den : ℕ} (hden : 0 < den) :
    ExtendedMantissa.ofMantissaAndAccuracy (num / den) (accuracyOfFraction (num % den) den) =
      ofFraction num den := by
  rw [accuracyOfFraction, ofFraction]
  by_cases hzero : num % den = 0
  · rw [if_pos hzero, decide_eq_false (by omega), decide_eq_false (by omega)]
    rfl
  · rw [if_neg hzero]
    rcases lt_trichotomy (2 * (num % den)) den with hlt | heq | hgt
    · rw [compare_lt_iff_lt.2 hlt, decide_eq_false (by omega), decide_eq_true (by omega)]
      rfl
    · rw [compare_eq_iff_eq.2 heq, decide_eq_true (by omega), decide_eq_false (by omega)]
      rfl
    · rw [compare_gt_iff_gt.2 hgt, decide_eq_true (by omega), decide_eq_true (by omega)]
      rfl

/-- A shift halves the fraction. -/
theorem shiftRightOne_ofFraction (num : ℕ) {den : ℕ} (hden : 0 < den) :
    (ofFraction num den).shiftRightOne = ofFraction num (den * 2) := by
  have hlt : num % den < den := Nat.mod_lt _ hden
  rw [ExtendedMantissa.shiftRightOne, ofFraction, ofFraction, ExtendedMantissa.mk.injEq]
  dsimp only
  -- the last bit of the whole part becomes the round bit, and decides what the new rest is
  rw [Nat.div_div_eq_div_mul, Nat.mod_mul]
  refine ⟨rfl, ?_, ?_⟩
  · rw [Bool.eq_iff_iff, bne_iff_ne, decide_eq_true_iff]
    rcases Nat.mod_two_eq_zero_or_one (num / den) with hbit | hbit <;> rw [hbit] <;> omega
  · rw [Bool.eq_iff_iff, Bool.or_eq_true, decide_eq_true_iff, decide_eq_true_iff,
      decide_eq_true_iff]
    rcases Nat.mod_two_eq_zero_or_one (num / den) with hbit | hbit <;> rw [hbit] <;> omega

/-- Shifts divide the fraction by a power of two. -/
theorem shiftRight_ofFraction (num : ℕ) {den : ℕ} (hden : 0 < den) (k : ℕ) :
    ofFraction num den >>> k = ofFraction num (den * 2 ^ k) := by
  induction k with
  | zero => rw [Nat.pow_zero, Nat.mul_one]; rfl
  | succ k ih =>
    have hstep : ofFraction num den >>> (k + 1) = (ofFraction num den >>> k).shiftRightOne := rfl
    have hpos : 0 < den * 2 ^ k := Nat.mul_pos hden (Nat.two_pow_pos k)
    rw [hstep, ih, shiftRightOne_ofFraction num hpos, Nat.mul_assoc, ← Nat.pow_succ]

/-- A fraction is rounded as the quotient that it is. -/
theorem roundedMantissa_ofFraction (num : ℕ) {den : ℕ} (hden : 0 < den) :
    (ofFraction num den).roundedMantissa = roundDiv num den := by
  rw [ofFraction, ExtendedMantissa.roundedMantissa, roundDiv]
  dsimp only
  by_cases hround : den ≤ 2 * (num % den)
  · by_cases hsticky : num % den ≠ 0 ∧ 2 * (num % den) ≠ den
    · rw [decide_eq_true hround, decide_eq_true hsticky, if_neg (by omega), if_pos (by omega)]
      rfl
    · rw [decide_eq_true hround, decide_eq_false hsticky, if_neg (by omega), if_neg (by omega)]
      rfl
  · by_cases hsticky : num % den ≠ 0 ∧ 2 * (num % den) ≠ den
    · rw [decide_eq_false hround, decide_eq_true hsticky, if_pos (by omega)]
      rfl
    · rw [decide_eq_false hround, decide_eq_false hsticky, if_pos (by omega)]
      rfl

/-! ## Rounding a mantissa and an exponent -/

/-- A mantissa is shifted to the exponent of the unit in the last place. -/
theorem targetExponent_eq {m : ℕ} (hm : 0 < m) (e : ℤ) :
    Format.binary64.targetExponent (totalExponent m e) = ulpExponent (m * 2 ^ e) := by
  have hbits : (Format.binary64.mantissaBits : ℤ) = 53 := rfl
  have hleast : Format.binary64.minExponent = leastExponent := rfl
  rw [ulpExponent_dyadic hm, Format.targetExponent, totalExponent, hbits, hleast]
  omega

/-- Once a mantissa is rounded, a last shift by at most one bit makes it canonical and loses
nothing. -/
theorem canonical_shiftToTargetExponent {m : ℕ} {e : ℤ} (hm : m ≤ 2 ^ 53)
    (hleast : leastExponent ≤ e) (hfull : 2 ^ 52 ≤ m ∨ e = leastExponent) :
    Canonical (shiftToTargetExponent Format.binary64 m e .exact).1.mantissa
        (shiftToTargetExponent Format.binary64 m e .exact).2 ∧
      ((shiftToTargetExponent Format.binary64 m e .exact).1.mantissa : ℚ) *
        2 ^ (shiftToTargetExponent Format.binary64 m e .exact).2 = m * 2 ^ e := by
  simp only [shiftToTargetExponent, shiftToExponent, ofMantissaAndAccuracy_exact,
    shiftRight_ofFraction _ Nat.one_pos, mantissa_ofFraction, Nat.one_mul]
  rcases Nat.lt_or_eq_of_le hm with hlt | rfl
  · have hkeep : (Format.binary64.targetExponent (totalExponent m e) - e).toNat = 0 := by
      rcases m.eq_zero_or_pos with rfl | hpos
      · have hzero : Format.binary64.targetExponent (totalExponent 0 e) =
            max (e - 52) leastExponent := by
          have hbits : (Format.binary64.mantissaBits : ℤ) = 53 := rfl
          have hmin : Format.binary64.minExponent = leastExponent := rfl
          rw [Format.targetExponent, totalExponent, hbits, hmin, Nat.log2_zero]
          omega
        omega
      · rw [targetExponent_eq hpos, Canonical.ulpExponent_eq ⟨hlt, hleast, hfull⟩ hpos]
        omega
    rw [hkeep, Nat.pow_zero, Nat.div_one, Int.ofNat_zero, Int.add_zero]
    exact ⟨⟨hlt, hleast, hfull⟩, rfl⟩
  · have hone : (Format.binary64.targetExponent (totalExponent (2 ^ 53) e) - e).toNat = 1 := by
      rw [targetExponent_eq (by positivity), ulpExponent_dyadic (by positivity), Nat.log2_two_pow]
      omega
    rw [hone]
    refine ⟨⟨by norm_num, by omega, .inl (by norm_num)⟩, ?_⟩
    rw [Nat.cast_one, zpow_add₀ two_ne_zero]
    norm_num
    ring

/-- An unpacked double is what a number is rounded to. -/
structure Rounds (u : UnpackedFloat) (q : ℚ) : Prop where
  rounded : Rounded u
  isNumber : u.isNaN = false
  numeral_eq : numeral u = roundUnbounded q

/-- A fraction is shifted to the exponent of its unit in the last place. If it has no whole part,
that is the least exponent. -/
theorem targetExponent_fraction {num den : ℕ} (hnum : 0 < num) (hden : 0 < den) {e : ℤ}
    (he : e ≤ ulpExponent ((num : ℚ) / den * 2 ^ e)) :
    Format.binary64.targetExponent (totalExponent (num / den) e) =
      ulpExponent ((num : ℚ) / den * 2 ^ e) := by
  rcases Nat.lt_or_ge num den with hlt | hge
  · have hq : (0 : ℚ) < num / den := by positivity
    have hone : (num : ℚ) / den < (2 : ℕ) ^ (0 : ℤ) := by
      rw [zpow_zero, div_lt_one (by exact_mod_cast hden)]
      exact_mod_cast hlt
    have hlog : Int.log 2 ((num : ℚ) / den) < 0 := (Int.lt_zpow_iff_log_lt one_lt_two hq).1 hone
    have hbits : (Format.binary64.mantissaBits : ℤ) = 53 := rfl
    have hleast : Format.binary64.minExponent = leastExponent := rfl
    rw [ulpExponent, log_mul_zpow hq] at he ⊢
    rw [Nat.div_eq_of_lt hlt, Format.targetExponent, totalExponent, hbits, hleast, Nat.log2_zero]
    omega
  · rw [targetExponent_eq (Nat.div_pos hge hden), ulpExponent_fraction hden hge]

/-- Rounding a fraction and an exponent rounds the number that they stand for, provided that no bit
of the rounded mantissa is missing in the whole part of the fraction. -/
theorem rounds_roundWithAccuracy (s : Sign) {num den : ℕ} {e : ℤ} (hnum : 0 < num) (hden : 0 < den)
    (he : e ≤ ulpExponent ((num : ℚ) / den * 2 ^ e)) :
    Rounds (roundWithAccuracy Format.binary64 s (num / den) e (accuracyOfFraction (num % den) den))
      (signum s * (num / den * 2 ^ e)) := by
  have hq : (0 : ℚ) < num / den * 2 ^ e := by positivity
  obtain ⟨k, hk⟩ := Int.le.dest he
  -- the first shift drops what does not fill a unit, and rounds it
  have hround : roundDiv num (den * 2 ^ k) =
      roundRat (num / den * 2 ^ e / 2 ^ ulpExponent (num / den * 2 ^ e)) := by
    rw [← hk, zpow_add₀ two_ne_zero, zpow_natCast, mul_comm (2 ^ e : ℚ),
      mul_div_mul_right _ _ (by positivity), div_div,
      ← roundRat_div num (Nat.mul_pos hden (Nat.two_pow_pos k)), Nat.cast_mul, Nat.cast_pow,
      Nat.cast_ofNat]
  have hshift : shiftToTargetExponent Format.binary64 (num / den) e
      (accuracyOfFraction (num % den) den) =
        (ofFraction num (den * 2 ^ k), ulpExponent (num / den * 2 ^ e)) := by
    simp only [shiftToTargetExponent, shiftToExponent, targetExponent_fraction hnum hden he,
      ofMantissaAndAccuracy_fraction num hden, shiftRight_ofFraction num hden]
    have hk' : (ulpExponent (num / den * 2 ^ e) - e).toNat = k := by omega
    rw [hk', hk]
  have hfull : 2 ^ 52 ≤ roundDiv num (den * 2 ^ k) ∨
      ulpExponent (num / den * 2 ^ e) = leastExponent := by
    rcases (le_max_right _ _ : leastExponent ≤ ulpExponent (num / den * 2 ^ e)).lt_or_eq with
      hlt | heq
    · exact .inl (hround ▸ le_roundRat_ulp hq hlt)
    · exact .inr heq.symm
  obtain ⟨hcan, hval⟩ := canonical_shiftToTargetExponent (m := roundDiv num (den * 2 ^ k))
    (e := ulpExponent (num / den * 2 ^ e)) (hround ▸ roundRat_ulp_le hq.le) (le_max_right _ _) hfull
  delta roundWithAccuracy
  dsimp only
  rw [hshift]
  dsimp only
  rw [roundedMantissa_ofFraction num (Nat.mul_pos hden (Nat.two_pow_pos k))]
  have hnumeral : roundUnbounded (signum s * (num / den * 2 ^ e)) =
      signum s * (roundDiv num (den * 2 ^ k) * 2 ^ ulpExponent (num / den * 2 ^ e)) := by
    rw [roundUnbounded_signum s hq.le, roundMagnitude, hround]
  by_cases hzero : (shiftToTargetExponent Format.binary64 (roundDiv num (den * 2 ^ k))
      (ulpExponent (num / den * 2 ^ e)) .exact).1.mantissa = 0
  · rw [dif_pos hzero]
    refine ⟨trivial, rfl, ?_⟩
    rw [hnumeral, ← hval, hzero, numeral_zero, Nat.cast_zero, zero_mul, mul_zero]
  · rw [dif_neg hzero]
    refine ⟨hcan, rfl, ?_⟩
    rw [hnumeral, ← hval]
    rfl

/-- A mantissa without a rest is rounded as the number that it stands for. -/
theorem rounds_exact (s : Sign) {m : ℕ} {e : ℤ} (hm : 0 < m) (he : e ≤ ulpExponent (m * 2 ^ e)) :
    Rounds (roundWithAccuracy Format.binary64 s m e .exact) (signum s * (m * 2 ^ e)) := by
  have hone : (m : ℚ) / (1 : ℕ) = m := by rw [Nat.cast_one, div_one]
  have h := rounds_roundWithAccuracy s hm Nat.one_pos (he.trans_eq (by rw [hone]))
  rwa [hone, Nat.div_one, Nat.mod_one, accuracyOfFraction, if_pos rfl] at h

/-- A finer exponent with more bits in the mantissa is the same number. -/
theorem decreaseExponent_value (m : ℕ) (e t : ℤ) :
    ((decreaseExponent m e t).1 * 2 ^ (decreaseExponent m e t).2 : ℚ) = m * 2 ^ e := by
  simp only [decreaseExponent, Nat.shiftLeft_eq, Nat.cast_mul, Nat.cast_pow, Nat.cast_ofNat]
  rw [zpow_sub₀ two_ne_zero, zpow_natCast]
  field_simp

/-- A mantissa and an exponent are rounded as the number that they stand for. -/
theorem rounds_round (s : Sign) {m : ℕ} (hm : 0 < m) (e : ℤ) :
    Rounds (UnpackedFloat.round Format.binary64 s m e) (signum s * (m * 2 ^ e)) := by
  have hval := decreaseExponent_value m e (ulpExponent (m * 2 ^ e))
  have hpos : 0 < (decreaseExponent m e (ulpExponent (m * 2 ^ e))).1 := by
    have hpow := Nat.two_pow_pos (e - ulpExponent (m * 2 ^ e)).toNat
    simpa only [decreaseExponent, Nat.shiftLeft_eq] using Nat.mul_pos hm hpow
  have hle : (decreaseExponent m e (ulpExponent (m * 2 ^ e))).2 ≤ ulpExponent (m * 2 ^ e) := by
    simp only [decreaseExponent]
    omega
  have h := rounds_exact s hpos (hle.trans_eq (by rw [hval]))
  rw [hval] at h
  simp only [UnpackedFloat.round, targetExponent_eq hm]
  exact h

/-- A signed mantissa and an exponent are rounded as the number that they stand for. -/
theorem rounds_normalize (m e : ℤ) (z : Sign) :
    Rounds (UnpackedFloat.normalize Format.binary64 m e z) (m * 2 ^ e) := by
  unfold UnpackedFloat.normalize
  rcases lt_trichotomy m 0 with hneg | rfl | hpos
  · have h := rounds_round .negative (m := (-m).toNat) (by omega) e
    have hcast : (((-m).toNat : ℕ) : ℚ) = -m := by
      exact_mod_cast congrArg (Int.cast (R := ℚ)) (Int.toNat_of_nonneg (by omega : 0 ≤ -m))
    rw [hcast, signum, neg_one_mul, neg_mul, neg_neg] at h
    rw [compare_lt_iff_lt.2 hneg]
    exact h
  · refine ⟨trivial, rfl, ?_⟩
    rw [Int.cast_zero, zero_mul, roundUnbounded_zero]
    rfl
  · have h := rounds_round .positive (m := m.toNat) (by omega) e
    have hcast : ((m.toNat : ℕ) : ℚ) = m := by
      exact_mod_cast congrArg (Int.cast (R := ℚ)) (Int.toNat_of_nonneg hpos.le)
    rw [hcast, signum, one_mul] at h
    rw [compare_gt_iff_gt.2 hpos]
    exact h

/-! ## The operations -/

/-- What is canonical already is rounded to itself. -/
theorem rounds_self {u : UnpackedFloat} (h : Rounded u) (hu : u.isNaN = false) :
    Rounds u (numeral u) :=
  ⟨h, hu, (roundUnbounded_numeral h).symm⟩

/-- A zero is what zero is rounded to. -/
theorem rounds_zero (s : Sign) : Rounds (.zero s) 0 := rounds_self trivial rfl

/-- The opposite sign is the opposite factor. -/
theorem signum_neg (s : Sign) : signum (-s) = -signum s := by
  cases s with
  | negative => exact (neg_neg (1 : ℚ)).symm
  | positive => rfl

/-- The product of two signs is the product of the factors. -/
theorem signum_mul (s t : Sign) : signum (s * t) = signum s * signum t := by
  cases s <;> cases t <;> norm_num [signum]

/-- A signed mantissa at a common exponent is the number it was before. -/
theorem apply_decreaseExponent (s : Sign) (m : ℕ) {e t : ℤ} (h : t ≤ e) :
    ((s.apply (decreaseExponent m e t).1 : ℤ) : ℚ) * 2 ^ t = signum s * (m * 2 ^ e) := by
  have hexp : (decreaseExponent m e t).2 = t := by
    simp only [decreaseExponent]
    omega
  have hval := decreaseExponent_value m e t
  rw [hexp] at hval
  rw [cast_apply, mul_assoc, hval]

/-- The sum of unpacked doubles is the rounded sum of their numbers. -/
theorem rounds_add {u v : UnpackedFloat} (hu : Rounded u) (hv : Rounded v)
    (fu : u.isFinite = true) (fv : v.isFinite = true) :
    Rounds (add Format.binary64 u v) (numeral u + numeral v) := by
  cases u with
  | notANumber | infinity => cases fu
  | zero s =>
    rw [numeral_zero, zero_add]
    cases v with
    | notANumber | infinity => cases fv
    | zero t => cases s <;> cases t <;> exact rounds_zero _
    | finite t n f hn => exact rounds_self hv rfl
  | finite s m e hm =>
    cases v with
    | notANumber | infinity => cases fv
    | zero t =>
      rw [numeral_zero, add_zero]
      exact rounds_self hu rfl
    | finite t n f hn =>
      have hx := apply_decreaseExponent s m (min_le_left e f)
      have hy := apply_decreaseExponent t n (min_le_right e f)
      rw [numeral_finite, numeral_finite, ← hx, ← hy, ← add_mul, ← Int.cast_add]
      exact rounds_normalize _ _ _

/-- The difference of unpacked doubles is the rounded difference of their numbers. -/
theorem rounds_sub {u v : UnpackedFloat} (hu : Rounded u) (hv : Rounded v)
    (fu : u.isFinite = true) (fv : v.isFinite = true) :
    Rounds (sub Format.binary64 u v) (numeral u - numeral v) := by
  cases u with
  | notANumber | infinity => cases fu
  | zero s =>
    rw [numeral_zero, zero_sub]
    cases v with
    | notANumber | infinity => cases fv
    | zero t =>
      rw [numeral_zero, neg_zero]
      cases s <;> cases t <;> exact rounds_zero _
    | finite t n f hn =>
      have hneg : -numeral (.finite t n f hn) = numeral (.finite (-t) n f hn) := by
        rw [numeral_finite, numeral_finite, signum_neg, neg_mul]
      rw [hneg]
      exact rounds_self (u := .finite (-t) n f hn) hv rfl
  | finite s m e hm =>
    cases v with
    | notANumber | infinity => cases fv
    | zero t =>
      rw [numeral_zero, sub_zero]
      exact rounds_self hu rfl
    | finite t n f hn =>
      have hx := apply_decreaseExponent s m (min_le_left e f)
      have hy := apply_decreaseExponent t n (min_le_right e f)
      rw [numeral_finite, numeral_finite, ← hx, ← hy, ← sub_mul, ← Int.cast_sub]
      exact rounds_normalize _ _ _

/-- The product of two canonical mantissas has every bit that its unit asks for. -/
theorem Canonical.add_exponent_le {m n : ℕ} {e f : ℤ} (h : Canonical m e) (h' : Canonical n f)
    (hm : 0 < m) (hn : 0 < n) : e + f ≤ ulpExponent ((m * n : ℕ) * 2 ^ (e + f)) := by
  have hlog : 2 ^ 52 ≤ m * n → 52 ≤ (m * n).log2 := (Nat.le_log2 (Nat.mul_pos hm hn).ne').2
  rw [ulpExponent_dyadic (Nat.mul_pos hm hn)]
  rcases h.full with hfull | hleast
  · have := hlog (hfull.trans (Nat.le_mul_of_pos_right m hn))
    omega
  · rcases h'.full with hfull | hleast'
    · have := hlog (hfull.trans (Nat.le_mul_of_pos_left n hm))
      omega
    · unfold leastExponent at hleast hleast' ⊢
      omega

/-- The product of unpacked doubles is the rounded product of their numbers. -/
theorem rounds_mul {u v : UnpackedFloat} (hu : Rounded u) (hv : Rounded v)
    (fu : u.isFinite = true) (fv : v.isFinite = true) :
    Rounds (mul Format.binary64 u v) (numeral u * numeral v) := by
  cases u with
  | notANumber | infinity => cases fu
  | zero s =>
    rw [numeral_zero, zero_mul]
    cases v with
    | notANumber | infinity => cases fv
    | zero t | finite t n f hn => exact rounds_zero _
  | finite s m e hm =>
    cases v with
    | notANumber | infinity => cases fv
    | zero t =>
      rw [numeral_zero, mul_zero]
      exact rounds_zero _
    | finite t n f hn =>
      have h := rounds_exact (s * t) (Nat.mul_pos hm hn)
        (Canonical.add_exponent_le hu hv hm hn)
      have hval : numeral (.finite s m e hm) * numeral (.finite t n f hn) =
          signum (s * t) * ((m * n : ℕ) * 2 ^ (e + f)) := by
        rw [numeral_finite, numeral_finite, signum_mul, zpow_add₀ two_ne_zero, Nat.cast_mul]
        ring
      rw [hval]
      exact h

/-- The quotient of two signs is the quotient of the factors. -/
theorem signum_div (s t : Sign) : signum (s / t) = signum s / signum t := by
  have hdiv : s / t = s * t := rfl
  rw [hdiv, signum_mul]
  cases t with
  | negative =>
    show signum s * -1 = signum s / -1
    rw [mul_neg_one, div_neg, div_one]
  | positive => exact (mul_one _).trans (div_one _).symm

/-- A mantissa is lengthened before it is divided, so that the whole part of the quotient has every
bit that its unit asks for. -/
theorem rounds_divCore (s : Sign) {m n : ℕ} (hm : 0 < m) (hn : 0 < n) (e f : ℤ) :
    Rounds (roundWithAccuracy Format.binary64 s (divCore Format.binary64 m e n f).1
        (divCore Format.binary64 m e n f).2.1 (divCore Format.binary64 m e n f).2.2)
      (signum s * (m * 2 ^ e / (n * 2 ^ f))) := by
  simp only [divCore, Nat.shiftLeft_eq]
  generalize ht : min (e - f) (Format.binary64.targetExponent
    (totalExponent m e - totalExponent n f)) = t
  have hle : t ≤ e - f := ht ▸ min_le_left _ _
  obtain ⟨k, hk⟩ := Int.le.dest hle
  have hshift : (e - f - t).toNat = k := by omega
  have hvalue : ((m * 2 ^ k : ℕ) : ℚ) / n * 2 ^ t = m / n * 2 ^ (e - f) := by
    rw [← hk, zpow_add₀ two_ne_zero, zpow_natCast, Nat.cast_mul, Nat.cast_pow, Nat.cast_ofNat]
    ring
  have hquotient : (m * 2 ^ e / (n * 2 ^ f) : ℚ) = m / n * 2 ^ (e - f) := by
    rw [zpow_sub₀ two_ne_zero, mul_div_mul_comm]
  have hunit : t ≤ ulpExponent (m / n * 2 ^ (e - f)) := by
    have hlog := log2_sub_log2_le hm hn
    have hbits : (Format.binary64.mantissaBits : ℤ) = 53 := rfl
    have hleast : Format.binary64.minExponent = leastExponent := rfl
    rw [ulpExponent, log_mul_zpow (by positivity), ← ht, Format.targetExponent, totalExponent,
      totalExponent, hbits, hleast]
    omega
  rw [hshift, hquotient, ← hvalue]
  exact rounds_roundWithAccuracy s (Nat.mul_pos hm (Nat.two_pow_pos k)) hn
    (hunit.trans_eq (by rw [hvalue]))

/-- The quotient of unpacked doubles is the rounded quotient of their numbers, unless the divisor is
zero. -/
theorem rounds_div {u v : UnpackedFloat} (fu : u.isFinite = true) (fv : v.isFinite = true)
    (hne : numeral v ≠ 0) : Rounds (div Format.binary64 u v) (numeral u / numeral v) := by
  cases v with
  | notANumber | infinity => cases fv
  | zero t => exact absurd numeral_zero hne
  | finite t n f hn =>
    cases u with
    | notANumber | infinity => cases fu
    | zero s =>
      rw [numeral_zero, zero_div]
      exact rounds_zero _
    | finite s m e hm =>
      rw [numeral_finite, numeral_finite, mul_div_mul_comm, ← signum_div]
      exact rounds_divCore (s / t) hm hn e f

/-- A double that a number is rounded to has the value nearest to that number. -/
theorem Rounds.ofUnpacked {u : UnpackedFloat} {q : ℚ} (h : Rounds u q) :
    (ofUnpacked u).isNaN = false ∧ value (ofUnpacked u) = nearest q := by
  refine ⟨(isNaN_ofUnpacked h.rounded).trans h.isNumber, ?_⟩
  rw [value_ofUnpacked h.rounded, h.numeral_eq, nearest]

section

variable {x y : Float} (hx : x.isFinite = true) (hy : y.isFinite = true)

include hx hy

/-- The sum of finite doubles is the double nearest to the sum of their values. -/
theorem value_add : (x + y).isNaN = false ∧ value (x + y) = nearest (value x + value y) :=
  (rounds_add (rounded_toModel x).1 (rounded_toModel y).1 hx hy).ofUnpacked

/-- The difference of finite doubles is the double nearest to the difference of their values. -/
theorem value_sub : (x - y).isNaN = false ∧ value (x - y) = nearest (value x - value y) :=
  (rounds_sub (rounded_toModel x).1 (rounded_toModel y).1 hx hy).ofUnpacked

/-- A difference of finite doubles that is not zero is not rounded to zero. -/
theorem value_sub_pos (h : value y < value x) : 0 < value (x - y) := by
  rw [(value_sub hx hy).2]
  exact nearest_pos (least_le_value_sub hy hx h)

/-- The product of finite doubles is the double nearest to the product of their values. -/
theorem value_mul : (x * y).isNaN = false ∧ value (x * y) = nearest (value x * value y) :=
  (rounds_mul (rounded_toModel x).1 (rounded_toModel y).1 hx hy).ofUnpacked

/-- The quotient of finite doubles is the double nearest to the quotient of their values, unless the
divisor is zero. -/
theorem value_div (hne : value y ≠ 0) :
    (x / y).isNaN = false ∧ value (x / y) = nearest (value x / value y) :=
  (rounds_div hx hy hne).ofUnpacked

end

end GrowthGrammar.Double
