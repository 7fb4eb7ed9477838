import GrowthGrammar.Decimal.Rounding
import Mathlib.Algebra.Order.Field.Power
import Mathlib.Algebra.Order.Floor.Semifield
import Mathlib.Algebra.Order.Ring.Rat
import Mathlib.Data.Int.Log
import Mathlib.Data.Rat.Floor
import Mathlib.Tactic.Linarith
import Mathlib.Tactic.NormNum
import Mathlib.Tactic.Positivity
import Mathlib.Tactic.Ring

/-!
# Rounding to the nearest double

`nearest q` is the value of the double nearest to the rational number `q`, a tie going to the even
neighbour, and `2 ^ 1024`, the first number out of range, stands for an infinity. All that order
asks of it is `nearest_mono`: rounding never turns two numbers around. `nearest_dyadic` says that a
number with a mantissa that fits is not rounded. The mantissa is rounded by `roundDiv`, whose own
order law is `roundDiv_mono`.
-/

namespace GrowthGrammar

/-! ## Rounding a quotient to an integer -/

/-- A rounded quotient is at least the quotient rounded down. -/
theorem div_le_roundDiv (num den : ℕ) : num / den ≤ roundDiv num den := by
  unfold roundDiv
  dsimp only
  split_ifs <;> omega

/-- A rounded quotient is at most one more than the quotient rounded down. -/
theorem roundDiv_le_div_succ (num den : ℕ) : roundDiv num den ≤ num / den + 1 := by
  unfold roundDiv
  dsimp only
  split_ifs <;> omega

/-- The greater quotient is rounded to the greater integer, or to the same. -/
theorem roundDiv_mono {a b c d : ℕ} (hb : 0 < b) (hd : 0 < d) (h : a * d ≤ c * b) :
    roundDiv a b ≤ roundDiv c d := by
  have hq : a / b ≤ c / d := by
    rw [Nat.le_div_iff_mul_le hd]
    refine Nat.le_of_mul_le_mul_right ?_ hb
    calc a / b * d * b = a / b * b * d := by ring
      _ ≤ a * d := Nat.mul_le_mul_right d (Nat.div_mul_le_self a b)
      _ ≤ c * b := h
  rcases Nat.lt_or_eq_of_le hq with hlt | heq
  · have h₁ := roundDiv_le_div_succ a b
    have h₂ := div_le_roundDiv c d
    omega
  · -- the whole parts agree, so the order is that of the remainders
    have hr : a % b * d ≤ c % d * b := by
      have ha := Nat.div_add_mod a b
      have hc := Nat.div_add_mod c d
      have h' : (b * (a / b) + a % b) * d ≤ (d * (c / d) + c % d) * b := by rwa [ha, hc]
      rw [heq] at h'
      nlinarith
    have hlt : 2 * (c % d) < d → 2 * (a % b) < b := by
      intro hcd
      refine Nat.lt_of_mul_lt_mul_right (a := d) ?_
      calc 2 * (a % b) * d ≤ 2 * (c % d) * b := by nlinarith
        _ < d * b := Nat.mul_lt_mul_of_pos_right hcd hb
        _ = b * d := Nat.mul_comm d b
    have hgt : b < 2 * (a % b) → d < 2 * (c % d) := by
      intro hab
      refine Nat.lt_of_mul_lt_mul_right (a := b) ?_
      calc d * b = b * d := Nat.mul_comm d b
        _ < 2 * (a % b) * d := Nat.mul_lt_mul_of_pos_right hab hd
        _ ≤ 2 * (c % d) * b := by nlinarith
    unfold roundDiv
    dsimp only
    rw [heq]
    split_ifs <;> omega

/-- A whole number is not rounded. -/
theorem roundDiv_mul_self (n : ℕ) {d : ℕ} (hd : 0 < d) : roundDiv (n * d) d = n := by
  simp [roundDiv, Nat.mul_div_cancel n hd, hd]

namespace Double

/-- A rational number that is not negative, rounded to the nearest integer. -/
def roundRat (q : ℚ) : ℕ := roundDiv q.num.toNat q.den

/-- The greater number is rounded to the greater integer, or to the same. -/
theorem roundRat_mono {x y : ℚ} (hx : 0 ≤ x) (h : x ≤ y) : roundRat x ≤ roundRat y := by
  refine roundDiv_mono x.den_pos y.den_pos ?_
  have hle := (Rat.le_iff x y).1 h
  have hxn : 0 ≤ x.num := Rat.num_nonneg.2 hx
  have hyn : 0 ≤ y.num := Rat.num_nonneg.2 (hx.trans h)
  zify
  rwa [Int.toNat_of_nonneg hxn, Int.toNat_of_nonneg hyn]

/-- The rounded quotient of two natural numbers is the rounded rational number. -/
theorem roundRat_div (n : ℕ) {d : ℕ} (hd : 0 < d) : roundRat ((n : ℚ) / d) = roundDiv n d := by
  have hq : ((n : ℚ) / d).num.toNat * d = n * ((n : ℚ) / d).den := by
    have hnonneg : (0 : ℚ) ≤ (n : ℚ) / d := by positivity
    have hnum : ((n : ℚ) / d).num * d = n * ((n : ℚ) / d).den := by
      have hd' : (d : ℚ) ≠ 0 := by positivity
      have hden : (((n : ℚ) / d).den : ℚ) ≠ 0 := by exact_mod_cast ((n : ℚ) / d).den_nz
      have h := Rat.num_div_den ((n : ℚ) / d)
      rw [div_eq_div_iff hden hd'] at h
      exact_mod_cast h
    zify
    rwa [Int.toNat_of_nonneg (Rat.num_nonneg.2 hnonneg)]
  exact Nat.le_antisymm (roundDiv_mono (Rat.den_pos _) hd hq.le)
    (roundDiv_mono hd (Rat.den_pos _) hq.ge)

/-- A whole number is not rounded. -/
theorem roundRat_natCast (n : ℕ) : roundRat n = n := by
  have h := roundRat_div n Nat.one_pos
  rw [Nat.cast_one, div_one] at h
  rw [h]
  simpa using roundDiv_mul_self n Nat.one_pos

/-! ## The unit in the last place -/

/-- The exponent of the unit in the last place of the doubles around a positive number. -/
def ulpExponent (q : ℚ) : ℤ := max (Int.log 2 q - 52) leastExponent

/-- A number has less than `2 ^ 53` units. -/
theorem lt_ulp (q : ℚ) : q < 2 ^ (ulpExponent q + 53) := by
  have h := Int.lt_zpow_succ_log_self (R := ℚ) one_lt_two q
  refine h.trans_le ?_
  have hle : Int.log 2 q + 1 ≤ ulpExponent q + 53 := by
    have := le_max_left (Int.log 2 q - 52) leastExponent
    unfold ulpExponent
    omega
  exact_mod_cast zpow_le_zpow_right₀ (one_le_two (α := ℚ)) hle

/-- A positive number whose unit is not the least one has at least `2 ^ 52` units. -/
theorem ulp_le {q : ℚ} (hq : 0 < q) (h : leastExponent < ulpExponent q) :
    2 ^ (ulpExponent q + 52) ≤ q := by
  have hlog : ulpExponent q + 52 = Int.log 2 q := by
    unfold ulpExponent at h ⊢
    omega
  rw [hlog]
  exact_mod_cast Int.zpow_log_le_self (R := ℚ) one_lt_two hq

/-- Rounded, a number still has at most `2 ^ 53` units. -/
theorem roundRat_ulp_le {q : ℚ} (hq : 0 ≤ q) : roundRat (q / 2 ^ ulpExponent q) ≤ 2 ^ 53 := by
  have hle : q / 2 ^ ulpExponent q ≤ ((2 ^ 53 : ℕ) : ℚ) := by
    rw [div_le_iff₀ (by positivity)]
    refine (lt_ulp q).le.trans_eq ?_
    rw [zpow_add₀ two_ne_zero, mul_comm]
    norm_num
  exact (roundRat_mono (by positivity) hle).trans_eq (roundRat_natCast _)

/-- Rounded, a positive number whose unit is not the least one still has at least `2 ^ 52` units. -/
theorem le_roundRat_ulp {q : ℚ} (hq : 0 < q) (h : leastExponent < ulpExponent q) :
    2 ^ 52 ≤ roundRat (q / 2 ^ ulpExponent q) := by
  have hge : ((2 ^ 52 : ℕ) : ℚ) ≤ q / 2 ^ ulpExponent q := by
    rw [le_div_iff₀ (by positivity)]
    refine Eq.trans_le ?_ (ulp_le hq h)
    rw [zpow_add₀ two_ne_zero, mul_comm]
    norm_num
  exact (roundRat_natCast _).symm.trans_le (roundRat_mono (by positivity) hge)

/-- The unit of the greater number is the greater one, or the same. -/
theorem ulpExponent_mono {x y : ℚ} (hx : 0 < x) (h : x ≤ y) : ulpExponent x ≤ ulpExponent y := by
  have := Int.log_mono_right (b := 2) hx h
  unfold ulpExponent
  omega

/-- A power of two as a factor adds its exponent to the logarithm. -/
theorem log_mul_zpow {q : ℚ} (hq : 0 < q) (e : ℤ) : Int.log 2 (q * 2 ^ e) = Int.log 2 q + e := by
  have htwo : ((2 : ℕ) : ℚ) = 2 := Nat.cast_ofNat
  refine eq_of_forall_le_iff fun x => ?_
  rw [← Int.zpow_le_iff_le_log one_lt_two (by positivity), ← sub_le_iff_le_add,
    ← Int.zpow_le_iff_le_log one_lt_two hq, htwo, zpow_sub₀ two_ne_zero,
    div_le_iff₀ (by positivity)]

/-- A quotient is at most one bit shorter than the difference of the lengths. -/
theorem log2_sub_log2_le {m n : ℕ} (hm : 0 < m) (hn : 0 < n) :
    (m.log2 : ℤ) - n.log2 - 1 ≤ Int.log 2 ((m : ℚ) / n) := by
  have hlo : (2 : ℚ) ^ (m.log2 : ℤ) ≤ m := by
    exact_mod_cast (Nat.le_log2 hm.ne').1 le_rfl
  have hhi : (n : ℚ) ≤ 2 ^ ((n.log2 : ℤ) + 1) := by
    exact_mod_cast ((Nat.log2_lt hn.ne').1 n.log2.lt_succ_self).le
  rw [← Int.zpow_le_iff_le_log one_lt_two (by positivity), Nat.cast_ofNat, sub_sub,
    zpow_sub₀ two_ne_zero]
  exact div_le_div₀ m.cast_nonneg hlo (by exact_mod_cast hn) hhi

/-- The unit of a positive dyadic number, from the length of its mantissa. -/
theorem ulpExponent_dyadic {m : ℕ} (hm : 0 < m) (e : ℤ) :
    ulpExponent (m * 2 ^ e) = max (m.log2 + e - 52) leastExponent := by
  rw [ulpExponent, log_mul_zpow (by exact_mod_cast hm), Int.log_natCast, Nat.log2_eq_log_two]

/-- The unit of a fraction is that of its whole part, if there is one. -/
theorem ulpExponent_fraction {num den : ℕ} (hden : 0 < den) (hle : den ≤ num) (e : ℤ) :
    ulpExponent ((num : ℚ) / den * 2 ^ e) = ulpExponent ((num / den : ℕ) * 2 ^ e) := by
  have hone : (1 : ℚ) ≤ num / den :=
    (one_le_div (by exact_mod_cast hden)).2 (by exact_mod_cast hle)
  have hwhole : 0 < num / den := Nat.div_pos hle hden
  rw [ulpExponent, ulpExponent, log_mul_zpow (zero_lt_one.trans_le hone),
    log_mul_zpow (by exact_mod_cast hwhole), Int.log_of_one_le_right 2 hone,
    Nat.floor_div_eq_div, Int.log_natCast]

/-! ## Magnitudes -/

/-- The magnitude nearest to a number that is not negative, with no bound on the exponent. -/
def roundMagnitude (q : ℚ) : ℚ := roundRat (q / 2 ^ ulpExponent q) * 2 ^ ulpExponent q

@[simp] theorem roundMagnitude_zero : roundMagnitude 0 = 0 := by
  have h : roundRat 0 = 0 := by simpa using roundRat_natCast 0
  simp [roundMagnitude, h]

theorem roundMagnitude_nonneg (q : ℚ) : 0 ≤ roundMagnitude q := by
  unfold roundMagnitude
  positivity

/-- The greater magnitude is rounded to the greater one, or to the same. Where the units differ, a
power of two lies between the two numbers, and it is not rounded. -/
theorem roundMagnitude_mono {x y : ℚ} (hx : 0 ≤ x) (h : x ≤ y) :
    roundMagnitude x ≤ roundMagnitude y := by
  rcases hx.eq_or_lt with rfl | hx
  · rw [roundMagnitude_zero]
    exact roundMagnitude_nonneg y
  have hy : 0 < y := hx.trans_le h
  rcases (ulpExponent_mono hx h).eq_or_lt with heq | hlt
  · unfold roundMagnitude
    rw [heq]
    have hround : roundRat (x / 2 ^ ulpExponent y) ≤ roundRat (y / 2 ^ ulpExponent y) :=
      roundRat_mono (by positivity) (div_le_div_of_nonneg_right h (by positivity))
    exact mul_le_mul_of_nonneg_right (by exact_mod_cast hround) (by positivity)
  · have hxr := roundRat_ulp_le hx.le
    have hyr := le_roundRat_ulp hy ((le_max_right _ _).trans_lt hlt)
    unfold roundMagnitude
    calc (roundRat (x / 2 ^ ulpExponent x) : ℚ) * 2 ^ ulpExponent x
        ≤ 2 ^ 53 * 2 ^ ulpExponent x := by
          exact mul_le_mul_of_nonneg_right (by exact_mod_cast hxr) (by positivity)
      _ = 2 ^ 52 * 2 ^ (ulpExponent x + 1) := by
          rw [zpow_add₀ two_ne_zero]
          ring
      _ ≤ 2 ^ 52 * 2 ^ ulpExponent y :=
          mul_le_mul_of_nonneg_left (zpow_le_zpow_right₀ one_le_two hlt) (by positivity)
      _ ≤ roundRat (y / 2 ^ ulpExponent y) * 2 ^ ulpExponent y :=
          mul_le_mul_of_nonneg_right (by exact_mod_cast hyr) (by positivity)

/-- A mantissa that fits is not rounded. -/
theorem roundMagnitude_dyadic {m : ℕ} {e : ℤ} (hm : m < 2 ^ 53) (he : leastExponent ≤ e) :
    roundMagnitude (m * 2 ^ e) = m * 2 ^ e := by
  rcases m.eq_zero_or_pos with rfl | hpos
  · simp
  have hlog : m.log2 < 53 := (Nat.log2_lt hpos.ne').2 hm
  have hulp : ulpExponent (m * 2 ^ e) ≤ e := by
    rw [ulpExponent_dyadic hpos]
    omega
  obtain ⟨k, hk⟩ := Int.le.dest hulp
  -- the number is a whole number of units
  have hwhole : (m * 2 ^ e / 2 ^ ulpExponent (m * 2 ^ e) : ℚ) = ((m * 2 ^ k : ℕ) : ℚ) := by
    rw [div_eq_iff (by positivity), Nat.cast_mul, Nat.cast_pow, Nat.cast_ofNat, mul_assoc,
      ← zpow_natCast (2 : ℚ) k, ← zpow_add₀ two_ne_zero, add_comm, hk]
  rw [roundMagnitude, hwhole, roundRat_natCast, ← hwhole, div_mul_cancel₀ _ (by positivity)]

/-- A mantissa and an exponent in the form in which doubles have them: the mantissa fills its 53
bits unless the exponent is the least one. The exponent has no upper bound here. -/
structure Canonical (m : ℕ) (e : ℤ) : Prop where
  lt : m < 2 ^ 53
  least : leastExponent ≤ e
  full : 2 ^ 52 ≤ m ∨ e = leastExponent

/-- The unit of a magnitude in canonical form is that of its exponent. -/
theorem Canonical.ulpExponent_eq {m : ℕ} {e : ℤ} (h : Canonical m e) (hm : 0 < m) :
    ulpExponent (m * 2 ^ e) = e := by
  have hlt : m.log2 < 53 := (Nat.log2_lt hm.ne').2 h.lt
  rw [ulpExponent_dyadic hm]
  rcases h.full with hf | rfl
  · have hge : 52 ≤ m.log2 := (Nat.le_log2 hm.ne').2 hf
    have := h.least
    omega
  · omega

/-! ## Signs and the range -/

/-- The first power of two that is out of the range of the doubles. -/
def outOfRange : ℚ := 2 ^ 1024

theorem outOfRange_pos : 0 < outOfRange := by unfold outOfRange; positivity

/-- The number nearest to `q` that has a mantissa of 53 bits, with no bound on the exponent. -/
def roundUnbounded (q : ℚ) : ℚ := if q < 0 then -roundMagnitude (-q) else roundMagnitude q

/-- Rounding keeps the order. -/
theorem roundUnbounded_mono {x y : ℚ} (h : x ≤ y) : roundUnbounded x ≤ roundUnbounded y := by
  unfold roundUnbounded
  split_ifs with hx hy hy
  · exact neg_le_neg (roundMagnitude_mono (by linarith) (by linarith))
  · have := roundMagnitude_nonneg (-x)
    have := roundMagnitude_nonneg y
    linarith
  · linarith
  · exact roundMagnitude_mono (by linarith) h

/-- Zero is not rounded. -/
theorem roundUnbounded_zero : roundUnbounded 0 = 0 := by
  rw [roundUnbounded, if_neg (lt_irrefl _), roundMagnitude_zero]

/-- Rounding commutes with a change of the sign. -/
theorem roundUnbounded_neg (q : ℚ) : roundUnbounded (-q) = -roundUnbounded q := by
  unfold roundUnbounded
  rcases lt_trichotomy q 0 with hq | rfl | hq
  · rw [if_neg (by linarith), if_pos hq, neg_neg]
  · simp
  · rw [if_pos (by linarith), if_neg (by linarith), neg_neg]

/-- Numbers out of range become the first number out of range. -/
def clamp (q : ℚ) : ℚ := max (-outOfRange) (min outOfRange q)

theorem clamp_mono {x y : ℚ} (h : x ≤ y) : clamp x ≤ clamp y :=
  max_le_max le_rfl (min_le_min le_rfl h)

/-- A number in range is kept. -/
theorem clamp_of_abs_le {q : ℚ} (h : |q| ≤ outOfRange) : clamp q = q := by
  rw [clamp, min_eq_right (abs_le.1 h).2, max_eq_right (abs_le.1 h).1]

/-- The value of the double nearest to a rational number. An infinity has the value `outOfRange`. -/
def nearest (q : ℚ) : ℚ := clamp (roundUnbounded q)

/-- The greater number has the greater nearest double, or the same. -/
theorem nearest_mono {x y : ℚ} (h : x ≤ y) : nearest x ≤ nearest y :=
  clamp_mono (roundUnbounded_mono h)

@[simp] theorem nearest_zero : nearest 0 = 0 := by
  have := outOfRange_pos
  rw [nearest, roundUnbounded_zero, clamp_of_abs_le]
  simpa using this.le

theorem nearest_nonneg {q : ℚ} (h : 0 ≤ q) : 0 ≤ nearest q := by
  simpa using nearest_mono h

/-- A number in range with a mantissa that fits is the value of a double. -/
theorem nearest_dyadic {m : ℕ} {e : ℤ} (hm : m < 2 ^ 53) (he : leastExponent ≤ e)
    (hrange : (m * 2 ^ e : ℚ) ≤ outOfRange) : nearest (m * 2 ^ e) = m * 2 ^ e := by
  have hnonneg : (0 : ℚ) ≤ m * 2 ^ e := mul_nonneg m.cast_nonneg (zpow_nonneg zero_le_two e)
  rw [nearest, roundUnbounded, if_neg hnonneg.not_gt, roundMagnitude_dyadic hm he,
    clamp_of_abs_le]
  rw [abs_of_nonneg hnonneg]
  exact hrange

/-- A number that is at least the least positive double is not rounded to zero. -/
theorem nearest_pos {q : ℚ} (h : 2 ^ leastExponent ≤ q) : 0 < nearest q := by
  have hleast : nearest (2 ^ leastExponent) = 2 ^ leastExponent := by
    have hrange : ((1 : ℕ) * 2 ^ leastExponent : ℚ) ≤ outOfRange := by
      rw [Nat.cast_one, one_mul]
      exact (zpow_le_one_of_nonpos₀ one_le_two (by decide)).trans (one_le_pow₀ one_le_two)
    simpa using nearest_dyadic (by decide) le_rfl hrange
  exact (hleast.symm ▸ zpow_pos two_pos _ : 0 < nearest (2 ^ leastExponent)).trans_le
    (nearest_mono h)

end Double

end GrowthGrammar
