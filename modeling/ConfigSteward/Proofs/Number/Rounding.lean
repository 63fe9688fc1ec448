import ConfigSteward.Number.Binary64
import Mathlib.Algebra.Order.Ring.Nat
import Mathlib.Tactic.Linarith
import Mathlib.Tactic.Positivity
import Mathlib.Tactic.Ring

/-!
# Bounds that rounding keeps

A ratio below `2 ^ 38` is rounded in steps of at most `2 ^ (-15)`. What it is rounded to is within a
bound that is a multiple of the step, and the same goes for rounding a multiple of that to an
integer.
-/
namespace ConfigSteward.Binary64

variable {num den k bound scale : Nat} {negative : Bool}

private theorem roundDiv_le (h : 2 * num < (2 * k + 1) * den) : roundDiv num den ≤ k := by
  have hdiv := Nat.div_add_mod num den
  rw [roundDiv]
  generalize num / den = q at *
  generalize num % den = r at *
  have hq : q ≤ k := by
    by_contra hlt
    have hle : den * (k + 1) ≤ den * q := Nat.mul_le_mul_left den (Nat.not_le.mp hlt)
    linarith [Nat.zero_le r, Nat.zero_le den]
  rcases Nat.lt_or_eq_of_le hq with hlt | rfl
  · split <;> [skip; split <;> [skip; split]] <;> omega
  · rw [if_pos (by linarith)]

private theorem roundDiv_two_mul (num den : Nat) : roundDiv (2 * num) (2 * den) = roundDiv num den := by
  rw [roundDiv, roundDiv, Nat.mul_div_mul_left num den (by decide), Nat.mul_mod_mul_left]
  simp only [gt_iff_lt, Nat.mul_lt_mul_left (show 0 < 2 by decide)]

theorem roundScaled_zero (negative : Bool) (den scale : Nat) :
    (ofRatio negative 0 den).roundScaled scale = 0 := by
  have hratio : (ratio 0 leastExponent).1 = 0 := by
    rw [ratio]
    split <;> simp
  have hzero (den : Nat) : roundDiv 0 den = 0 := by simp [roundDiv]
  simp only [ofRatio_zero, roundScaled, hratio, Nat.zero_mul, hzero, Int.natCast_zero, Int.neg_zero,
    ite_self]

/-- The exponent that is chosen for a ratio: steps of `2 ^ (-15)` or less, and a mantissa of no more
than 53 places. -/
theorem exists_step (hnum : 0 < num) (hden : 0 < den) (hsmall : num < den * 2 ^ 38)
    (hlow : den < 2 ^ 64) :
    ∃ k : Nat, 15 ≤ k ∧ num * 2 ^ k < den * 2 ^ 53 ∧
      max leastExponent
        (if fits num den ((Nat.log2 num : Int) - Nat.log2 den - 53)
          then (Nat.log2 num : Int) - Nat.log2 den - 53
          else (Nat.log2 num : Int) - Nat.log2 den - 53 + 1) = -(k : Int) := by
  have hnum' : 2 ^ num.log2 ≤ num ∧ num < 2 ^ (num.log2 + 1) :=
    ⟨Nat.log2_self_le (by omega), Nat.lt_log2_self⟩
  have hden' : 2 ^ den.log2 ≤ den ∧ den < 2 ^ (den.log2 + 1) :=
    ⟨Nat.log2_self_le (by omega), Nat.lt_log2_self⟩
  generalize num.log2 = a at *
  generalize den.log2 = b at *
  have hab : a < b + 39 := by
    refine (Nat.pow_lt_pow_iff_right (a := 2) (by decide)).mp ?_
    calc 2 ^ a ≤ num := hnum'.1
      _ < den * 2 ^ 38 := hsmall
      _ ≤ 2 ^ (b + 1) * 2 ^ 38 := Nat.mul_le_mul_right _ hden'.2.le
      _ = 2 ^ (b + 39) := by rw [← Nat.pow_add]
  have hb : b < 64 := (Nat.pow_lt_pow_iff_right (a := 2) (by decide)).mp (hden'.1.trans_lt hlow)
  have hguess : (a : Int) - b - 53 = -((b + 53 - a : Nat) : Int) := by omega
  have hneg : (-((b + 53 - a : Nat) : Int)) < 0 := by omega
  simp only [hguess, fits, hneg, if_true, Int.neg_neg, Int.toNat_natCast, Nat.pow_eq]
  by_cases hfits : num * 2 ^ (b + 53 - a) < den * 2 ^ 53
  · refine ⟨b + 53 - a, by omega, hfits, ?_⟩
    simp only [hfits, decide_true, if_true, leastExponent]
    omega
  · have hg : 16 ≤ b + 53 - a := by
      by_contra hle
      refine hfits ?_
      calc num * 2 ^ (b + 53 - a) ≤ num * 2 ^ 15 :=
            Nat.mul_le_mul_left num (Nat.pow_le_pow_right (by decide) (by omega))
        _ < den * 2 ^ 38 * 2 ^ 15 := Nat.mul_lt_mul_of_pos_right hsmall (by decide)
        _ = den * 2 ^ 53 := by ring
    refine ⟨b + 52 - a, by omega, ?_, ?_⟩
    · calc num * 2 ^ (b + 52 - a) < 2 ^ (a + 1) * 2 ^ (b + 52 - a) :=
            Nat.mul_lt_mul_of_pos_right hnum'.2 (by positivity)
        _ = 2 ^ b * 2 ^ 53 := by
            rw [← Nat.pow_add, ← Nat.pow_add]
            congr 1
            omega
        _ ≤ den * 2 ^ 53 := Nat.mul_le_mul_right _ hden'.1
    · simp only [hfits, decide_false, Bool.false_eq_true, if_false, leastExponent]
      omega

/-- Rounding a multiple of the number that is nearest to a ratio. -/
theorem roundScaled_ofRatio (hnum : 0 < num) (hden : 0 < den) (hsmall : num < den * 2 ^ 38)
    (hlow : den < 2 ^ 64) (negative : Bool) (scale : Nat) :
    ∃ k : Nat, 15 ≤ k ∧ num * 2 ^ k < den * 2 ^ 53 ∧
      (ofRatio negative num den).roundScaled scale
        = if negative then -((roundDiv (roundDiv (num * 2 ^ k) den * scale) (2 ^ k) : Nat) : Int)
          else ((roundDiv (roundDiv (num * 2 ^ k) den * scale) (2 ^ k) : Nat) : Int) := by
  obtain ⟨k, hk, hfits, he⟩ := exists_step hnum hden hsmall hlow
  refine ⟨k, hk, hfits, ?_⟩
  have hneg : (-(k : Int)) < 0 := by omega
  have hnext : -(k : Int) + 1 = -((k - 1 : Nat) : Int) := by omega
  have hneg' : (-((k - 1 : Nat) : Int)) < 0 := by omega
  rw [ofRatio, if_neg (by omega)]
  simp only [he, hneg, if_true, Int.neg_neg, Int.toNat_natCast, Nat.pow_eq]
  by_cases hcarry : roundDiv (num * 2 ^ k) den = 2 ^ 53
  · have hhalf : 2 ^ 53 * scale = 2 * (2 ^ 52 * scale) := by ring
    have hstep : 2 ^ k = 2 * 2 ^ (k - 1) := by
      rw [← Nat.pow_succ']
      congr 1
      omega
    rw [if_pos hcarry, hcarry, hhalf, hstep, roundDiv_two_mul]
    simp only [hnext]
    rw [if_neg (by simp only [greatestExponent]; omega)]
    simp only [roundScaled, ratio, hneg', if_true, Int.neg_neg, Int.toNat_natCast, Nat.pow_eq]
  · rw [if_neg hcarry]
    simp only
    rw [if_neg (by simp only [greatestExponent]; omega)]
    simp only [roundScaled, ratio, hneg, if_true, Int.neg_neg, Int.toNat_natCast, Nat.pow_eq]

/-- A whole number that bounds a ratio bounds what it is rounded to. -/
theorem roundScaled_bounds (hnum : 0 < num) (hden : 0 < den) (hsmall : num < den * 2 ^ 38)
    (hlow : den < 2 ^ 64) (hle : num ≤ bound * den) (negative : Bool) (scale : Nat) :
    -((bound * scale : Nat) : Int) ≤ (ofRatio negative num den).roundScaled scale ∧
      (ofRatio negative num den).roundScaled scale ≤ (bound * scale : Nat) := by
  obtain ⟨k, -, -, hround⟩ := roundScaled_ofRatio hnum hden hsmall hlow negative scale
  have hmantissa : roundDiv (num * 2 ^ k) den ≤ bound * 2 ^ k := by
    refine roundDiv_le ?_
    calc 2 * (num * 2 ^ k) ≤ 2 * (bound * den * 2 ^ k) := by gcongr
      _ < (2 * (bound * 2 ^ k) + 1) * den := by linarith
  have hresult : roundDiv (roundDiv (num * 2 ^ k) den * scale) (2 ^ k) ≤ bound * scale := by
    refine roundDiv_le ?_
    have hpos : 0 < 2 ^ k := Nat.two_pow_pos k
    calc 2 * (roundDiv (num * 2 ^ k) den * scale) ≤ 2 * (bound * 2 ^ k * scale) := by gcongr
      _ < (2 * (bound * scale) + 1) * 2 ^ k := by linarith
  rw [hround]
  split <;> omega

/-- A ratio that is more than half a step below a large whole number is rounded to a number below
it. The edge is the last step before that number. -/
theorem roundScaled_lt {edge : Nat} (hnum : 0 < num) (hden : 0 < den) (hlow : den < 2 ^ 64)
    (hedge : 2 * (num * 2 ^ 15) < (2 * edge + 1) * den) (hfar : 2 ^ 52 ≤ edge)
    (hnear : edge < 2 ^ 53) (hbound : edge + 1 = bound * 2 ^ 15) (hscale : 2 ^ 14 < scale) :
    (ofRatio false num den).roundScaled scale < (bound * scale : Nat) := by
  have hsmall : num < den * 2 ^ 38 := by
    have hle : (2 * edge + 1) * den ≤ 2 ^ 54 * den := Nat.mul_le_mul_right den (by omega)
    linarith
  obtain ⟨k, hk, hfits, hround⟩ := roundScaled_ofRatio hnum hden hsmall hlow false scale
  have hmantissa : roundDiv (num * 2 ^ k) den ≤ edge * 2 ^ (k - 15) := by
    rcases Nat.lt_or_eq_of_le hk with hlt | rfl
    · have hplaces : roundDiv (num * 2 ^ k) den ≤ 2 ^ 53 := roundDiv_le (by linarith)
      calc roundDiv (num * 2 ^ k) den ≤ 2 ^ 52 * 2 ^ 1 := hplaces
        _ ≤ edge * 2 ^ (k - 15) :=
          Nat.mul_le_mul hfar (Nat.pow_le_pow_right (by decide) (by omega))
    · simpa using roundDiv_le hedge
  have hsplit : 2 ^ k = 2 ^ 15 * 2 ^ (k - 15) := by
    rw [← Nat.pow_add]
    congr 1
    omega
  have hresult : roundDiv (roundDiv (num * 2 ^ k) den * scale) (2 ^ k) ≤ bound * scale - 1 := by
    refine roundDiv_le ?_
    have hstep : 2 * (edge * scale) < (2 * (bound * scale - 1) + 1) * 2 ^ 15 := by
      have htotal : edge * scale + scale = bound * scale * 2 ^ 15 := by
        rw [← Nat.succ_mul, Nat.succ_eq_add_one, hbound]
        ring
      omega
    calc 2 * (roundDiv (num * 2 ^ k) den * scale)
        ≤ 2 * (edge * 2 ^ (k - 15) * scale) := by gcongr
      _ = 2 * (edge * scale) * 2 ^ (k - 15) := by ring
      _ < (2 * (bound * scale - 1) + 1) * 2 ^ 15 * 2 ^ (k - 15) :=
        Nat.mul_lt_mul_of_pos_right hstep (by positivity)
      _ = (2 * (bound * scale - 1) + 1) * 2 ^ k := by rw [hsplit, Nat.mul_assoc]
  have hpos : 0 < bound * scale := by
    have hbound' : 0 < bound := by
      by_contra hzero
      simp only [Nat.not_lt, Nat.le_zero_eq] at hzero
      rw [hzero] at hbound
      omega
    exact Nat.mul_pos hbound' (by omega)
  rw [hround, if_neg (by decide)]
  omega

end ConfigSteward.Binary64
