-- SUMMARY: Multiplication of numbers: double-precision rounding, to the nearest and ties to even.
import Jiffy.Lib.JavaScript
import Mathlib.Algebra.Order.Field.Power
import Mathlib.Algebra.Order.Field.Rat
import Mathlib.Data.Int.Log
import Mathlib.Data.Rat.Floor
import Mathlib.Tactic.NormNum

/-!
# Double precision

The product of two numbers is the exact product, rounded to a double. Integers
of at most 53 bits come out exactly.
-/

namespace Js

/-- The nearest integer, and of two the even one. -/
def roundHalfEven (q : ℚ) : ℤ :=
  let rest := q - ⌊q⌋
  if rest < 1 / 2 then ⌊q⌋
  else if 1 / 2 < rest then ⌊q⌋ + 1
  else if ⌊q⌋ % 2 = 0 then ⌊q⌋ else ⌊q⌋ + 1

/-- What the last of the 53 bits of a double near `q` stands for; subnormals
have a fixed one. -/
def lastPlace (q : ℚ) : ℚ := 2 ^ max (Int.log 2 |q| - 52) (-1074)

/-- The double nearest to `q`. -/
def toDouble (q : ℚ) : Number :=
  let rounded := roundHalfEven (q / lastPlace q) * lastPlace q
  if |rounded| < 2 ^ 1024 then .finite rounded else .infinity (decide (q < 0))

/-- `a * b`. -/
def Number.mul : Number → Number → Number
  | .nan, _ | _, .nan => .nan
  | .infinity m, .infinity n => .infinity (m != n)
  | .infinity m, .finite q | .finite q, .infinity m =>
    if q = 0 then .nan else .infinity (m != decide (q < 0))
  | .finite p, .finite q => toDouble (p * q)

theorem roundHalfEven_int (n : ℤ) : roundHalfEven n = n := by
  unfold roundHalfEven
  simp only [Int.floor_intCast, sub_self, one_div, inv_pos, Nat.ofNat_pos, if_true]

/-- Every integer of at most 53 bits is a multiple of its last place. -/
theorem div_lastPlace {n : ℤ} (h : |n| ≤ 2 ^ 53) : ∃ k : ℤ, (n : ℚ) / lastPlace n = k := by
  have hlog : Int.log 2 |(n : ℚ)| ≤ 53 := by
    have hcast : |(n : ℚ)| = (n.natAbs : ℚ) := by
      rw [← Int.cast_abs, Nat.cast_natAbs]
    rw [hcast, Int.log_natCast]
    have hnat : n.natAbs ≤ 2 ^ 53 := by
      rw [Int.abs_eq_natAbs] at h
      exact_mod_cast h
    exact_mod_cast (Nat.log_mono_right hnat).trans (Nat.log_pow (by decide) 53).le
  unfold lastPlace
  rcases le_or_gt (Int.log 2 |(n : ℚ)|) 52 with hsmall | hlarge
  · -- the last place is a power of two that is at most 1
    obtain ⟨k, hk⟩ := Int.eq_ofNat_of_zero_le
      (show 0 ≤ -max (Int.log 2 |(n : ℚ)| - 52) (-1074) by omega)
    refine ⟨n * 2 ^ k, ?_⟩
    rw [div_eq_mul_inv, ← zpow_neg, hk, zpow_natCast]
    push_cast
    rfl
  · -- only `2 ^ 53` itself needs 54 bits
    have hexact : Int.log 2 |(n : ℚ)| = 53 := le_antisymm hlog hlarge
    have hpos : 0 < |(n : ℚ)| := by
      rcases (abs_nonneg (n : ℚ)).lt_or_eq with hpos | hzero
      · exact hpos
      · rw [← hzero, Int.log_zero_right] at hexact
        cases hexact
    have hge := (Int.zpow_le_iff_le_log (by decide) hpos).mpr hexact.ge
    have habs : |n| = 2 ^ 53 := by
      refine le_antisymm h ?_
      rw [← Int.cast_abs] at hge
      exact_mod_cast hge
    rw [hexact]
    rcases abs_choice n with hn | hn
    · refine ⟨2 ^ 52, ?_⟩
      rw [show n = 2 ^ 53 by omega]
      norm_num
    · refine ⟨-2 ^ 52, ?_⟩
      rw [show n = -2 ^ 53 by omega]
      norm_num

theorem lastPlace_pos (q : ℚ) : 0 < lastPlace q := zpow_pos (by decide) _

theorem toDouble_int {n : ℤ} (h : |n| ≤ 2 ^ 53) : toDouble n = .finite n := by
  obtain ⟨k, hk⟩ := div_lastPlace h
  have hround : (roundHalfEven (n / lastPlace n) : ℚ) * lastPlace n = n := by
    rw [hk, roundHalfEven_int, ← hk, div_mul_cancel₀ _ (lastPlace_pos n).ne']
  have hfinite : |(n : ℚ)| < 2 ^ 1024 := by
    rw [← Int.cast_abs]
    have hle : ((|n| : ℤ) : ℚ) ≤ 2 ^ 53 := by exact_mod_cast h
    exact hle.trans_lt (pow_lt_pow_right₀ (by norm_num) (by norm_num))
  unfold toDouble
  simp only [hround, if_pos hfinite]

/-- Products of integers are exact as long as they have at most 53 bits. -/
theorem mul_int {m n : ℤ} (h : |m * n| ≤ 2 ^ 53) :
    (Number.finite m).mul (.finite n) = .finite (m * n : ℤ) := by
  refine Eq.trans ?_ (toDouble_int h)
  rw [Int.cast_mul]
  rfl

end Js
