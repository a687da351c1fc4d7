import Mathlib.Data.Int.Log
import Mathlib.Data.Rat.Floor
import Mathlib.Algebra.Order.Floor.Div
import Mathlib.Algebra.Order.Ring.Abs
import Mathlib.Tactic.Linarith
import Mathlib.Tactic.Positivity
import Mathlib.Tactic.FieldSimp
import Mathlib.Tactic.NormNum

/-!
# Binary floating point: rounding to nearest, ties to even

`fl p x` is the number with a significand of `p` bits that is nearest to the rational `x ≥ 0`, the one
with an even significand if two are; the exponent is not bounded.  Division of two such numbers is
the exact quotient, rounded.

* `fl_natCast`       a natural number below `2 ^ p` is exact;
* `abs_fl_sub_le`    the error is at most `x / 2 ^ p`;
* `ceil_fl_div`      the quotient of two natural numbers, the first below `2 ^ p`, has the ceiling of
                     the exact one although it is rounded.
-/

set_option linter.unusedSectionVars false

namespace CppCores

/-- the integer nearest to `x`, the even one of two -/
def roundEven (x : ℚ) : ℤ :=
  if x - ⌊x⌋ < 1 / 2 then ⌊x⌋
  else if 1 / 2 < x - ⌊x⌋ then ⌊x⌋ + 1
  else if Even ⌊x⌋ then ⌊x⌋ else ⌊x⌋ + 1

/-- the unit in the last place of a significand of `p` bits -/
def ulp (p : ℕ) (x : ℚ) : ℚ := 2 ^ (Int.log 2 x + 1 - p)

def fl (p : ℕ) (x : ℚ) : ℚ := roundEven (x / ulp p x) * ulp p x

theorem roundEven_intCast (n : ℤ) : roundEven n = n := by
  unfold roundEven
  rw [Int.floor_intCast, sub_self, if_pos (by norm_num)]

theorem abs_roundEven_sub_le (x : ℚ) : |(roundEven x : ℚ) - x| ≤ 1 / 2 := by
  have h1 := Int.floor_le x
  have h2 := Int.lt_floor_add_one x
  unfold roundEven
  by_cases hlt : x - ⌊x⌋ < 1 / 2
  · rw [if_pos hlt, abs_le]
    constructor <;> linarith
  · rw [if_neg hlt]
    by_cases hgt : 1 / 2 < x - ⌊x⌋
    · rw [if_pos hgt, abs_le]
      push_cast
      constructor <;> linarith
    · rw [if_neg hgt]
      by_cases he : Even ⌊x⌋
      · rw [if_pos he, abs_le]
        constructor <;> linarith
      · rw [if_neg he, abs_le]
        push_cast
        constructor <;> linarith

theorem ulp_pos (p : ℕ) (x : ℚ) : 0 < ulp p x := by
  unfold ulp
  exact zpow_pos (by norm_num) _

theorem fl_zero (p : ℕ) : fl p 0 = 0 := by
  unfold fl
  rw [zero_div]
  have h := roundEven_intCast 0
  rw [Int.cast_zero] at h
  rw [h, Int.cast_zero, zero_mul]

/-- **Natural numbers of at most `p` bits are exact.** -/
theorem fl_natCast {p n : ℕ} (h : n < 2 ^ p) : fl p n = n := by
  rcases Nat.eq_zero_or_pos n with rfl | hn
  · rw [Nat.cast_zero]
    exact fl_zero p
  have hlog : Nat.log 2 n + 1 ≤ p := by
    have := Nat.log_lt_of_lt_pow (Nat.ne_of_gt hn) h
    omega
  -- in units of the last place it is an integer
  have hu : ulp p (n : ℚ) = (2 ^ (p - (Nat.log 2 n + 1)))⁻¹ := by
    unfold ulp
    rw [Int.log_natCast, ← zpow_natCast, ← zpow_neg]
    congr 1
    push_cast [Nat.cast_sub hlog]
    ring
  have hint : (n : ℚ) / ulp p n = ((n * 2 ^ (p - (Nat.log 2 n + 1)) : ℤ) : ℚ) := by
    rw [hu, div_inv_eq_mul]
    push_cast
    ring
  unfold fl
  rw [hint, roundEven_intCast, ← hint, div_mul_cancel₀ _ (ulp_pos p _).ne']

/-- **The relative error of rounding is at most half a unit in the last place.** -/
theorem abs_fl_sub_le {x : ℚ} (p : ℕ) (hx : 0 < x) : |fl p x - x| ≤ x / 2 ^ p := by
  have hu := ulp_pos p x
  have herr := abs_roundEven_sub_le (x / ulp p x)
  have hfl : fl p x - x = (roundEven (x / ulp p x) - x / ulp p x) * ulp p x := by
    unfold fl
    rw [sub_mul, div_mul_cancel₀ _ hu.ne']
  have hulp : ulp p x / 2 ≤ x / 2 ^ p := by
    have hlog := Int.zpow_log_le_self (b := 2) (by norm_num) hx
    have he : ulp p x / 2 = (2 : ℚ) ^ Int.log 2 x / 2 ^ p := by
      unfold ulp
      rw [zpow_sub₀ (by norm_num), zpow_add₀ (by norm_num), zpow_one, zpow_natCast]
      ring
    rw [he]
    push_cast at hlog
    gcongr
  calc |fl p x - x| = |(roundEven (x / ulp p x) : ℚ) - x / ulp p x| * ulp p x := by
        rw [hfl, abs_mul, abs_of_pos hu]
    _ ≤ 1 / 2 * ulp p x := by gcongr
    _ = ulp p x / 2 := by ring
    _ ≤ x / 2 ^ p := hulp

theorem ceil_natCast_div {b : ℕ} (hb : 0 < b) (a : ℕ) : ⌈(a : ℚ) / b⌉₊ = (a + b - 1) / b := by
  have hbq : (0 : ℚ) < b := by exact_mod_cast hb
  apply eq_of_forall_ge_iff
  intro n
  rw [Nat.ceil_le, div_le_iff₀ hbq, ← Nat.lt_succ_iff, Nat.div_lt_iff_lt_mul hb, Nat.succ_mul]
  constructor
  · intro h
    have h' : a ≤ n * b := by exact_mod_cast h
    omega
  · intro h
    have h' : a ≤ n * b := by omega
    exact_mod_cast h'

/-- **Rounding does not carry a quotient over an integer.** -/
theorem ceil_fl_div {p a b : ℕ} (ha : a < 2 ^ p) (hb : 0 < b) :
    ⌈fl p ((a : ℚ) / b)⌉₊ = (a + b - 1) / b := by
  have hbq : (0 : ℚ) < b := by exact_mod_cast hb
  by_cases hd : b ∣ a
  · obtain ⟨c, rfl⟩ := hd
    have hc : c < 2 ^ p := Nat.lt_of_le_of_lt (Nat.le_mul_of_pos_left c hb) ha
    have hq : ((b * c : ℕ) : ℚ) / b = (c : ℕ) := by
      push_cast
      field_simp
    rw [hq, fl_natCast hc, Nat.ceil_natCast]
    refine (Nat.div_eq_of_lt_le ?_ ?_).symm
    · rw [Nat.mul_comm]
      omega
    · rw [Nat.succ_mul, Nat.mul_comm]
      omega
  · -- the exact quotient is at least `1 / b` away from every integer, the error is less
    have ha0 : 0 < a := Nat.pos_of_ne_zero fun e => hd (e ▸ Nat.dvd_zero b)
    have haq : (0 : ℚ) < a := by exact_mod_cast ha0
    have hr : 0 < a % b := Nat.pos_of_ne_zero fun e => hd (Nat.dvd_of_mod_eq_zero e)
    have hrb := Nat.mod_lt a hb
    have hdiv := Nat.div_add_mod a b
    have hx : (0 : ℚ) < a / b := by positivity
    have herr := abs_fl_sub_le p hx
    have hsmall : (a : ℚ) / b / 2 ^ p < 1 / b := by
      have hap : (a : ℚ) < 2 ^ p := by exact_mod_cast ha
      rw [div_div, mul_comm, ← div_div]
      gcongr
      rw [div_lt_one (by positivity)]
      exact hap
    obtain ⟨hlo, hhi⟩ := abs_le.mp herr
    have hsplit : (a : ℚ) / b = (a / b : ℕ) + (a % b : ℕ) / b := by
      have hcast : (a : ℚ) = b * (a / b : ℕ) + (a % b : ℕ) := by exact_mod_cast hdiv.symm
      nth_rewrite 1 [hcast]
      field_simp
    have hr1 : (1 : ℚ) / b ≤ (a % b : ℕ) / b := by
      have : (1 : ℚ) ≤ (a % b : ℕ) := by exact_mod_cast hr
      gcongr
    have hr2 : ((a % b : ℕ) : ℚ) / b ≤ 1 - 1 / b := by
      have : ((a % b : ℕ) : ℚ) + 1 ≤ b := by exact_mod_cast hrb
      rw [le_sub_iff_add_le, ← add_div, div_le_one hbq]
      exact this
    have hceil : (a + b - 1) / b = a / b + 1 := by
      refine Nat.div_eq_of_lt_le ?_ ?_
      · rw [Nat.succ_mul, Nat.mul_comm]
        omega
      · rw [Nat.succ_mul, Nat.succ_mul, Nat.mul_comm]
        omega
    have hpos : a / b + 1 ≠ 0 := Nat.succ_ne_zero _
    rw [hceil, Nat.ceil_eq_iff hpos, Nat.add_sub_cancel]
    push_cast
    constructor <;> linarith

end CppCores
