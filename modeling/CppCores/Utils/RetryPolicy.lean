import Mathlib.Algebra.Group.Nat.Defs
import Mathlib.Algebra.Order.Group.Nat
import Mathlib.Order.Monotone.Basic
import CppCores.Lib.Signed

/-!
# RetryPolicy: the exponential back-off of `utils/retry_policy.h`

`GetRetryInterval` multiplies before it takes the minimum, in 32 bits.  So an interval is right as
long as the doubled base fits an `int32_t` (`GetRetryInterval_iff`), which it does for no base from
the 31st retry on (`not_always`).

`Backoff.interval` is what the policy is for, in the natural numbers.
-/

namespace CppCores

/-! ## what a back-off is -/

namespace Backoff

/-- the base doubled `n` times, at most `cap` times, and never over `max` -/
def interval (base max cap n : ℕ) : ℕ := min max (base * 2 ^ min n cap)

theorem doubled_mono (base cap : ℕ) : Monotone fun n => base * 2 ^ min n cap := by
  intro m n h
  apply Nat.mul_le_mul_left
  apply Nat.pow_le_pow_right (by decide)
  omega

theorem interval_mono (base max cap : ℕ) : Monotone (interval base max cap) := by
  intro m n h
  have hd := doubled_mono base cap h
  simp only [interval] at hd ⊢
  omega

theorem interval_le (base max cap n : ℕ) : interval base max cap n ≤ max := Nat.min_le_left _ _

theorem interval_pos {base max : ℕ} (hb : 1 ≤ base) (hm : 1 ≤ max) (cap n : ℕ) :
    1 ≤ interval base max cap n := by
  have hp : 0 < base * 2 ^ min n cap := Nat.mul_pos hb (Nat.two_pow_pos _)
  simp only [interval]
  omega

end Backoff

/-! ## the policy -/

open Signed

structure ExponentialRetryPolicy where
  base_interval_ms_ : BitVec 32
  max_interval_ms_ : BitVec 32

namespace ExponentialRetryPolicy

/-- `1 << n` in `int`: the power fits an `unsigned` and is converted, with the sign bit for 31 -/
def shiftedOne (n : UInt32) : BitVec 32 := BitVec.ofInt 32 (2 ^ n.toNat)

/-- nothing where the product overflows -/
def GetRetryInterval (p : ExponentialRetryPolicy) (retry_count : UInt32) : Option (BitVec 32) :=
  (checkedMul p.base_interval_ms_ (shiftedOne (min retry_count 31))).map fun product =>
    -- `std::min`: the second one only if it is less
    if product.slt p.max_interval_ms_ then product else p.max_interval_ms_

/-- both intervals are at least 1 -/
def Positive (p : ExponentialRetryPolicy) : Prop :=
  1 ≤ p.base_interval_ms_.toInt ∧ 1 ≤ p.max_interval_ms_.toInt

instance instDecidablePositive (p : ExponentialRetryPolicy) : Decidable p.Positive :=
  inferInstanceAs (Decidable (_ ∧ _))

/-- the interval the policy is for -/
def interval (p : ExponentialRetryPolicy) (retry_count : UInt32) : ℕ :=
  Backoff.interval p.base_interval_ms_.toInt.toNat p.max_interval_ms_.toInt.toNat 31
    retry_count.toNat

/-- the base, doubled once for each retry and 31 times at most -/
def doubled (p : ExponentialRetryPolicy) (retry_count : UInt32) : ℕ :=
  p.base_interval_ms_.toInt.toNat * 2 ^ min retry_count.toNat 31

theorem toNat_min (retry_count : UInt32) : (min retry_count 31).toNat = min retry_count.toNat 31 := by
  rw [UInt32.min_def]
  split
  · rename_i h
    rw [UInt32.le_iff_toNat_le] at h
    exact (Nat.min_eq_left h).symm
  · rename_i h
    rw [UInt32.not_le, UInt32.lt_iff_toNat_lt] at h
    exact (Nat.min_eq_right (Nat.le_of_lt h)).symm

theorem toInt_shiftedOne {n : UInt32} (h : n.toNat < 31) : (shiftedOne n).toInt = 2 ^ n.toNat := by
  have hp : 2 ^ n.toNat < 2 ^ 31 := Nat.pow_lt_pow_right (by decide) h
  have hcast : ((2 ^ n.toNat : ℕ) : ℤ) = 2 ^ n.toNat := Int.natCast_pow 2 n.toNat
  rw [shiftedOne, ← hcast]
  generalize 2 ^ n.toNat = power at hp ⊢
  apply toInt_ofInt (by decide)
  rw [Fits]
  omega

theorem toInt_shiftedOne_last {n : UInt32} (h : n.toNat = 31) : (shiftedOne n).toInt = -2 ^ 31 := by
  rw [shiftedOne, h]
  decide

section
variable (p : ExponentialRetryPolicy) (retry_count : UInt32)

theorem interval_eq :
    (p.interval retry_count : ℤ) = min (p.max_interval_ms_.toInt.toNat : ℤ) (p.doubled retry_count) := by
  rw [interval, Backoff.interval, doubled]
  omega

variable {p} {retry_count}

theorem product_eq (hp : p.Positive) (hk : retry_count.toNat < 31) :
    p.base_interval_ms_.toInt * (shiftedOne (min retry_count 31)).toInt = p.doubled retry_count := by
  have hmin : min retry_count.toNat 31 = retry_count.toNat := by omega
  have hb := hp.1
  rw [toInt_shiftedOne (by rw [toNat_min]; omega), toNat_min, hmin, doubled, hmin]
  push_cast
  rw [Int.toNat_of_nonneg (by omega)]

theorem doubled_mono {earlier : UInt32} (h : earlier ≤ retry_count) :
    p.doubled earlier ≤ p.doubled retry_count :=
  Backoff.doubled_mono _ 31 (UInt32.le_iff_toNat_le.mp h)

/-- a doubled base that fits is of a retry before the 31st -/
theorem toNat_lt_of_doubled_lt (hp : p.Positive) (h : p.doubled retry_count < 2 ^ 31) :
    retry_count.toNat < 31 := by
  by_contra hk
  have hmin : min retry_count.toNat 31 = 31 := by omega
  have hb := hp.1
  rw [doubled, hmin] at h
  omega

theorem GetRetryInterval_of_lt (hp : p.Positive) (h : p.doubled retry_count < 2 ^ 31) :
    ∃ r, p.GetRetryInterval retry_count = some r ∧ r.toInt = p.interval retry_count := by
  have hm := hp.2
  have hprod := product_eq hp (toNat_lt_of_doubled_lt hp h)
  have hfits : Fits 32 (p.doubled retry_count : ℤ) := by
    rw [Fits]
    omega
  have hz := toInt_ofInt (by decide) hfits
  rw [GetRetryInterval, checkedMul, hprod, checked_of_fits hfits, Option.map_some]
  refine ⟨_, rfl, ?_⟩
  rw [interval_eq]
  split
  · rename_i hlt
    rw [BitVec.slt_iff_toInt_lt] at hlt
    omega
  · rename_i hle
    rw [BitVec.slt_iff_toInt_lt] at hle
    omega

/-- beyond, the product overflows or is the least `int` -/
theorem GetRetryInterval_of_le (hp : p.Positive) (h : 2 ^ 31 ≤ p.doubled retry_count)
    {r : BitVec 32} (hr : p.GetRetryInterval retry_count = some r) : r.toInt = -2 ^ 31 := by
  rw [GetRetryInterval, Option.map_eq_some_iff] at hr
  obtain ⟨z, hz, hr⟩ := hr
  rw [checkedMul, checked_eq_some (by decide)] at hz
  have hfits := fits_toInt (by decide) z
  rw [hz, Fits] at hfits
  have hk : 31 ≤ retry_count.toNat := by
    by_contra hk
    have hprod := product_eq hp (Nat.not_le.mp hk)
    omega
  obtain ⟨hb, hm⟩ := hp
  rw [toInt_shiftedOne_last (by rw [toNat_min]; omega)] at hz hfits
  have hlt : z.toInt < p.max_interval_ms_.toInt := by omega
  rw [if_pos ((BitVec.slt_iff_toInt_lt).mpr hlt)] at hr
  rw [← hr]
  omega

/-- the call overflows nowhere and has the interval that is wanted, which is between 1 and the greatest
one and no less than at any earlier retry -/
def Right (p : ExponentialRetryPolicy) (retry_count : UInt32) : Prop :=
  ∃ r, p.GetRetryInterval retry_count = some r ∧ r.toInt = p.interval retry_count ∧
    1 ≤ r.toInt ∧ r.toInt ≤ p.max_interval_ms_.toInt ∧
    ∀ earlier ≤ retry_count, ∃ r', p.GetRetryInterval earlier = some r' ∧ r'.toInt ≤ r.toInt

theorem GetRetryInterval_iff (p : ExponentialRetryPolicy) (hp : p.Positive) (retry_count : UInt32) :
    p.Right retry_count ↔ p.doubled retry_count < 2 ^ 31 := by
  refine ⟨fun h => ?_, fun h => ?_⟩
  · obtain ⟨r, hr, -, hpos, -⟩ := h
    by_contra hle
    have hmin := GetRetryInterval_of_le hp (by omega) hr
    omega
  · obtain ⟨r, hr, heq⟩ := GetRetryInterval_of_lt hp h
    have hb := hp.1
    have hm := hp.2
    refine ⟨r, hr, heq, ?_, ?_, fun earlier he => ?_⟩
    · have hb' : 1 ≤ p.base_interval_ms_.toInt.toNat := by omega
      have hm' : 1 ≤ p.max_interval_ms_.toInt.toNat := by omega
      have hpos := Backoff.interval_pos hb' hm' 31 retry_count.toNat
      rw [heq, interval]
      omega
    · have hle := Backoff.interval_le p.base_interval_ms_.toInt.toNat p.max_interval_ms_.toInt.toNat
        31 retry_count.toNat
      rw [heq, interval]
      omega
    · have hlt : p.doubled earlier < 2 ^ 31 := lt_of_le_of_lt (doubled_mono he) h
      obtain ⟨r', hr', heq'⟩ := GetRetryInterval_of_lt hp hlt
      have hmono := Backoff.interval_mono p.base_interval_ms_.toInt.toNat
        p.max_interval_ms_.toInt.toNat 31 (UInt32.le_iff_toNat_le.mp he)
      refine ⟨r', hr', ?_⟩
      rw [heq, heq', interval, interval]
      omega

theorem GetRetryInterval_iff_second_retry :
    Positive ⟨100#32, 5000#32⟩ ∧ (Right ⟨100#32, 5000#32⟩ 2 ↔ doubled ⟨100#32, 5000#32⟩ 2 < 2 ^ 31) :=
  ⟨by decide, GetRetryInterval_iff ⟨100#32, 5000#32⟩ (by decide) 2⟩

/-- a second as the base: the 22nd retry is not one minute away -/
theorem GetRetryInterval_overflows :
    ¬ ∀ (p : ExponentialRetryPolicy) (retry_count : UInt32), p.Positive → p.Right retry_count := by
  intro h
  obtain ⟨r, hr, -⟩ := h ⟨1000#32, 60000#32⟩ 22 (by decide)
  have hnone : GetRetryInterval ⟨1000#32, 60000#32⟩ 22 = none := by decide
  rw [hnone] at hr
  cases hr

theorem not_always (hp : p.Positive) : ∃ retry_count, ∀ later, retry_count ≤ later → ¬ p.Right later := by
  refine ⟨31, fun later hl => ?_⟩
  rintro ⟨r, hr, -, hpos, -⟩
  have hl' : 31 ≤ later.toNat := UInt32.le_iff_toNat_le.mp hl
  have hmin : min later.toNat 31 = 31 := by omega
  have hle : 2 ^ 31 ≤ p.doubled later := by
    have hb := hp.1
    rw [doubled, hmin]
    omega
  have hlast := GetRetryInterval_of_le hp hle hr
  omega

end

end ExponentialRetryPolicy
end CppCores
