import Mathlib.Algebra.Group.Nat.Defs
import Mathlib.Algebra.Group.Int.Defs
import Mathlib.Data.Int.Notation
import Mathlib.Tactic.Common

/-!
# uint_t<128>: the two-word integers of `utils/uint128_t.h`

`N x` is the number of a value.  A `uint64_t` wraps, and a `bool` that is added counts as 0 or 1.

* `add_spec`          what `operator+` computes: it carries exactly when it should not;
* `sub_spec`          **`operator-` is subtraction modulo `2 ^ 128`**;
* `ofUint128_spec`    the constructor keeps the low word, as `value << 64` has no low bits;
* `modular_iff`       all of it is arithmetic modulo `2 ^ 128` iff the low word of the second operand
                      is 0 and the integer that is converted fits in one word.
-/

namespace CppCores
namespace Uint128

/-- `uint_t<128>` -/
structure uint128 where
  lo : UInt64
  hi : UInt64
  deriving DecidableEq, Repr

/-- the number of a value -/
def N (x : uint128) : ℕ := x.hi.toNat * 2 ^ 64 + x.lo.toNat

namespace uint128

/-- the constructor from a type that converts to `uint`; `static_cast<uint64_t>` wraps -/
def ofUint (value : ℤ) : uint128 := ⟨UInt64.ofInt value, 0⟩

/-- the constructor from `uint128_t`, which is preferred to the template for that type -/
def ofUint128 (value : BitVec 128) : uint128 where
  lo := ⟨value.setWidth 64⟩
  hi := ⟨(value <<< 64).setWidth 64⟩

/-- the conversion to an unsigned type of `w` bits -/
def toUint (w : ℕ) (x : uint128) : BitVec w := x.lo.toBitVec.setWidth w

/-- `operator+` -/
def add (x y : uint128) : uint128 :=
  let lo := x.lo + y.lo
  let carry := decide (lo > x.lo)
  let hi := x.hi + y.hi + carry.toUInt64
  ⟨lo, hi⟩

/-- `operator-` -/
def sub (x y : uint128) : uint128 :=
  let lo := x.lo - y.lo
  let borrow := decide (x.lo < lo)
  let hi := x.hi - y.hi - borrow.toUInt64
  ⟨lo, hi⟩

instance : Add uint128 := ⟨add⟩
instance : Sub uint128 := ⟨sub⟩

end uint128

open uint128
variable {x y : uint128}

theorem N_lt (x : uint128) : N x < 2 ^ 128 := by
  have hh := x.hi.toNat_lt
  have hl := x.lo.toNat_lt
  unfold N
  omega

theorem N_inj : N x = N y ↔ x = y := by
  constructor
  · intro h
    have hx := x.lo.toNat_lt
    have hy := y.lo.toNat_lt
    unfold N at h
    have hhi : x.hi = y.hi := UInt64.toNat_inj.mp (by omega)
    have hlo : x.lo = y.lo := UInt64.toNat_inj.mp (by omega)
    cases x
    cases y
    cases hhi
    cases hlo
    rfl
  · intro h
    rw [h]

theorem toUInt64_toNat (b : Bool) : b.toUInt64.toNat = b.toNat := by
  cases b <;> rfl

/-! ## the operators -/

theorem lo_add (x y : uint128) : (x + y).lo = x.lo + y.lo := rfl

theorem hi_add (x y : uint128) :
    (x + y).hi = x.hi + y.hi + (decide (x.lo + y.lo > x.lo)).toUInt64 := rfl

theorem lo_sub (x y : uint128) : (x - y).lo = x.lo - y.lo := rfl

theorem hi_sub (x y : uint128) :
    (x - y).hi = x.hi - y.hi - (decide (x.lo < x.lo - y.lo)).toUInt64 := rfl

/-- the sum of the low words is greater than `x.lo` iff nothing is carried and something is added -/
theorem carry_iff (a b : UInt64) : a + b > a ↔ a.toNat + b.toNat < 2 ^ 64 ∧ b ≠ 0 := by
  have ha := a.toNat_lt
  have hb := b.toNat_lt
  have hz : b = 0 ↔ b.toNat = 0 := UInt64.toNat_inj.symm
  rw [gt_iff_lt, UInt64.lt_iff_toNat_lt, UInt64.toNat_add, ne_eq, hz]
  omega

/-- the difference of the low words is greater than `x.lo` iff something is borrowed -/
theorem borrow_iff (a b : UInt64) : a < a - b ↔ a.toNat < b.toNat := by
  have ha := a.toNat_lt
  have hb := b.toNat_lt
  rw [UInt64.lt_iff_toNat_lt, UInt64.toNat_sub]
  omega

/-- **`operator+` carries exactly when it should not**, but for `y.lo = 0`. -/
theorem add_spec (x y : uint128) :
    N (x + y) = if y.lo = 0 then (N x + N y) % 2 ^ 128
      else if x.lo.toNat + y.lo.toNat < 2 ^ 64 then (N x + N y + 2 ^ 64) % 2 ^ 128
      else (N x + N y + 2 ^ 128 - 2 ^ 64) % 2 ^ 128 := by
  have hxl := x.lo.toNat_lt
  have hyl := y.lo.toNat_lt
  have hc := carry_iff x.lo y.lo
  have hN : N (x + y) = (x + y).hi.toNat * 2 ^ 64 + (x + y).lo.toNat := rfl
  rw [hN, hi_add, lo_add, UInt64.toNat_add, UInt64.toNat_add, UInt64.toNat_add, toUInt64_toNat]
  unfold N
  by_cases h0 : y.lo = 0
  · have hy0 : y.lo.toNat = 0 := congrArg UInt64.toNat h0
    rw [if_pos h0, decide_eq_false fun h => (hc.mp h).2 h0, Bool.toNat_false]
    omega
  · rw [if_neg h0]
    by_cases hlt : x.lo.toNat + y.lo.toNat < 2 ^ 64
    · rw [if_pos hlt, decide_eq_true (hc.mpr ⟨hlt, h0⟩), Bool.toNat_true]
      omega
    · rw [if_neg hlt, decide_eq_false fun h => hlt (hc.mp h).1, Bool.toNat_false]
      omega

/-- what is taken away gives back what was there, or `2 ^ 128` more -/
theorem sub_add (x y : uint128) :
    N (x - y) + N y = N x ∨ N (x - y) + N y = N x + 2 ^ 128 := by
  have hxl := x.lo.toNat_lt
  have hyl := y.lo.toNat_lt
  have hxh := x.hi.toNat_lt
  have hyh := y.hi.toNat_lt
  have hb := borrow_iff x.lo y.lo
  have hN : N (x - y) = (x - y).hi.toNat * 2 ^ 64 + (x - y).lo.toNat := rfl
  rw [hN, hi_sub, lo_sub, UInt64.toNat_sub, UInt64.toNat_sub, UInt64.toNat_sub, toUInt64_toNat]
  unfold N
  by_cases hlt : x.lo.toNat < y.lo.toNat
  · rw [decide_eq_true (hb.mpr hlt), Bool.toNat_true]
    omega
  · rw [decide_eq_false fun h => hlt (hb.mp h), Bool.toNat_false]
    omega

/-- **`operator-` is subtraction modulo `2 ^ 128`.** -/
theorem sub_spec (x y : uint128) : (N (x - y) : ℤ) = ((N x : ℤ) - N y) % 2 ^ 128 := by
  have hx := N_lt x
  have hd := N_lt (x - y)
  rcases sub_add x y with h | h <;> omega

theorem add_eq_iff (x y : uint128) : N (x + y) = (N x + N y) % 2 ^ 128 ↔ y.lo = 0 := by
  have hx := N_lt x
  have hy := N_lt y
  rw [add_spec]
  by_cases h0 : y.lo = 0
  · rw [if_pos h0]
    exact iff_of_true rfl h0
  · rw [if_neg h0]
    refine iff_of_false (fun h => ?_) h0
    split at h <;> omega

theorem add_sub_cancel_iff (x y : uint128) : (x + y) - y = x ↔ y.lo = 0 := by
  have hx := N_lt x
  have hs := N_lt (x + y)
  have hsub := sub_spec (x + y) y
  rw [← add_eq_iff x y, ← N_inj]
  omega

/-! ## the constructors -/

theorem ofUint128_spec (v : BitVec 128) : N (ofUint128 v) = v.toNat % 2 ^ 64 := by
  have hlo : (ofUint128 v).lo.toNat = v.toNat % 2 ^ 64 := BitVec.toNat_setWidth 64 v
  have hhi : (ofUint128 v).hi.toNat = (v <<< 64).toNat % 2 ^ 64 := BitVec.toNat_setWidth 64 (v <<< 64)
  have hshift : (v <<< 64).toNat = v.toNat <<< 64 % 2 ^ 128 := BitVec.toNat_shiftLeft
  rw [Nat.shiftLeft_eq] at hshift
  unfold N
  rw [hlo, hhi, hshift]
  omega

theorem ofUint128_eq_iff (v : BitVec 128) : N (ofUint128 v) = v.toNat ↔ v.toNat < 2 ^ 64 := by
  rw [ofUint128_spec]
  omega

theorem toUint_ofUint {w : ℕ} (hw : w ≤ 64) (v : BitVec w) :
    N (ofUint v.toNat) = v.toNat ∧ toUint w (ofUint v.toNat) = v := by
  have hlt : v.toNat < 2 ^ 64 := Nat.lt_of_lt_of_le v.isLt (Nat.pow_le_pow_right (by decide) hw)
  have hint : ((v.toNat : ℤ) % 2 ^ 64).toNat = v.toNat := by omega
  have hnat : (ofUint v.toNat).lo.toNat = v.toNat := by
    show (UInt64.ofNat ((v.toNat : ℤ) % 2 ^ 64).toNat).toNat = v.toNat
    rw [hint, UInt64.toNat_ofNat_of_lt' hlt]
  constructor
  · show 0 * 2 ^ 64 + (ofUint v.toNat).lo.toNat = v.toNat
    rw [hnat, Nat.zero_mul, Nat.zero_add]
  · apply BitVec.eq_of_toNat_eq
    show ((ofUint v.toNat).lo.toBitVec.setWidth w).toNat = v.toNat
    rw [BitVec.toNat_setWidth]
    show (ofUint v.toNat).lo.toNat % 2 ^ w = v.toNat
    rw [hnat, Nat.mod_eq_of_lt v.isLt]

/-! ## the whole type -/

/-- **The type is arithmetic modulo `2 ^ 128` where the low word of the second operand is 0 and the
integer fits in one word, and nowhere else.** -/
theorem modular_iff (x y : uint128) (v : BitVec 128) :
    (N (x + y) = (N x + N y) % 2 ^ 128 ∧ (N (x - y) : ℤ) = ((N x : ℤ) - N y) % 2 ^ 128 ∧
      (x + y) - y = x ∧ N (ofUint128 v) = v.toNat) ↔ y.lo = 0 ∧ v.toNat < 2 ^ 64 := by
  rw [add_eq_iff, add_sub_cancel_iff, ofUint128_eq_iff]
  constructor
  · intro h
    exact ⟨h.1, h.2.2.2⟩
  · intro h
    exact ⟨h.1, sub_spec x y, h.1, h.2⟩

/-- 1 + 1 carries, and `2 ^ 64` is constructed as 0 -/
theorem not_modular : ¬ ∀ (x y : uint128) (v : BitVec 128),
    N (x + y) = (N x + N y) % 2 ^ 128 ∧ (N (x - y) : ℤ) = ((N x : ℤ) - N y) % 2 ^ 128 ∧
      (x + y) - y = x ∧ N (ofUint128 v) = v.toNat := by
  intro hall
  have hadd : N (⟨1, 0⟩ + ⟨1, 0⟩) = 2 := (hall ⟨1, 0⟩ ⟨1, 0⟩ 0).1
  have hcarry : N (⟨1, 0⟩ + ⟨1, 0⟩) = 2 ^ 64 + 2 := by decide
  rw [hcarry] at hadd
  exact absurd hadd (by decide)

end Uint128
end CppCores
