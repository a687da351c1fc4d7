import CppCores.Lib.Decimal
import CppCores.Lib.Numerals
import CppCores.Utils.Uint128

/-!
# uint_t<128>: the stream operator

`os << value.hi << value.lo` writes two decimal numerals, the second without zeros in front.

* `value_print`   the number that the text stands for;
* `print_spec`    **it is the number of the value iff the high word is 0, and the text is never the numeral
                  of the value.**
-/

namespace CppCores
namespace Uint128
open Numerals Decimal

/-! ## the code -/

/-- `os << n` with the flags of a new stream -/
def decimal (n : ℕ) : List UInt8 := (numeral 10 1 n).map fun d => UInt8.ofNat (48 + d)

/-- `operator<<`, with what the stream has so far -/
def print (os : List UInt8) (value : uint128) : List UInt8 :=
  os ++ decimal value.hi.toNat ++ decimal value.lo.toNat

/-! ## numerals -/

theorem value_concat (ds : List UInt8) (c : UInt8) : value (ds ++ [c]) = 10 * value ds + (c.toNat - 48) := by
  rw [value, value, List.foldl_append]
  rfl

theorem value_append (ds es : List UInt8) : value (ds ++ es) = value ds * 10 ^ es.length + value es := by
  induction es using List.reverseRecOn with
  | nil => simp [value]
  | append_singleton es c ih =>
    rw [← List.append_assoc, value_concat, ih, value_concat, List.length_append, List.length_singleton,
      Nat.pow_succ, Nat.mul_add, ← Nat.add_assoc, Nat.mul_left_comm, Nat.mul_comm 10]

theorem value_map {ds : List ℕ} (h : ∀ d ∈ ds, d < 10) :
    value (ds.map fun d => UInt8.ofNat (48 + d)) = Nat.ofDigits 10 ds.reverse := by
  induction ds using List.reverseRecOn with
  | nil => rfl
  | append_singleton ds d ih =>
    have hd : d < 10 := h d (List.mem_append_right _ List.mem_cons_self)
    have hc : (UInt8.ofNat (48 + d)).toNat - 48 = d := by
      rw [UInt8.toNat_ofNat']
      omega
    rw [List.map_append, List.map_singleton, value_concat, hc,
      ih fun e he => h e (List.mem_append_left _ he), List.reverse_append, List.reverse_singleton,
      List.singleton_append, Nat.ofDigits_cons, Nat.add_comm]

theorem numeral_ten (n : ℕ) : (∀ d ∈ numeral 10 1 n, d < 10) ∧
    Nat.ofDigits 10 (numeral 10 1 n).reverse = n := by
  by_cases h0 : n = 0
  · subst h0
    exact ⟨by decide, rfl⟩
  · have hne : Nat.digits 10 n ≠ [] := Nat.digits_ne_nil_iff_ne_zero.mpr h0
    have hpos := List.length_pos_iff.mpr hne
    have hnum : numeral 10 1 n = (Nat.digits 10 n).reverse := by
      rw [numeral, List.leftpad, List.length_reverse]
      have hz : 1 - (Nat.digits 10 n).length = 0 := by omega
      rw [hz]
      rfl
    rw [hnum]
    constructor
    · intro d hd
      exact Nat.digits_lt_base (by decide) (List.mem_reverse.mp hd)
    · rw [List.reverse_reverse, Nat.ofDigits_digits]

theorem value_decimal (n : ℕ) : value (decimal n) = n := by
  rw [decimal, value_map (numeral_ten n).1, (numeral_ten n).2]

/-! ## the text -/

theorem value_print (x : uint128) :
    value (print [] x) = x.hi.toNat * 10 ^ (decimal x.lo.toNat).length + x.lo.toNat := by
  rw [print, List.nil_append, value_append, value_decimal, value_decimal]

/-- a power of ten is not the weight of the high word -/
theorem ten_pow_ne (k : ℕ) : 10 ^ k ≠ 2 ^ 64 := by
  cases k with
  | zero => decide
  | succ k =>
    intro h
    rw [Nat.pow_succ] at h
    omega

/-- **The text stands for the number of the value iff the high word is 0, and is never its numeral.** -/
theorem print_spec (x : uint128) :
    (value (print [] x) = N x ↔ x.hi = 0) ∧ print [] x ≠ decimal (N x) := by
  have hiff : value (print [] x) = N x ↔ x.hi = 0 := by
    rw [value_print, N]
    constructor
    · intro h
      apply UInt64.toNat_inj.mp
      by_contra hne
      have hpos : 0 < x.hi.toNat := Nat.pos_of_ne_zero hne
      exact ten_pow_ne _ (Nat.eq_of_mul_eq_mul_left hpos (Nat.add_right_cancel h))
    · intro h
      rw [h]
      simp
  refine ⟨hiff, fun h => ?_⟩
  have hv : value (print [] x) = N x := by rw [h, value_decimal]
  have hhi := hiff.mp hv
  -- the numeral of the low word alone has no zero in front
  have hN : N x = x.lo.toNat := by
    rw [N, hhi]
    simp
  have hlen := congrArg List.length h
  have hzero : (decimal x.hi.toNat).length = 1 := by
    rw [hhi]
    rfl
  rw [print, List.nil_append, List.length_append, hN, hzero] at hlen
  omega

end Uint128
end CppCores
