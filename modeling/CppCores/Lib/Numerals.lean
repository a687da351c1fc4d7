import Mathlib.Data.List.GetD
import Mathlib.Data.Nat.Digits.Lemmas

/-!
# Numerals with leading zeros

`numeral b d n`: the digits of `n` in the base `b`, the most significant first, with zeros before them
up to `d` digits.

* `digits_done_iff`   how many divisions by the base it takes until nothing is left;
* `numeral_eq`        each digit of the numeral by a division.
-/

namespace CppCores
namespace Numerals

def numeral (b d n : ℕ) : List ℕ := (Nat.digits b n).reverse.leftpad d 0

section
variable {b d n : ℕ}

/-- nothing is left of `n` after `k` divisions by the base -/
theorem digits_done_iff (hb : 2 ≤ b) (k : ℕ) : n / b ^ k = 0 ↔ (Nat.digits b n).length ≤ k := by
  rw [Nat.digits_length_le_iff hb, Nat.div_eq_zero_iff_lt (Nat.pow_pos (by omega))]

theorem length_numeral (h : (Nat.digits b n).length ≤ d) : (numeral b d n).length = d := by
  rw [numeral, List.leftpad, List.length_append, List.length_replicate, List.length_reverse]
  omega

theorem getElem_numeral (hb : 2 ≤ b) (h : (Nat.digits b n).length ≤ d) {t : ℕ}
    (ht : t < (numeral b d n).length) : (numeral b d n)[t] = n / b ^ (d - 1 - t) % b := by
  have hlt : t < d := length_numeral h ▸ ht
  rw [← Nat.getD_digits n (d - 1 - t) hb]
  simp only [numeral, List.leftpad, List.length_reverse] at ht ⊢
  rw [List.getElem_append]
  split
  · rename_i hz
    rw [List.length_replicate] at hz
    rw [List.getElem_replicate, List.getD_eq_default]
    omega
  · rename_i hz
    rw [List.length_replicate] at hz
    rw [List.getElem_reverse, List.getD_eq_getElem _ _ (by omega)]
    congr 1
    rw [List.length_replicate]
    omega

theorem numeral_eq (hb : 2 ≤ b) (h : (Nat.digits b n).length ≤ d) :
    numeral b d n = (List.range d).map fun t => n / b ^ (d - 1 - t) % b := by
  apply List.ext_getElem
  · rw [length_numeral h, List.length_map, List.length_range]
  · intro t ht _
    rw [getElem_numeral hb h ht, List.getElem_map, List.getElem_range]

end
end Numerals
end CppCores
