import Mathlib.Logic.Function.Basic
import Mathlib.Tactic.Common

/-!
# Reversing a part of an array in place

The `d` elements from `start` on are reversed by exchanges of the first with the last, the second with
the one before the last, and so on.

* `exchanged_apply`   what `k` exchanges leave;
* `exchanged_half`    half as many exchanges as there are elements reverse them.
-/

namespace CppCores
namespace Reversal
variable {β : Type*}

/-- `k` exchanges -/
def exchanged (f : ℕ → β) (start d : ℕ) : ℕ → ℕ → β
  | 0 => f
  | k + 1 =>
    let g := exchanged f start d k
    Function.update (Function.update g (start + d - 1 - k) (g (start + k))) (start + k)
      (g (start + d - 1 - k))

variable (f : ℕ → β) (start d : ℕ)

theorem exchanged_apply (k : ℕ) (h : 2 * k ≤ d) (p : ℕ) : exchanged f start d k p =
    if start ≤ p ∧ p < start + k ∨ start + d - k ≤ p ∧ p < start + d
      then f (start + (start + d - 1 - p)) else f p := by
  induction k generalizing p with
  | zero =>
    rw [if_neg (by omega)]
    rfl
  | succ k ih =>
    have hk : 2 * k ≤ d := by omega
    have hfront : exchanged f start d k (start + k) = f (start + k) := by
      rw [ih hk, if_neg (by omega)]
    have hback : exchanged f start d k (start + d - 1 - k) = f (start + d - 1 - k) := by
      rw [ih hk, if_neg (by omega)]
    show Function.update (Function.update (exchanged f start d k) (start + d - 1 - k) _) (start + k) _ p = _
    rw [hfront, hback]
    by_cases h1 : p = start + k
    · rw [h1, Function.update_self, if_pos (by omega)]
      congr 1
      omega
    · rw [Function.update_of_ne h1]
      by_cases h2 : p = start + d - 1 - k
      · rw [h2, Function.update_self, if_pos (by omega)]
        congr 1
        omega
      · rw [Function.update_of_ne h2, ih hk]
        refine if_congr ?_ rfl rfl
        omega

theorem exchanged_half (p : ℕ) : exchanged f start d (d / 2) p =
    if start ≤ p ∧ p < start + d then f (start + (start + d - 1 - p)) else f p := by
  rw [exchanged_apply f start d (d / 2) (by omega)]
  by_cases hp : start ≤ p ∧ p < start + d
  · rw [if_pos hp]
    split
    · rfl
    · -- the one in the middle stays
      congr 1
      omega
  · rw [if_neg hp, if_neg (by omega)]

end Reversal
end CppCores
