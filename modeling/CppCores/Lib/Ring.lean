import Mathlib.Data.List.Basic
import Mathlib.Logic.Function.Basic
import Mathlib.Tactic.Common

/-!
# Windows of a circular buffer

`window f n lo hi` is the list of the cells `f (i % n)` for `lo ≤ i < hi`: the content of a circular
buffer of `n` cells whose read and write positions are counted without wrapping.  A window grows
and shrinks at both ends, and writing the cell of the position `hi` does not touch a window that
holds fewer than `n` elements.
-/

namespace CppCores

/-- the cells of the positions `lo ≤ i < hi`, in order -/
def window {α : Type*} (f : ℕ → α) (n lo hi : ℕ) : List α :=
  (List.range' lo (hi - lo)).map fun i => f (i % n)

/-- two positions less than a lap apart have different cells -/
theorem mod_ne_of_lt_lap {n i j : ℕ} (hij : i < j) (hj : j < i + n) : i % n ≠ j % n := by
  intro h
  have hd : n ∣ j - i := Nat.dvd_of_mod_eq_zero (Nat.sub_mod_eq_zero_of_mod_eq h.symm)
  have := Nat.le_of_dvd (by omega) hd
  omega

section
variable {α : Type*} (f : ℕ → α) {n lo hi : ℕ}

@[simp] theorem window_length : (window f n lo hi).length = hi - lo := by simp [window]

theorem window_empty (h : hi ≤ lo) : window f n lo hi = [] := by
  simp [window, Nat.sub_eq_zero_of_le h]

theorem window_snoc (h : lo ≤ hi) :
    window f n lo (hi + 1) = window f n lo hi ++ [f (hi % n)] := by
  have e : hi + 1 - lo = (hi - lo) + 1 := by omega
  rw [window, e, List.range'_concat, List.map_append]
  simp [window, Nat.add_sub_cancel' h]

theorem window_cons (h : lo < hi) :
    window f n lo hi = f (lo % n) :: window f n (lo + 1) hi := by
  have e : hi - lo = (hi - (lo + 1)) + 1 := by omega
  rw [window, e, List.range'_succ]
  rfl

theorem window_congr {g : ℕ → α} (h : ∀ i, lo ≤ i → i < hi → f (i % n) = g (i % n)) :
    window f n lo hi = window g n lo hi := by
  apply List.map_congr_left
  intro i hi'
  obtain ⟨h1, h2⟩ := List.mem_range'_1.mp hi'
  exact h i h1 (by omega)

theorem window_update (a : α) (h : hi < lo + n) :
    window (Function.update f (hi % n) a) n lo hi = window f n lo hi := by
  refine window_congr _ fun i h1 h2 => ?_
  exact Function.update_of_ne (mod_ne_of_lt_lap h2 (by omega)) ..

end
end CppCores
