import Mathlib.Data.List.Basic
import Mathlib.Data.Int.Notation
import Mathlib.Tactic.Common

/-!
# The lexicographic order, from the first difference on

* `eq_or_differ`      two lists of one length are equal, or there is a first place where they differ;
* `Tells x y r`       the sign of `r` tells how `x` compares to `y`;
* `tells_of_take`     **two lists compare as their parts of the shorter length do, and as their lengths
                      where these parts are equal.**
-/

namespace CppCores

section
variable {α : Type*} {x y : List α}

/-- where two lists of one length part -/
theorem eq_or_differ [DecidableEq α] (h : x.length = y.length) :
    x = y ∨ ∃ r a b p q, a ≠ b ∧ p.length = q.length ∧ x = r ++ a :: p ∧ y = r ++ b :: q := by
  induction x generalizing y with
  | nil => exact .inl (List.eq_nil_of_length_eq_zero h.symm).symm
  | cons a x ih =>
    cases y with
    | nil => cases h
    | cons b y =>
      have hl : x.length = y.length := Nat.succ.inj h
      by_cases hab : a = b
      · subst hab
        rcases ih hl with rfl | ⟨r, c, d, p, q, hcd, hpq, rfl, rfl⟩
        · exact .inl rfl
        · exact .inr ⟨a :: r, c, d, p, q, hcd, hpq, rfl, rfl⟩
      · exact .inr ⟨[], a, b, x, y, hab, hl, rfl, rfl⟩

end

section
variable {α : Type*} [LT α] {x y : List α} {n : ℕ}

theorem append_cons_lt {a b : α} (h : a < b) (r p q : List α) : r ++ a :: p < r ++ b :: q := by
  induction r with
  | nil => exact List.cons_lt_cons_iff.mpr (.inl h)
  | cons c r ih => exact List.cons_lt_cons_iff.mpr (.inr ⟨rfl, ih⟩)

/-- a list is below those that it begins -/
theorem lt_append {p : List α} (hp : p ≠ []) (r : List α) : r < r ++ p := by
  induction r with
  | nil =>
    cases p with
    | nil => exact absurd rfl hp
    | cons a p => exact List.nil_lt_cons a p
  | cons c r ih => exact List.cons_lt_cons_iff.mpr (.inr ⟨rfl, ih⟩)

theorem lt_of_take_lt (hx : n ≤ x.length) (hy : n ≤ y.length) (h : x.take n < y.take n) :
    x < y := by
  induction n generalizing x y with
  | zero =>
    rw [List.take_zero, List.take_zero] at h
    exact absurd h (List.not_lt_nil _)
  | succ n ih =>
    cases x with
    | nil => exact absurd hx (Nat.not_succ_le_zero n)
    | cons a x =>
      cases y with
      | nil => exact absurd hy (Nat.not_succ_le_zero n)
      | cons b y =>
        rw [List.take_succ_cons, List.take_succ_cons] at h
        apply List.cons_lt_cons_iff.mpr
        rcases List.cons_lt_cons_iff.mp h with hab | ⟨hab, h⟩
        · exact .inl hab
        · exact .inr ⟨hab, ih (Nat.le_of_succ_le_succ hx) (Nat.le_of_succ_le_succ hy) h⟩

theorem lt_of_initial (h : y.take x.length = x) (hlt : x.length < y.length) : x < y := by
  have hne : y.drop x.length ≠ [] := by
    intro hd
    have hle := List.drop_eq_nil_iff.mp hd
    omega
  have hy : y = x ++ y.drop x.length := by
    conv_lhs => rw [← List.take_append_drop x.length y, h]
  rw [hy]
  exact lt_append hne x

end

/-! ## comparing -/

section
variable {α : Type*} [LT α] {x y : List α} {r : ℤ}

/-- the sign of `r` tells how `x` compares to `y` -/
inductive Tells (x y : List α) (r : ℤ) : Prop
  | lt : r < 0 → x < y → Tells x y r
  | eq : r = 0 → x = y → Tells x y r
  | gt : 0 < r → y < x → Tells x y r

theorem Tells.swap (h : Tells x y r) : Tells y x (-r) := by
  cases h with
  | lt hr h => exact .gt (by omega) h
  | eq hr h => exact .eq (by omega) h.symm
  | gt hr h => exact .lt (by omega) h

/-- **Two lists compare as their parts of the shorter length, and as their lengths where these parts
are equal.** -/
theorem tells_of_take (h : Tells (x.take (min x.length y.length)) (y.take (min x.length y.length)) r) :
    Tells x y (if r = 0 then
      if x.length < y.length then -1 else if y.length < x.length then 1 else r else r) := by
  have hx := Nat.min_le_left x.length y.length
  have hy := Nat.min_le_right x.length y.length
  cases h with
  | lt hr h =>
    rw [if_neg (Int.ne_of_lt hr)]
    exact .lt hr (lt_of_take_lt hx hy h)
  | gt hr h =>
    rw [if_neg (Int.ne_of_gt hr)]
    exact .gt hr (lt_of_take_lt hy hx h)
  | eq hr h =>
    rw [if_pos hr]
    rcases Nat.lt_trichotomy x.length y.length with hl | hl | hl
    · rw [if_pos hl]
      rw [Nat.min_eq_left (Nat.le_of_lt hl), List.take_length] at h
      exact .lt (by omega) (lt_of_initial h.symm hl)
    · rw [if_neg (by omega), if_neg (by omega)]
      rw [← hl, Nat.min_self, List.take_length, hl, List.take_length] at h
      exact .eq hr h
    · rw [if_neg (by omega), if_pos hl]
      rw [Nat.min_eq_right (Nat.le_of_lt hl), List.take_length] at h
      exact .gt (by omega) (lt_of_initial h hl)

variable [Std.Asymm (fun a b : α => a < b)]

theorem Tells.neg_iff (h : Tells x y r) : r < 0 ↔ x < y := by
  cases h with
  | lt hr h => exact iff_of_true hr h
  | eq hr h => exact iff_of_false (by omega) (h ▸ List.lt_irrefl x)
  | gt hr h => exact iff_of_false (by omega) (List.lt_asymm h)

theorem Tells.pos_iff (h : Tells x y r) : 0 < r ↔ y < x := by
  have hs := h.swap.neg_iff
  rw [← hs]
  omega

theorem Tells.zero_iff (h : Tells x y r) : r = 0 ↔ x = y := by
  constructor
  · intro hr
    cases h with
    | lt hlt => omega
    | eq _ h => exact h
    | gt hlt => omega
  · intro he
    subst he
    have h1 := h.neg_iff.not.mpr (List.lt_irrefl x)
    have h2 := h.pos_iff.not.mpr (List.lt_irrefl x)
    omega

end
end CppCores
