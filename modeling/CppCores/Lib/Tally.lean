import Mathlib.Algebra.BigOperators.Group.List.Basic
import Mathlib.Algebra.Order.BigOperators.Group.List
import Mathlib.Algebra.Order.Ring.Int
import Mathlib.Tactic.Common

/-!
# Tallies: sums by key

* `tally l k`        the sum of the values that the list `l` has for the key `k`;
* `tally_perm`       the order of the list does not matter;
* `sum_tally`        **the sums of all keys make up the sum of all values**;
* `tally_le_sum`     where no value is negative, no sum by key exceeds the sum of all values.
-/

namespace CppCores

section
variable {κ M : Type*} [DecidableEq κ] [AddCommMonoid M] {l l' : List (κ × M)}

/-- the sum of the values for the key `k` -/
def tally (l : List (κ × M)) (k : κ) : M := ((l.filter fun x => x.1 = k).map Prod.snd).sum

@[simp] theorem tally_nil (k : κ) : tally ([] : List (κ × M)) k = 0 := rfl

theorem tally_cons (x : κ × M) (l : List (κ × M)) (k : κ) :
    tally (x :: l) k = (if x.1 = k then x.2 else 0) + tally l k := by
  unfold tally
  by_cases h : x.1 = k
  · simp [h]
  · simp [h]

theorem tally_append (l l' : List (κ × M)) (k : κ) :
    tally (l ++ l') k = tally l k + tally l' k := by
  simp [tally]

theorem tally_perm (h : l.Perm l') (k : κ) : tally l k = tally l' k :=
  ((h.filter _).map _).sum_eq

theorem sum_map_ite (ks : List κ) (hks : ks.Nodup) {j : κ} (hj : j ∈ ks) (m : M) :
    (ks.map fun k => if j = k then m else 0).sum = m := by
  induction ks with
  | nil => cases hj
  | cons k ks ih =>
    obtain ⟨hk, hks⟩ := List.nodup_cons.mp hks
    rw [List.map_cons, List.sum_cons]
    by_cases h : j = k
    · subst h
      have hzero : ks.map (fun k => if j = k then m else 0) = ks.map fun _ => 0 := by
        apply List.map_congr_left
        intro i hmem
        exact if_neg fun he : j = i => hk (he ▸ hmem)
      rw [if_pos rfl, hzero]
      simp
    · have hmem := (List.mem_cons.mp hj).resolve_left h
      rw [if_neg h, zero_add, ih hks hmem]

/-- **The sums of all keys make up the sum of all values.** -/
theorem sum_tally {ks : List κ} (hks : ks.Nodup) (hall : ∀ x ∈ l, x.1 ∈ ks) :
    (ks.map (tally l)).sum = (l.map Prod.snd).sum := by
  induction l with
  | nil =>
    have hzero : ks.map (tally ([] : List (κ × M))) = ks.map fun _ => 0 := rfl
    rw [hzero]
    apply List.sum_eq_zero
    intro m hm
    obtain ⟨k, -, rfl⟩ := List.mem_map.mp hm
    rfl
  | cons x l ih =>
    have hx := hall x List.mem_cons_self
    have hl := ih fun y hy => hall y (List.mem_cons_of_mem x hy)
    have hcons : tally (x :: l) = fun k => (if x.1 = k then x.2 else 0) + tally l k := by
      funext k
      exact tally_cons x l k
    rw [List.map_cons, List.sum_cons, ← hl, hcons, List.sum_map_add, sum_map_ite ks hks hx]

end

section
variable {κ : Type*} [DecidableEq κ] {l : List (κ × ℤ)}

theorem tally_nonneg (h : ∀ x ∈ l, 0 ≤ x.2) (k : κ) : 0 ≤ tally l k := by
  apply List.sum_nonneg
  intro m hm
  obtain ⟨x, hx, rfl⟩ := List.mem_map.mp hm
  exact h x (List.mem_of_mem_filter hx)

theorem tally_le_sum (h : ∀ x ∈ l, 0 ≤ x.2) (k : κ) : tally l k ≤ (l.map Prod.snd).sum := by
  induction l with
  | nil => simp
  | cons x l ih =>
    have hx := h x List.mem_cons_self
    have hl := ih fun y hy => h y (List.mem_cons_of_mem x hy)
    rw [tally_cons, List.map_cons, List.sum_cons]
    split <;> omega

end
end CppCores
