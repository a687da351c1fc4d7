import CppCores.Lib.Search

/-!
# Substitution in a list

`substituted f w s` is `s`, read from the left, with `w` for each occurrence of `f` that does not
overlap the one before.  What was put in is not read again.

* `substituted_of_none`    without an occurrence nothing changes;
* `substituted_of_find`    up to the first occurrence nothing changes, behind it the substitution goes on;
* `substituted_singleton`  for one element it is a substitution element by element.
-/

namespace CppCores

section
variable {α : Type*} [DecidableEq α] {f w s : List α}

/-- `s` from the left, with `w` for each occurrence of `f` -/
def substituted (f w : List α) : List α → List α
  | [] => []
  | a :: s =>
    if f <+: a :: s then w ++ substituted f w (s.drop (f.length - 1))
    else a :: substituted f w s
termination_by s => s.length
decreasing_by
  · rw [List.length_drop, List.length_cons]
    omega
  · exact Nat.lt_succ_self _

theorem substituted_front (hf : f ≠ []) (b : List α) :
    substituted f w (f ++ b) = w ++ substituted f w b := by
  cases f with
  | nil => exact absurd rfl hf
  | cons c f =>
    have hpre : c :: f <+: c :: (f ++ b) := List.prefix_append (c :: f) b
    rw [List.cons_append, substituted, if_pos hpre, List.length_cons, Nat.add_sub_cancel,
      List.drop_left]

theorem substituted_cons_of_not {a : α} (h : ¬ Occurs f (a :: s) 0) :
    substituted f w (a :: s) = a :: substituted f w s := by
  rw [substituted, if_neg fun hp => h (occurs_zero.mpr hp)]

omit [DecidableEq α] in
theorem occurs_cons {a : α} {i : ℕ} : Occurs f (a :: s) (i + 1) ↔ Occurs f s i := by
  rw [Nat.add_comm i 1]
  exact occurs_append (s := [a]) s

theorem substituted_of_none (h : ∀ i, ¬ Occurs f s i) : substituted f w s = s := by
  induction s with
  | nil => rw [substituted]
  | cons a s ih => rw [substituted_cons_of_not (h 0), ih fun i hi => h (i + 1) (occurs_cons.mpr hi)]

theorem substituted_append (hf : f ≠ []) (a b : List α)
    (h : ∀ j < a.length, ¬ Occurs f (a ++ (f ++ b)) j) :
    substituted f w (a ++ (f ++ b)) = a ++ (w ++ substituted f w b) := by
  induction a with
  | nil => exact substituted_front hf b
  | cons x a ih =>
    have hrest : ∀ j < a.length, ¬ Occurs f (a ++ (f ++ b)) j := fun j hj ho =>
      h (j + 1) (Nat.succ_lt_succ hj) (occurs_cons.mpr ho)
    have hnot : ¬ Occurs f (x :: (a ++ (f ++ b))) 0 := h 0 (Nat.succ_pos _)
    rw [List.cons_append, substituted_cons_of_not hnot, ih hrest, List.cons_append]

/-- **The first occurrence is replaced, and the substitution goes on behind it.** -/
theorem substituted_of_find (hf : f ≠ []) {i : ℕ} (h : findFrom f s 0 = some i) :
    ∃ a b, s = a ++ (f ++ b) ∧ a.length = i ∧
      substituted f w s = a ++ (w ++ substituted f w b) := by
  have hlow := lowest_findFrom f s 0
  rw [h] at hlow
  obtain ⟨a, b, rfl, ha⟩ := occurs_iff_append.mp hlow.1.2
  refine ⟨a, b, rfl, ha, substituted_append hf a b fun j hj ho => ?_⟩
  have hle := hlow.2 ⟨Nat.zero_le j, ho⟩
  omega

/-- **One element is replaced wherever it is.** -/
theorem substituted_singleton (c : α) (w s : List α) :
    substituted [c] w s = s.flatMap fun x => if x = c then w else [x] := by
  induction s with
  | nil => rw [substituted, List.flatMap_nil]
  | cons x s ih =>
    rw [List.flatMap_cons, ← ih]
    by_cases hx : x = c
    · rw [if_pos hx, hx]
      exact substituted_front (List.cons_ne_nil c []) s
    · rw [if_neg hx]
      refine substituted_cons_of_not fun ho => hx ?_
      exact Option.some.inj (occurs_singleton.mp ho)

end
end CppCores
