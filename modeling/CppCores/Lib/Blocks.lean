import Mathlib.Data.List.Basic
import Mathlib.Tactic.Common

/-!
# Lists in blocks of one length

A list of blocks, all of `b` elements, stands for the list of their elements one after the other
(`List.flatten`).

* `patch l i xs`      `l` with the elements from position `i` on overwritten by `xs`;
* `patch_left`, `patch_right`, `patch_across`   overwriting a list that is in two parts;
* `writeAt l i a`     one element written, which fails behind the end; `writeAt_paddedTo` is filling a
                      list of a given length from its start;
* `Blocks.flatten_inj`  blocks of one length are given by their number and their elements.
-/

namespace CppCores

section
variable {α : Type*}

/-- `l` with `xs` written over it from position `i` on -/
def patch (l : List α) (i : ℕ) (xs : List α) : List α := l.take i ++ xs ++ l.drop (i + xs.length)

theorem length_patch {l xs : List α} {i : ℕ} (h : i + xs.length ≤ l.length) :
    (patch l i xs).length = l.length := by
  unfold patch
  simp only [List.length_append, List.length_take, List.length_drop]
  omega

theorem patch_nil (l : List α) (i : ℕ) : patch l i [] = l := by
  unfold patch
  simp

theorem patch_left {l xs : List α} {i : ℕ} (m : List α) (h : i + xs.length ≤ l.length) :
    patch (l ++ m) i xs = patch l i xs ++ m := by
  unfold patch
  rw [List.take_append_of_le_length (by omega), List.drop_append_of_le_length h]
  simp only [List.append_assoc]

theorem patch_right (l m xs : List α) (i : ℕ) :
    patch (l ++ m) (l.length + i) xs = l ++ patch m i xs := by
  unfold patch
  rw [Nat.add_assoc, List.take_length_add_append, List.drop_length_add_append]
  simp only [List.append_assoc]

/-- what is written fills the left part and goes on in the right one -/
theorem patch_across {l xs : List α} {i : ℕ} (m : List α) (hi : i ≤ l.length)
    (h : l.length - i ≤ xs.length) :
    patch (l ++ m) i xs =
      patch l i (xs.take (l.length - i)) ++ patch m 0 (xs.drop (l.length - i)) := by
  unfold patch
  have h1 : i + xs.length = l.length + (xs.length - (l.length - i)) := by omega
  have h2 : i + (xs.take (l.length - i)).length = l.length := by
    rw [List.length_take]
    omega
  rw [h1, List.drop_length_add_append, h2, List.drop_length, List.append_nil,
    List.take_append_of_le_length hi, List.take_zero, List.nil_append, Nat.zero_add,
    List.length_drop, List.append_assoc, List.append_assoc, ← List.append_assoc (xs.take _),
    List.take_append_drop]

/-- write the element with index `i`, which must be there -/
def writeAt (l : List α) (i : ℕ) (a : α) : Option (List α) :=
  if i < l.length then some (l.set i a) else none

/-- `ws` at the start of `n` elements, and `z` behind it -/
def paddedTo (n : ℕ) (z : α) (ws : List α) : List α := ws ++ List.replicate (n - ws.length) z

theorem length_paddedTo {n : ℕ} {ws : List α} (z : α) (h : ws.length ≤ n) :
    (paddedTo n z ws).length = n := by
  rw [paddedTo, List.length_append, List.length_replicate]
  omega

theorem writeAt_paddedTo {n : ℕ} {ws : List α} (h : ws.length < n) (z a : α) :
    writeAt (paddedTo n z ws) ws.length a = some (paddedTo n z (ws ++ [a])) := by
  have hr : n - ws.length = (n - (ws ++ [a]).length) + 1 := by
    rw [List.length_append, List.length_singleton]
    omega
  have hlt : ws.length < (paddedTo n z ws).length := by
    rwa [length_paddedTo z (Nat.le_of_lt h)]
  rw [writeAt, if_pos hlt, paddedTo, hr, List.replicate_succ, List.set_append_right _ _ (Nat.le_refl _),
    Nat.sub_self, List.set_cons_zero, paddedTo, List.append_assoc, List.singleton_append]

/-- all blocks have `b` elements -/
def Blocks (b : ℕ) (L : List (List α)) : Prop := ∀ x ∈ L, x.length = b

namespace Blocks
variable {b : ℕ} {L M : List (List α)}

theorem length_flatten (h : Blocks b L) : L.flatten.length = b * L.length := by
  induction L with
  | nil => rfl
  | cons x L ih =>
    rw [List.flatten_cons, List.length_append, h x List.mem_cons_self,
      ih fun y hy => h y (List.mem_cons_of_mem _ hy), List.length_cons, Nat.mul_succ, Nat.add_comm]

/-- **Blocks of one length are given by their elements.** -/
theorem flatten_inj (hL : Blocks b L) (hM : Blocks b M) (hlen : L.length = M.length)
    (h : L.flatten = M.flatten) : L = M := by
  induction L generalizing M with
  | nil => exact (List.length_eq_zero_iff.mp hlen.symm).symm
  | cons x L ih =>
    cases M with
    | nil => exact absurd hlen (Nat.succ_ne_zero _)
    | cons y M =>
      rw [List.flatten_cons, List.flatten_cons] at h
      have hxy : x.length = y.length := by
        rw [hL x List.mem_cons_self, hM y List.mem_cons_self]
      obtain ⟨h1, h2⟩ := List.append_inj h hxy
      rw [h1, ih (fun z hz => hL z (List.mem_cons_of_mem _ hz))
        (fun z hz => hM z (List.mem_cons_of_mem _ hz)) (Nat.succ.inj hlen) h2]

end Blocks
end
end CppCores
