import Mathlib.Logic.Function.Basic
import Mathlib.Data.List.Basic
import Mathlib.Data.List.Nodup
import Mathlib.Tactic.Common

/-!
# Linked lists in memory

`Linked null next p l`: the nodes from `p` along `next` up to `null` are those of `l`.

* `Linked.unique`, `Linked.nodup`   the nodes are determined, and no node is there twice;
* `Linked.update`                   a write to any other place leaves the list alone;
* `Linked.push`, `Linked.pop`       a node is put in front and taken away;
* `Linked.follow`                   enough steps along `next` list the nodes.
-/

namespace CppCores
variable {α : Type*} {null : α} {next next' : α → α} {p q : α} {l l' : List α}

/-- the nodes from `p` on -/
inductive Linked (null : α) (next : α → α) : α → List α → Prop where
  | nil : Linked null next null []
  | cons {p : α} {l : List α} : p ≠ null → Linked null next (next p) l → Linked null next p (p :: l)

/-- at most `n` nodes from `p` on -/
def follow [DecidableEq α] (null : α) (next : α → α) : ℕ → α → List α
  | 0, _ => []
  | n + 1, p => if p = null then [] else p :: follow null next n (next p)

namespace Linked

theorem unique (h : Linked null next p l) (h' : Linked null next p l') : l = l' := by
  induction h generalizing l' with
  | nil =>
    cases h' with
    | nil => rfl
    | cons hne _ => exact absurd rfl hne
  | cons hne _ ih =>
    cases h' with
    | nil => exact absurd rfl hne
    | cons _ h' => rw [ih h']

theorem of_null (h : Linked null next null l) : l = [] := h.unique .nil

theorem suffix (h : Linked null next p l) (hq : q ∈ l) :
    ∃ l', Linked null next q l' ∧ l'.length ≤ l.length := by
  induction h with
  | nil => exact absurd hq List.not_mem_nil
  | @cons p l hne h ih =>
    obtain rfl | hq := List.mem_cons.mp hq
    · exact ⟨_, .cons hne h, Nat.le_refl _⟩
    · obtain ⟨l', hl', hle⟩ := ih hq
      exact ⟨l', hl', Nat.le_succ_of_le hle⟩

/-- a node met again would be followed by a list of another length -/
theorem nodup (h : Linked null next p l) : l.Nodup := by
  induction h with
  | nil => exact List.nodup_nil
  | @cons p l hne h ih =>
    refine List.nodup_cons.mpr ⟨fun hp => ?_, ih⟩
    obtain ⟨l', hl', hle⟩ := h.suffix hp
    obtain rfl := hl'.unique (.cons hne h)
    exact Nat.not_succ_le_self _ hle

theorem congr (h : Linked null next p l) (he : ∀ q ∈ l, next' q = next q) :
    Linked null next' p l := by
  induction h with
  | nil => exact .nil
  | @cons p l hne h ih =>
    obtain ⟨hp, hl⟩ := List.forall_mem_cons.mp he
    exact .cons hne (hp ▸ ih hl)

theorem pop (h : Linked null next p l) (hp : p ≠ null) :
    ∃ l', l = p :: l' ∧ Linked null next (next p) l' := by
  cases h with
  | nil => exact absurd rfl hp
  | cons _ h => exact ⟨_, rfl, h⟩

theorem head (h : Linked null next p (q :: l)) : p = q ∧ q ≠ null := by
  cases h with
  | cons hne _ => exact ⟨rfl, hne⟩

section
variable [DecidableEq α]

theorem update (h : Linked null next p l) (hq : q ∉ l) (v : α) :
    Linked null (Function.update next q v) p l := by
  refine h.congr fun r hr => Function.update_of_ne ?_ ..
  rintro rfl
  exact hq hr

theorem push (h : Linked null next p l) (hne : q ≠ null) (hq : q ∉ l) :
    Linked null (Function.update next q p) q (q :: l) := by
  refine .cons hne ?_
  rw [Function.update_self]
  exact h.update hq p

theorem follow (h : Linked null next p l) {n : ℕ} (hn : l.length ≤ n) :
    CppCores.follow null next n p = l := by
  induction n generalizing p l with
  | zero =>
    obtain rfl := List.eq_nil_of_length_eq_zero (Nat.le_zero.mp hn)
    rfl
  | succ n ih =>
    cases h with
    | nil => rw [CppCores.follow, if_pos rfl]
    | cons hne h => rw [CppCores.follow, if_neg hne, ih h (Nat.le_of_succ_le_succ hn)]

end

end Linked
end CppCores
