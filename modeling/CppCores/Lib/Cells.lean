import Mathlib.Data.List.Basic
import Mathlib.Tactic.Common

/-!
# Cells: a memory that is written to block by block

A block is the address of its first cell and the values of its cells.  A write of a value outside of
the memory fails.

* `stores_spec`       what one block does to the memory;
* `last?`             the last value that a list of blocks has for a cell;
* `writes_isSome`     a list of blocks can be written iff each of them lies in the memory;
* `getElem?_writes`   **a cell holds the last value that was written to it, or what it held before;**
* `holds_writes_iff`  a block is read back iff those are the values of its cells;
* `holds_of_apart`    no block behind it touches it.
-/

namespace CppCores
namespace Cells
variable {α : Type*}

def store (mem : List α) (i : ℕ) (x : α) : Option (List α) :=
  if i < mem.length then some (mem.set i x) else none

/-- the values `xs` from the address `dst` on -/
def stores (mem : List α) (dst : ℕ) : List α → Option (List α)
  | [] => some mem
  | x :: xs => (store mem dst x).bind fun mem => stores mem (dst + 1) xs

abbrev Block (α : Type*) := ℕ × List α

/-- the value that a block has for a cell -/
def Block.at? (b : Block α) (a : ℕ) : Option α := if b.1 ≤ a then b.2[a - b.1]? else none

def Block.Within (n : ℕ) (b : Block α) : Prop := b.2 ≠ [] → b.1 + b.2.length ≤ n

def writes (mem : List α) (bs : List (Block α)) : Option (List α) :=
  bs.foldlM (fun mem b => stores mem b.1 b.2) mem

/-- the last value that the blocks have for a cell -/
def last? : List (Block α) → ℕ → Option α
  | [], _ => none
  | b :: bs, a => (last? bs a).or (b.at? a)

/-- the memory holds a block -/
def Holds (mem : List α) (b : Block α) : Prop := ∀ j < b.2.length, mem[b.1 + j]? = b.2[j]?

variable {mem mem' : List α} {b c : Block α} {bs : List (Block α)} {a j : ℕ}

/-! ## a block -/

theorem Block.at?_add (b : Block α) (j : ℕ) : b.at? (b.1 + j) = b.2[j]? := by
  rw [Block.at?, if_pos (Nat.le_add_right b.1 j), Nat.add_sub_cancel_left]

theorem Block.at?_ne_none_iff : b.at? a ≠ none ↔ b.1 ≤ a ∧ a < b.1 + b.2.length := by
  unfold Block.at?
  split
  · rename_i hle
    rw [Ne, List.getElem?_eq_none_iff]
    omega
  · rename_i hle
    exact ⟨fun h => absurd rfl h, fun h => absurd h.1 hle⟩

theorem Block.at?_nil (dst a : ℕ) : Block.at? ((dst, []) : Block α) a = none := by
  unfold Block.at?
  split <;> rfl

theorem Block.at?_cons (dst : ℕ) (x : α) (xs : List α) (a : ℕ) :
    Block.at? (dst, x :: xs) a = if a = dst then some x else Block.at? (dst + 1, xs) a := by
  unfold Block.at?
  dsimp only
  by_cases he : a = dst
  · rw [if_pos he, if_pos (Nat.le_of_eq he.symm), he, Nat.sub_self, List.getElem?_cons_zero]
  · rw [if_neg he]
    by_cases hle : dst ≤ a
    · have hsub : a - dst = (a - (dst + 1)) + 1 := by omega
      rw [if_pos hle, if_pos (by omega), hsub, List.getElem?_cons_succ]
    · rw [if_neg hle, if_neg (by omega)]

theorem holds_nil (mem : List α) (p : ℕ) : Holds mem (p, []) := nofun

theorem holds_cons {p : ℕ} {x : α} {xs : List α} :
    Holds mem (p, x :: xs) ↔ mem[p]? = some x ∧ Holds mem (p + 1, xs) := by
  constructor
  · intro h
    refine ⟨h 0 (Nat.succ_pos _), fun j hj => ?_⟩
    have hj' := h (j + 1) (Nat.succ_lt_succ hj)
    rw [List.getElem?_cons_succ] at hj'
    rw [← hj', Nat.add_assoc, Nat.add_comm 1 j]
  · intro ⟨h0, h⟩ j hj
    cases j with
    | zero => exact h0
    | succ j =>
      have hj' := h j (Nat.lt_of_succ_lt_succ hj)
      rw [List.getElem?_cons_succ, ← hj', Nat.add_assoc, Nat.add_comm 1 j]

/-! ## one write -/

/-- **What a block does to the memory.** -/
theorem stores_spec {dst : ℕ} {xs : List α} (h : stores mem dst xs = some mem') :
    mem'.length = mem.length ∧ ∀ a, mem'[a]? = (Block.at? (dst, xs) a).or mem[a]? := by
  induction xs generalizing mem dst with
  | nil =>
    obtain rfl := Option.some.inj h
    refine ⟨rfl, fun a => ?_⟩
    rw [Block.at?_nil, Option.none_or]
  | cons x xs ih =>
    rw [stores, store] at h
    split at h
    · rename_i hlt
      obtain ⟨hlen, hget⟩ := ih h
      refine ⟨by rw [hlen, List.length_set], fun a => ?_⟩
      rw [hget a, Block.at?_cons]
      split
      · rename_i he
        have hnone : Block.at? (dst + 1, xs) a = none := by
          rw [Block.at?, if_neg (by omega)]
        rw [hnone, Option.none_or, he, List.getElem?_set_self hlt, Option.some_or]
      · rename_i hne
        rw [List.getElem?_set_ne fun he => hne he.symm]
    · cases h

theorem stores_isSome {dst : ℕ} {xs : List α} :
    (stores mem dst xs).isSome ↔ Block.Within mem.length (dst, xs) := by
  induction xs generalizing mem dst with
  | nil => exact iff_of_true rfl fun h => absurd rfl h
  | cons x xs ih =>
    have hw : Block.Within mem.length (dst, x :: xs) ↔ dst + (xs.length + 1) ≤ mem.length :=
      ⟨fun h => h (List.cons_ne_nil x xs), fun h _ => h⟩
    rw [hw, stores, store]
    split
    · rename_i hlt
      rw [Option.bind_some, ih, List.length_set]
      constructor
      · intro h
        cases xs with
        | nil => exact hlt
        | cons y ys =>
          have hys : dst + 1 + (ys.length + 1) ≤ mem.length := h (List.cons_ne_nil y ys)
          rw [List.length_cons]
          omega
      · intro h hne
        have hgoal : dst + 1 + xs.length ≤ mem.length := by omega
        exact hgoal
    · rename_i hlt
      exact iff_of_false Bool.false_ne_true (by omega)

/-! ## many writes -/

/-- **A list of blocks can be written iff each of them lies in the memory.** -/
theorem writes_isSome : (writes mem bs).isSome ↔ ∀ b ∈ bs, b.Within mem.length := by
  induction bs generalizing mem with
  | nil => exact iff_of_true rfl nofun
  | cons b bs ih =>
    rw [writes, List.foldlM_cons, List.forall_mem_cons, ← stores_isSome]
    cases hs : stores mem b.1 b.2 with
    | none => exact iff_of_false Bool.false_ne_true fun h => Bool.false_ne_true h.1
    | some mem' =>
      have hlen := (stores_spec hs).1
      rw [← hlen, ← ih]
      exact ⟨fun h => ⟨rfl, h⟩, And.right⟩

/-- **A cell holds the last value that was written to it, or what it held before.** -/
theorem getElem?_writes (h : writes mem bs = some mem') :
    mem'.length = mem.length ∧ ∀ a, mem'[a]? = (last? bs a).or mem[a]? := by
  induction bs generalizing mem with
  | nil =>
    obtain rfl := Option.some.inj h
    exact ⟨rfl, fun _ => rfl⟩
  | cons b bs ih =>
    rw [writes, List.foldlM_cons] at h
    obtain ⟨mid, hs, hw⟩ := Option.bind_eq_some_iff.mp h
    obtain ⟨hlen, hget⟩ := ih hw
    obtain ⟨hlen', hget'⟩ := stores_spec hs
    refine ⟨hlen.trans hlen', fun a => ?_⟩
    rw [hget a, hget' a, last?, Option.or_assoc]

/-- a block is read back iff its values are the last ones -/
theorem holds_writes_iff (h : writes mem bs = some mem') (b : Block α) :
    Holds mem' b ↔ ∀ j < b.2.length, (last? bs (b.1 + j)).or mem[b.1 + j]? = b.2[j]? := by
  have hget := (getElem?_writes h).2
  simp only [Holds, hget]

/-- two blocks without a common cell -/
def Block.Apart (b c : Block α) : Prop := b.1 + b.2.length ≤ c.1 ∨ c.1 + c.2.length ≤ b.1

theorem last?_append (bs cs : List (Block α)) (a : ℕ) :
    last? (bs ++ cs) a = (last? cs a).or (last? bs a) := by
  induction bs with
  | nil => rw [List.nil_append, last?, Option.or_none]
  | cons b bs ih => rw [List.cons_append, last?, ih, last?, Option.or_assoc]

theorem last?_eq_none (h : ∀ b ∈ bs, b.at? a = none) : last? bs a = none := by
  induction bs with
  | nil => rfl
  | cons b bs ih =>
    rw [last?, ih fun c hc => h c (List.mem_cons_of_mem b hc), h b List.mem_cons_self, Option.none_or]

/-- **A block is read back if no block behind it touches it.** -/
theorem holds_of_apart {pre post : List (Block α)} (h : writes mem (pre ++ b :: post) = some mem')
    (hpost : ∀ c ∈ post, b.Apart c) : Holds mem' b := by
  apply (holds_writes_iff h b).mpr
  intro j hj
  have hnone : last? post (b.1 + j) = none := by
    apply last?_eq_none
    intro c hc
    apply not_not.mp
    intro hne
    have hin := Block.at?_ne_none_iff.mp hne
    rcases hpost c hc with ha | ha <;> omega
  rw [last?_append, last?, hnone, Option.none_or, Block.at?_add, List.getElem?_eq_getElem hj,
    Option.some_or, Option.some_or]

end Cells
end CppCores
