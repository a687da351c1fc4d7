import Mathlib.Algebra.BigOperators.Group.List.Basic
import Mathlib.Algebra.Ring.Nat
import Mathlib.Tactic.Common
import CppCores.Utils.MemoryPoolLite.Impl

/-!
# MemoryPoolLiteImpl: what a pool uses

A request that does not fit leaves the tail of the block behind; the tail is smaller than the request
then, so what is left behind is less than what was asked for.

* `Accounts`        `memory_`, the blocks, the requests and the tail;
* `usage_reach`     **the memory of a pool is counted exactly, and is at most twice what was requested and
                    the tail, over every sequence of requests.**
-/

namespace CppCores
namespace MemoryPoolLite
open Machine Region

def total (l : List Region) : ℕ := (l.map Region.size).sum

@[simp] theorem total_cons (r : Region) (l : List Region) : total (r :: l) = r.size + total l :=
  List.sum_cons

@[simp] theorem total_concat (l : List Region) (r : Region) : total (l ++ [r]) = total l + r.size := by
  rw [total, List.map_append, List.sum_append]
  exact congrArg (_ + ·) (Nat.add_zero _)

theorem mul_length_le_total {l : List Region} {n : ℕ} (h : ∀ b ∈ l, n ≤ b.size) :
    n * l.length ≤ total l := by
  induction l with
  | nil => exact Nat.le_refl 0
  | cons r l ih =>
    have hr := h r List.mem_cons_self
    have hl := ih fun b hb => h b (List.mem_cons_of_mem r hb)
    rw [total_cons, List.length_cons, Nat.mul_succ]
    omega

/-- what the counters of a pool say -/
structure Accounts (sizeofThis : ℕ) (s : State) : Prop where
  memory : s.pool.memory_ = sizeofThis + total s.pool.blocks_
  served : total s.handed + s.pool.left_ ≤ total s.pool.blocks_
  spent : total s.pool.blocks_ ≤ 2 * total s.handed + s.pool.left_
  left : s.pool.left_ ≤ DefaultBlockSize
  sizes : ∀ b ∈ s.pool.blocks_, DefaultBlockSize ≤ b.size

theorem accounts_init (sizeofThis : ℕ) : Accounts sizeofThis (machine sizeofThis).init :=
  ⟨rfl, Nat.le_refl 0, Nat.le_refl 0, Nat.zero_le _, nofun⟩

theorem Accounts.sizes_append {sizeofThis : ℕ} {s : State} (ha : Accounts sizeofThis s) {B : Region}
    (hB : DefaultBlockSize ≤ B.size) : ∀ b ∈ s.pool.blocks_ ++ [B], DefaultBlockSize ≤ b.size := by
  intro b hb
  rcases List.mem_append.mp hb with hb | hb
  · exact ha.sizes b hb
  · rw [List.mem_singleton.mp hb]
    exact hB

theorem Inv.left_eq_zero {s : State} (hi : Inv s) (h : s.pool.ptr_ = 0) : s.pool.left_ = 0 := by
  rcases hi.tail with ⟨-, h0⟩ | ⟨b, hb, hin⟩
  · exact h0
  · have hle : b.base ≤ s.pool.ptr_ := hin.1
    exact absurd (Nat.eq_zero_of_le_zero (h ▸ hle)) (hi.nonnull b hb)

/-- **A request is paid for by itself and by the tail.** -/
theorem accounts_step {sizeofThis : ℕ} {s s' : State} {c : Call} (hi : Inv s)
    (ha : Accounts sizeofThis s) (hst : (machine sizeofThis).step s c = some s') :
    Accounts sizeofThis s' := by
  obtain ⟨⟨ret, pool⟩, hnew, rfl⟩ := Option.map_eq_some_iff.mp hst
  have hsizes := fun B => ha.sizes_append (B := B)
  obtain ⟨hmem, hserved, hspent, hleft, hold⟩ := ha
  cases step_cases hnew with
  | fits hfit _ =>
    refine ⟨hmem, ?_, ?_, ?_, hold⟩
    · rw [total_cons]
      show c.size + total s.handed + (s.pool.left_ - c.size) ≤ total s.pool.blocks_
      omega
    · rw [total_cons]
      show total s.pool.blocks_ ≤ 2 * (c.size + total s.handed) + (s.pool.left_ - c.size)
      omega
    · exact Nat.le_trans (Nat.sub_le _ _) hleft
  | block n hn hnull hlt _ =>
    have hn : s.pool.left_ ≤ n ∧ n = c.size := by
      by_cases hfit : c.size ≤ s.pool.left_
      · have h0 := hi.left_eq_zero (hnull hfit)
        rw [if_pos hfit] at hn
        omega
      · rw [if_neg hfit] at hn
        omega
    refine ⟨?_, ?_, ?_, Nat.sub_le _ _, hsizes _ (Nat.le_refl DefaultBlockSize)⟩
    · show s.pool.memory_ + DefaultBlockSize = _
      rw [total_concat, hmem]
      exact Nat.add_assoc _ _ _
    · rw [total_concat, total_cons]
      show c.size + total s.handed + (DefaultBlockSize - n) ≤
        total s.pool.blocks_ + DefaultBlockSize
      omega
    · rw [total_concat, total_cons]
      show total s.pool.blocks_ + DefaultBlockSize ≤
        2 * (c.size + total s.handed) + (DefaultBlockSize - n)
      omega
  | whole _ hge _ =>
    refine ⟨?_, ?_, ?_, hleft, hsizes _ hge⟩
    · show s.pool.memory_ + c.size = _
      rw [total_concat, hmem]
      exact Nat.add_assoc _ _ _
    · rw [total_concat, total_cons]
      show c.size + total s.handed + s.pool.left_ ≤ total s.pool.blocks_ + c.size
      omega
    · rw [total_concat, total_cons]
      show total s.pool.blocks_ + c.size ≤ 2 * (c.size + total s.handed) + s.pool.left_
      omega

/-- **What a pool uses**: the blocks are counted once each, none is smaller than `DefaultBlockSize`, they
hold what was requested and the tail, and what has been left behind in them is no more than what was
requested. -/
theorem usage_reach {sizeofThis : ℕ} {s : State} (h : (machine sizeofThis).Reachable s)
    (sizeofPtr : ℕ) :
    s.pool.PoolUsage sizeofPtr =
        sizeofThis + total s.pool.blocks_ + s.pool.blocks_.length * sizeofPtr ∧
      total s.handed + s.pool.left_ ≤ total s.pool.blocks_ ∧
      total s.pool.blocks_ ≤ 2 * total s.handed + s.pool.left_ ∧
      s.pool.left_ ≤ DefaultBlockSize ∧
      (∀ b ∈ s.pool.blocks_, DefaultBlockSize ≤ b.size) ∧
      DefaultBlockSize * s.pool.blocks_.length ≤ total s.pool.blocks_ := by
  have hr : ∀ s, (machine sizeofThis).Reachable s → Inv s := fun s h =>
    h.inv (inv_init sizeofThis) fun _ _ _ hi _ hst => inv_step sizeofThis hi hst
  have ha := h.inv_with hr (accounts_init sizeofThis) fun _ _ _ hi ha _ hst =>
    accounts_step hi ha hst
  refine ⟨?_, ha.served, ha.spent, ha.left, ha.sizes, mul_length_le_total ha.sizes⟩
  rw [MemoryPoolLiteImpl.PoolUsage, ha.memory]

/-- three requests, of which the second leaves almost a half of a block behind -/
theorem usage_reach_three : ∃ s, (machine 40).Reachable s ∧ total s.pool.blocks_ = 201072 ∧
    total s.handed = 150000 ∧
    s.pool.PoolUsage 8 = 40 + total s.pool.blocks_ + s.pool.blocks_.length * 8 ∧
      total s.handed + s.pool.left_ ≤ total s.pool.blocks_ ∧
      total s.pool.blocks_ ≤ 2 * total s.handed + s.pool.left_ ∧
      s.pool.left_ ≤ DefaultBlockSize ∧
      (∀ b ∈ s.pool.blocks_, DefaultBlockSize ≤ b.size) ∧
      DefaultBlockSize * s.pool.blocks_.length ≤ total s.pool.blocks_ := by
  have h : ((machine 40).exec (machine 40).init
      [⟨40000, 1000⟩, ⟨40000, 100000⟩, ⟨70000, 200000⟩]).map
        (fun s => (total s.pool.blocks_, total s.handed)) = some (201072, 150000) := by decide
  obtain ⟨s, hs, hv⟩ := Option.map_eq_some_iff.mp h
  obtain ⟨h1, h2⟩ := Prod.mk.inj hv
  have hr : (machine 40).Reachable s := Reach.of_exec _ .init hs
  exact ⟨s, hr, h1, h2, usage_reach hr 8⟩

end MemoryPoolLite
end CppCores
