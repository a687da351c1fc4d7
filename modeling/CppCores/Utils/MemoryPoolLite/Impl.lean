import CppCores.Lib.Machine
import CppCores.Lib.Regions

/-!
# MemoryPoolLiteImpl: the bump allocator of `utils/memory_pool_lite.h`

`New` cuts a request from the free tail of a block or asks `operator new[]` for a block.  What
`operator new[]` returns is in the label of a step: a block that is not null and apart from the
blocks the pool has (it frees none before its end).  A call in which it throws changes nothing and is
no step.  Addresses are natural numbers, a block ends below `2 ^ 64`.

* `Inv s`              the blocks are apart, the free tail lies in one of them (or is empty and null),
                       what was handed out lies in the blocks and is apart from each other and from the
                       tail;
* `regions_disjoint`   **it holds in every state reached.**
-/

namespace CppCores
namespace MemoryPoolLite
open Machine Region

/-! ## the code -/

def DefaultBlockSize : ℕ := 64 * 1024

/-- the pool; `blocks_` keeps the size of each block with its address -/
structure MemoryPoolLiteImpl where
  blocks_ : List Region
  ptr_ : ℕ
  left_ : ℕ
  memory_ : ℕ
  deriving DecidableEq, Repr

namespace MemoryPoolLiteImpl

/-- the constructor; `sizeofThis` is `sizeof(*this)` -/
def new (sizeofThis : ℕ) : MemoryPoolLiteImpl where
  blocks_ := []
  ptr_ := 0
  left_ := 0
  memory_ := sizeofThis

/-- what `operator new[]` may return -/
def Fresh (s : MemoryPoolLiteImpl) (block : Region) : Prop :=
  block.base ≠ 0 ∧ ∀ b ∈ s.blocks_, Apart block b

instance (s : MemoryPoolLiteImpl) (block : Region) : Decidable (s.Fresh block) :=
  inferInstanceAs (Decidable (_ ∧ _))

/-- `NewBlock`, where `operator new[]` returns `block` -/
def NewBlock (s : MemoryPoolLiteImpl) (block_size block : ℕ) : Option (ℕ × MemoryPoolLiteImpl) :=
  let allocate_size := max block_size DefaultBlockSize
  if s.Fresh ⟨block, allocate_size⟩ then
    let s := { s with
      blocks_ := s.blocks_ ++ [⟨block, allocate_size⟩]
      memory_ := s.memory_ + allocate_size }
    if allocate_size > block_size then
      some (block, { s with ptr_ := block + block_size, left_ := allocate_size - block_size })
    else some (block, s)
  else none

/-- `New` -/
def New (s : MemoryPoolLiteImpl) (size block : ℕ) : Option (ℕ × MemoryPoolLiteImpl) :=
  if s.left_ ≥ size then
    let s := { s with left_ := s.left_ - size }
    if s.ptr_ = 0 then s.NewBlock 0 block
    else some (s.ptr_, { s with ptr_ := s.ptr_ + size })
  else s.NewBlock size block

/-- `sizeofPtr` is `sizeof(blocks_.front())` -/
def PoolUsage (s : MemoryPoolLiteImpl) (sizeofPtr : ℕ) : ℕ :=
  s.memory_ + s.blocks_.length * sizeofPtr

/-- the free tail of the current block -/
def tail (s : MemoryPoolLiteImpl) : Region := ⟨s.ptr_, s.left_⟩

end MemoryPoolLiteImpl

/-! ## the runs -/

/-- the pool and the regions it has handed out, the latest first -/
structure State where
  pool : MemoryPoolLiteImpl
  handed : List Region
  deriving DecidableEq, Repr

/-- `New(size)`, with the block `operator new[]` returns if it is asked -/
structure Call where
  size : ℕ
  block : ℕ
  deriving DecidableEq, Repr

def machine (sizeofThis : ℕ) : Machine State Call where
  init := ⟨.new sizeofThis, []⟩
  step := fun s c => (s.pool.New c.size c.block).map fun r =>
    { pool := r.2, handed := ⟨r.1, c.size⟩ :: s.handed }

/-! ## the invariant -/

structure Inv (s : State) : Prop where
  nonnull : ∀ b ∈ s.pool.blocks_, b.base ≠ 0
  blocks : s.pool.blocks_.Pairwise Apart
  tail : s.pool.ptr_ = 0 ∧ s.pool.left_ = 0 ∨ ∃ b ∈ s.pool.blocks_, s.pool.tail.Within b
  handed : ∀ r ∈ s.handed, 0 < r.size → ∃ b ∈ s.pool.blocks_, r.Within b
  pairwise : s.handed.Pairwise Apart
  free : ∀ r ∈ s.handed, Apart s.pool.tail r

theorem inv_init (sizeofThis : ℕ) : Inv (machine sizeofThis).init where
  nonnull := by simp [machine, MemoryPoolLiteImpl.new]
  blocks := .nil
  tail := .inl ⟨rfl, rfl⟩
  handed := by simp [machine]
  pairwise := .nil
  free := by simp [machine]

/-- the ways a call to `New` can go -/
inductive Step (s : MemoryPoolLiteImpl) (size block : ℕ) : ℕ → MemoryPoolLiteImpl → Prop where
  /-- the request fits the tail -/
  | fits : size ≤ s.left_ → s.ptr_ ≠ 0 →
      Step s size block s.ptr_ { s with left_ := s.left_ - size, ptr_ := s.ptr_ + size }
  /-- a new block, whose rest is the tail -/
  | block (n : ℕ) : n = (if size ≤ s.left_ then 0 else size) → (size ≤ s.left_ → s.ptr_ = 0) →
      n < DefaultBlockSize → s.Fresh ⟨block, DefaultBlockSize⟩ →
      Step s size block block { s with
        blocks_ := s.blocks_ ++ [⟨block, DefaultBlockSize⟩]
        memory_ := s.memory_ + DefaultBlockSize
        ptr_ := block + n, left_ := DefaultBlockSize - n }
  /-- a new block of the size of the request; the tail stays -/
  | whole : s.left_ < size → DefaultBlockSize ≤ size → s.Fresh ⟨block, size⟩ →
      Step s size block block { s with
        blocks_ := s.blocks_ ++ [⟨block, size⟩], memory_ := s.memory_ + size }

theorem step_cases {s s' : MemoryPoolLiteImpl} {size block ret : ℕ}
    (h : s.New size block = some (ret, s')) : Step s size block ret s' := by
  rw [MemoryPoolLiteImpl.New] at h
  split at h
  · rename_i hfit
    dsimp only at h
    split at h
    · -- only a null pointer leads here
      rename_i hptr
      obtain ⟨hf, h⟩ := Option.ite_none_right_eq_some.mp h
      have hn : 0 = if size ≤ s.left_ then 0 else size := by rw [if_pos hfit]
      obtain ⟨rfl, rfl⟩ := h
      exact .block 0 hn (fun _ => hptr) (by decide) hf
    · rename_i hptr
      obtain ⟨rfl, rfl⟩ := h
      exact .fits hfit hptr
  · rename_i hfit
    obtain ⟨hf, h⟩ := Option.ite_none_right_eq_some.mp h
    have hn : size = if size ≤ s.left_ then 0 else size := by rw [if_neg hfit]
    rcases Nat.lt_or_ge size DefaultBlockSize with hlt | hge
    · rw [Nat.max_eq_right (Nat.le_of_lt hlt)] at h hf
      rw [if_pos hlt] at h
      obtain ⟨rfl, rfl⟩ := h
      exact .block size hn (fun h0 => absurd h0 hfit) hlt hf
    · rw [Nat.max_eq_left hge] at h hf
      rw [if_neg (Nat.lt_irrefl size)] at h
      obtain ⟨rfl, rfl⟩ := h
      exact .whole (by omega) hge hf

namespace Inv
variable {s : State}

/-- a null pointer means an empty tail -/
theorem left_of_null (h : Inv s) (h0 : s.pool.ptr_ = 0) : s.pool.left_ = 0 := by
  rcases h.tail with h1 | ⟨b, hb, hin⟩
  · exact h1.2
  · have := h.nonnull b hb
    have hle : b.base ≤ s.pool.ptr_ := hin.1
    omega

theorem fresh_handed (h : Inv s) {B : Region} (hB : s.pool.Fresh B) : ∀ r ∈ s.handed, Apart B r := by
  intro r hr
  rcases Nat.eq_zero_or_pos r.size with h0 | hpos
  · exact (apart_of_empty h0 B).symm
  · obtain ⟨b, hb, hin⟩ := h.handed r hr hpos
    exact (hB.2 b hb).within (.refl B) hin

theorem fresh_tail (h : Inv s) {B : Region} (hB : s.pool.Fresh B) : Apart B s.pool.tail := by
  rcases h.tail with h0 | ⟨b, hb, hin⟩
  · exact (apart_of_empty (r := s.pool.tail) h0.2 B).symm
  · exact (hB.2 b hb).within (.refl B) hin

theorem blocks_append (h : Inv s) {B : Region} (hB : s.pool.Fresh B) :
    (s.pool.blocks_ ++ [B]).Pairwise Apart ∧ ∀ b ∈ s.pool.blocks_ ++ [B], b.base ≠ 0 := by
  constructor
  · rw [List.pairwise_append]
    refine ⟨h.blocks, List.pairwise_singleton _ B, ?_⟩
    intro b hb c hc
    rw [List.mem_singleton.mp hc]
    exact (hB.2 b hb).symm
  · intro b hb
    rcases List.mem_append.mp hb with hb | hb
    · exact h.nonnull b hb
    · rw [List.mem_singleton.mp hb]
      exact hB.1

theorem handed_append (h : Inv s) (B : Region) :
    ∀ r ∈ s.handed, 0 < r.size → ∃ b ∈ s.pool.blocks_ ++ [B], r.Within b := by
  intro r hr hpos
  obtain ⟨b, hb, hin⟩ := h.handed r hr hpos
  exact ⟨b, List.mem_append_left _ hb, hin⟩

end Inv

theorem inv_step {s : State} {c : Call} {s' : State} (sizeofThis : ℕ) (hi : Inv s)
    (h : (machine sizeofThis).step s c = some s') : Inv s' := by
  obtain ⟨⟨ret, pool⟩, hr, rfl⟩ := Option.map_eq_some_iff.mp h
  obtain ⟨size, block⟩ := c
  have hst := step_cases hr
  cases hst with
  | fits hfit hptr =>
    have hfit : size ≤ s.pool.left_ := hfit
    have hin : Within ⟨s.pool.ptr_, size⟩ s.pool.tail := ⟨Nat.le_refl _, Nat.add_le_add_left hfit _⟩
    have hrest : Within ⟨s.pool.ptr_ + size, s.pool.left_ - size⟩ s.pool.tail := by
      refine ⟨Nat.le_add_right _ _, ?_⟩
      show s.pool.ptr_ + size + (s.pool.left_ - size) ≤ s.pool.ptr_ + s.pool.left_
      omega
    obtain ⟨b, hb, htail⟩ := hi.tail.resolve_left fun h0 => hptr h0.1
    exact {
      nonnull := hi.nonnull
      blocks := hi.blocks
      tail := .inr ⟨b, hb, hrest.trans htail⟩
      handed := List.forall_mem_cons.mpr ⟨fun _ => ⟨b, hb, hin.trans htail⟩, hi.handed⟩
      pairwise := List.pairwise_cons.mpr
        ⟨fun q hq => (hi.free q hq).within hin (.refl q), hi.pairwise⟩
      free := List.forall_mem_cons.mpr
        ⟨(apart_split _ _ _).symm, fun q hq => (hi.free q hq).within hrest (.refl q)⟩ }
  | block n hn hptr hlt hf =>
    obtain rfl : n = size := by
      by_cases hfit : size ≤ s.pool.left_
      · have := hi.left_of_null (hptr hfit)
        rw [if_pos hfit] at hn
        omega
      · rwa [if_neg hfit] at hn
    have hin : Within ⟨block, n⟩ ⟨block, DefaultBlockSize⟩ :=
      ⟨Nat.le_refl _, Nat.add_le_add_left (Nat.le_of_lt hlt) _⟩
    have hrest : Within ⟨block + n, DefaultBlockSize - n⟩ ⟨block, DefaultBlockSize⟩ := by
      refine ⟨Nat.le_add_right _ _, ?_⟩
      show block + n + (DefaultBlockSize - n) ≤ block + DefaultBlockSize
      omega
    have hB := List.mem_append_right s.pool.blocks_ (List.mem_singleton_self
      (⟨block, DefaultBlockSize⟩ : Region))
    obtain ⟨hblocks, hnonnull⟩ := hi.blocks_append hf
    have hold := hi.fresh_handed hf
    exact {
      nonnull := hnonnull
      blocks := hblocks
      tail := .inr ⟨_, hB, hrest⟩
      handed := List.forall_mem_cons.mpr ⟨fun _ => ⟨_, hB, hin⟩, hi.handed_append _⟩
      pairwise := List.pairwise_cons.mpr
        ⟨fun q hq => (hold q hq).within hin (.refl q), hi.pairwise⟩
      free := List.forall_mem_cons.mpr
        ⟨(apart_split _ _ _).symm, fun q hq => (hold q hq).within hrest (.refl q)⟩ }
  | whole hfit hge hf =>
    have hB := List.mem_append_right s.pool.blocks_ (List.mem_singleton_self
      (⟨block, size⟩ : Region))
    obtain ⟨hblocks, hnonnull⟩ := hi.blocks_append hf
    exact {
      nonnull := hnonnull
      blocks := hblocks
      tail := hi.tail.imp_right fun ⟨b, hb, hin⟩ => ⟨b, List.mem_append_left _ hb, hin⟩
      handed := List.forall_mem_cons.mpr ⟨fun _ => ⟨_, hB, .refl _⟩, hi.handed_append _⟩
      pairwise := List.pairwise_cons.mpr ⟨hi.fresh_handed hf, hi.pairwise⟩
      free := List.forall_mem_cons.mpr ⟨(hi.fresh_tail hf).symm, hi.free⟩ }

/-- **The regions handed out lie in the blocks and are apart.** -/
theorem regions_disjoint {sizeofThis : ℕ} {s : State} (h : (machine sizeofThis).Reachable s) :
    (∀ r ∈ s.handed, 0 < r.size → ∃ b ∈ s.pool.blocks_, r.Within b) ∧ s.handed.Pairwise Apart ∧
      (s.pool.ptr_ = 0 ∧ s.pool.left_ = 0 ∨ ∃ b ∈ s.pool.blocks_, s.pool.tail.Within b) ∧
      ∀ r ∈ s.handed, Apart s.pool.tail r := by
  have hi := h.inv (inv_init sizeofThis) fun _ _ _ hi _ hst => inv_step sizeofThis hi hst
  exact ⟨hi.handed, hi.pairwise, hi.tail, hi.free⟩

/-- a new block, an empty request, a request of more than a block, a request that fits -/
theorem regions_disjoint_four : ∃ s, (machine 40).Reachable s ∧
    s.handed = [⟨1010, 20⟩, ⟨200000, 70000⟩, ⟨1010, 0⟩, ⟨1000, 10⟩] ∧ s.handed.Pairwise Apart := by
  have h : ((machine 40).exec (machine 40).init
      [⟨10, 1000⟩, ⟨0, 0⟩, ⟨70000, 200000⟩, ⟨20, 0⟩]).map State.handed =
      some [⟨1010, 20⟩, ⟨200000, 70000⟩, ⟨1010, 0⟩, ⟨1000, 10⟩] := by decide
  obtain ⟨s, hs, e⟩ := Option.map_eq_some_iff.mp h
  have hr : (machine 40).Reachable s := Reach.of_exec _ .init hs
  exact ⟨s, hr, e, (regions_disjoint hr).2.1⟩

end MemoryPoolLite
end CppCores
