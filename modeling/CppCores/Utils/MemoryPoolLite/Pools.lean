import CppCores.Lib.Shares
import CppCores.Utils.MemoryPoolLite.Slots
import Mathlib.Data.List.Pairwise

/-!
# MemoryPoolLiteAllocator: pools that are kept apart

A `View` gives every allocator the blocks of its chain and the slots of its free list; `Inv L s v` says
that the pointers and links of `s` are those of `v` and that `v` keeps the allocators apart.

* `PoolOk`          one allocator: chain and free list are linked, the next slot is in the first block
                    of the chain, the free slots are slots of the chain that were cut;
* `Inv`             the blocks are shared out among the allocators and apart from each other; a live slot
                    is a slot of a block, was cut and is not in a free list;
* `Inv.cut`, `Inv.reuse`, `Inv.allocateBlock`, `Inv.deallocate`, `Inv.write`, `Inv.construct`,
  `Inv.destroy`     every operation but the moves keeps it.
-/

set_option linter.unusedSectionVars false

namespace CppCores
namespace PoolAllocator
open Region MemoryPoolLiteAllocator
variable {Id : Type*} [DecidableEq Id] {L : Layout}

/-! ## the invariant -/

structure View (Id : Type*) where
  chain : Id → List ℕ
  free : Id → List ℕ

/-- `p` is still to be cut -/
def Ahead (a : MemoryPoolLiteAllocator) (p : ℕ) : Prop := a.currentSlot_ ≤ p ∧ p < a.lastSlot_

/-- the next slot and the end of the slots -/
inductive Front (L : Layout) (a : MemoryPoolLiteAllocator) : Prop where
  | unused : a.currentSlot_ = 0 → a.lastSlot_ = 0 → Front L a
  | front : a.currentBlock_ ≠ 0 → a.lastSlot_ = a.currentBlock_ + L.BlockSize - L.slot + 1 →
      firstSlot L a.currentBlock_ ≤ a.currentSlot_ →
      a.currentSlot_ ≤ a.currentBlock_ + L.BlockSize →
      L.slot ∣ a.currentSlot_ - firstSlot L a.currentBlock_ → Front L a

theorem Front.setFree {a : MemoryPoolLiteAllocator} (h : Front L a) (p : ℕ) :
    Front L { a with freeSlots_ := p } := by
  cases h with
  | unused hc hl => exact .unused hc hl
  | front hb hl hf hle hd => exact .front hb hl hf hle hd

structure PoolOk (L : Layout) (mem : Mem) (a : MemoryPoolLiteAllocator) (bs fs : List ℕ) : Prop where
  chain : Linked 0 mem a.currentBlock_ bs
  free : Linked 0 mem a.freeSlots_ fs
  front : Front L a
  slots : ∀ p ∈ fs, (∃ b ∈ bs, IsSlot L b p) ∧ ¬ Ahead a p

/-- an allocator that is not there has nothing -/
def PoolView (L : Layout) (mem : Mem) :
    Option MemoryPoolLiteAllocator → List ℕ → List ℕ → Prop
  | none, bs, fs => bs = [] ∧ fs = []
  | some a, bs, fs => PoolOk L mem a bs fs

structure Inv (L : Layout) (s : State Id) (v : View Id) : Prop where
  pool : ∀ i, PoolView L s.mem (s.pools i) (v.chain i) (v.free i)
  shares : Shares s.blocks v.chain
  apart : s.blocks.Pairwise fun b c => (L.block b).Apart (L.block c)
  live_nodup : s.live.Nodup
  live_slot : ∀ p ∈ s.live, ∃ b ∈ s.blocks, IsSlot L b p
  live_cut : ∀ p ∈ s.live, ∀ i a, s.pools i = some a → ¬ Ahead a p
  live_free : ∀ i, ∀ p ∈ v.free i, p ∉ s.live

theorem inv_init : Inv L (machine Id L).init ⟨fun _ => [], fun _ => []⟩ where
  pool := fun _ => ⟨rfl, rfl⟩
  shares := .empty
  apart := .nil
  live_nodup := .nil
  live_slot := nofun
  live_cut := nofun
  live_free := nofun

/-! ## one allocator -/

theorem Layout.block_pos (L : Layout) : 0 < L.BlockSize := by
  have h1 := L.slot_pos
  have h2 := L.two_slots
  omega

namespace PoolOk
variable {mem : Mem} {a : MemoryPoolLiteAllocator} {bs fs : List ℕ}

theorem ahead (h : PoolOk L mem a bs fs) {p : ℕ} (hp : Ahead a p) : ∃ b ∈ bs, (L.block b).Mem p := by
  obtain ⟨h1, h2⟩ := hp
  cases h.front with
  | unused hc hl =>
    rw [hl] at h2
    exact absurd h2 (Nat.not_lt_zero p)
  | front hb hl hf hle hd =>
    obtain ⟨l, rfl, -⟩ := h.chain.pop hb
    have hgt := firstSlot_gt L a.currentBlock_
    have hpos := L.slot_pos
    have htwo := L.two_slots
    refine ⟨_, List.mem_cons_self, ?_, ?_⟩
    · show a.currentBlock_ ≤ p
      omega
    · show p < a.currentBlock_ + L.BlockSize
      omega

/-- **The next slot is a slot**, if there is one. -/
theorem current (h : PoolOk L mem a bs fs) (hlt : a.currentSlot_ < a.lastSlot_) :
    ∃ b ∈ bs, IsSlot L b a.currentSlot_ := by
  cases h.front with
  | unused hc hl =>
    rw [hl] at hlt
    exact absurd hlt (Nat.not_lt_zero _)
  | front hb hl hf hle hd =>
    obtain ⟨l, rfl, -⟩ := h.chain.pop hb
    have htwo := L.two_slots
    exact ⟨_, List.mem_cons_self, hf, by omega, hd⟩

end PoolOk

theorem PoolView.update {mem : Mem} {o : Option MemoryPoolLiteAllocator} {bs fs : List ℕ}
    (h : PoolView L mem o bs fs) {q : ℕ} (hb : q ∉ bs) (hf : q ∉ fs) (v : ℕ) :
    PoolView L (Function.update mem q v) o bs fs := by
  cases o with
  | none => exact h
  | some a =>
    have h : PoolOk L mem a bs fs := h
    exact ⟨h.chain.update hb v, h.free.update hf v, h.front, h.slots⟩

namespace Inv
variable {s : State Id} {v : View Id}

theorem ok (h : Inv L s v) {i : Id} {a : MemoryPoolLiteAllocator} (hi : s.pools i = some a) :
    PoolOk L s.mem a (v.chain i) (v.free i) := by
  have := h.pool i
  rwa [hi] at this

theorem absent (h : Inv L s v) {i : Id} (hi : s.pools i = none) : v.chain i = [] ∧ v.free i = [] := by
  have := h.pool i
  rwa [hi] at this

theorem present (h : Inv L s v) {i : Id} {b : ℕ} (hb : b ∈ v.chain i) : ∃ a, s.pools i = some a := by
  cases hi : s.pools i with
  | none =>
    rw [(h.absent hi).1] at hb
    exact absurd hb List.not_mem_nil
  | some a => exact ⟨a, rfl⟩

/-! ## apart -/

theorem blocks_apart (h : Inv L s v) {b c : ℕ} (hb : b ∈ s.blocks) (hc : c ∈ s.blocks) (hne : b ≠ c) :
    (L.block b).Apart (L.block c) := by
  have : Std.Symm fun b c : ℕ => (L.block b).Apart (L.block c) := ⟨fun _ _ hx => hx.symm⟩
  exact h.apart.forall hb hc hne

theorem block_unique (h : Inv L s v) {b c p : ℕ} (hb : b ∈ s.blocks) (hc : c ∈ s.blocks)
    (hpb : (L.block b).Mem p) (hpc : (L.block c).Mem p) : b = c := by
  by_contra hne
  exact h.blocks_apart hb hc hne p hpb hpc

theorem chain_unique (h : Inv L s v) {i j : Id} {b c p : ℕ} (hb : b ∈ v.chain i)
    (hc : c ∈ v.chain j) (hpb : (L.block b).Mem p) (hpc : (L.block c).Mem p) : i = j := by
  obtain rfl := h.block_unique ((h.shares.mem b).mpr ⟨i, hb⟩) ((h.shares.mem c).mpr ⟨j, hc⟩) hpb hpc
  exact h.shares.unique i j b hb hc

theorem free_slot (h : Inv L s v) {i : Id} {p : ℕ} (hp : p ∈ v.free i) :
    ∃ b ∈ v.chain i, IsSlot L b p := by
  cases hi : s.pools i with
  | none =>
    rw [(h.absent hi).2] at hp
    exact absurd hp List.not_mem_nil
  | some a => exact ((h.ok hi).slots p hp).1

theorem slot_not_block (h : Inv L s v) {b p : ℕ} (hb : b ∈ s.blocks) (hp : IsSlot L b p) (i : Id) :
    p ∉ v.chain i := by
  intro hi
  have hself : (L.block p).Mem p := ⟨Nat.le_refl p, Nat.lt_add_of_pos_right L.block_pos⟩
  have := h.block_unique hb ((h.shares.mem p).mpr ⟨i, hi⟩) hp.mem hself
  exact Nat.ne_of_lt hp.gt this

theorem slot_other (h : Inv L s v) {i j : Id} (hj : j ≠ i) {b p : ℕ} (hb : b ∈ v.chain i)
    (hp : IsSlot L b p) : p ∉ v.free j ∧ ∀ a, s.pools j = some a → ¬ Ahead a p := by
  refine ⟨fun hfree => ?_, fun a ha hahead => ?_⟩
  · obtain ⟨c, hc, hpc⟩ := h.free_slot hfree
    exact hj (h.chain_unique hc hb hpc.mem hp.mem)
  · obtain ⟨c, hc, hpc⟩ := (h.ok ha).ahead hahead
    exact hj (h.chain_unique hc hb hpc hp.mem)

end Inv

theorem forall_setPool {pools : Id → Option MemoryPoolLiteAllocator}
    {C : MemoryPoolLiteAllocator → Prop} (h : ∀ j a, pools j = some a → C a) (i : Id)
    {o : Option MemoryPoolLiteAllocator} (ho : ∀ a, o = some a → C a) :
    ∀ j a, Function.update pools i o j = some a → C a := by
  intro j a hj
  obtain rfl | hne := eq_or_ne j i
  · rw [Function.update_self] at hj
    exact ho a hj
  · rw [Function.update_of_ne hne] at hj
    exact h j a hj

namespace Inv
variable {s : State Id} {v : View Id} {i : Id} {a : MemoryPoolLiteAllocator}

theorem slot_cut (h : Inv L s v) {b p : ℕ} (hb : b ∈ v.chain i) (hp : IsSlot L b p)
    {a' : MemoryPoolLiteAllocator} (ha : ¬ Ahead a' p) :
    ∀ j c, Function.update s.pools i (some a') j = some c → ¬ Ahead c p := by
  intro j c hj
  obtain rfl | hji := eq_or_ne j i
  · rw [Function.update_self] at hj
    rwa [← Option.some.inj hj]
  · rw [Function.update_of_ne hji] at hj
    exact (h.slot_other hji hb hp).2 c hj

/-! ## allocate -/

theorem reuse (h : Inv L s v) (hi : s.pools i = some a) (hne : a.freeSlots_ ≠ 0) :
    Inv L { s with
      pools := Function.update s.pools i (some { a with freeSlots_ := s.mem a.freeSlots_ })
      live := a.freeSlots_ :: s.live }
      { v with free := Function.update v.free i (v.free i).tail } := by
  have hok := h.ok hi
  obtain ⟨fs, hfs, hrest⟩ := hok.free.pop hne
  have hp : a.freeSlots_ ∈ v.free i := hfs ▸ List.mem_cons_self
  have hnodup := hok.free.nodup
  rw [hfs] at hnodup
  obtain ⟨⟨b, hb, hslot⟩, hahead⟩ := hok.slots _ hp
  refine {
    pool := fun j => ?_
    shares := h.shares
    apart := h.apart
    live_nodup := List.nodup_cons.mpr ⟨h.live_free i _ hp, h.live_nodup⟩
    live_slot := List.forall_mem_cons.mpr
      ⟨⟨b, (h.shares.mem b).mpr ⟨i, hb⟩, hslot⟩, h.live_slot⟩
    live_cut := List.forall_mem_cons.mpr ⟨?_, fun p hp => ?_⟩
    live_free := fun j p hj => ?_ }
  · obtain rfl | hji := eq_or_ne j i
    · simp only [Function.update_self]
      refine ⟨hok.chain, ?_, hok.front.setFree _, fun p hp => hok.slots p (List.mem_of_mem_tail hp)⟩
      rw [hfs]
      exact hrest
    · simp only [Function.update_of_ne hji]
      exact h.pool j
  · exact h.slot_cut hb hslot hahead
  · refine forall_setPool (h.live_cut p hp) i fun c hc => ?_
    rw [← Option.some.inj hc]
    exact h.live_cut p hp i a hi
  · obtain rfl | hji := eq_or_ne j i
    · simp only [Function.update_self] at hj
      have hpn : p ∉ s.live := h.live_free j p (List.mem_of_mem_tail hj)
      rw [hfs] at hj
      refine List.not_mem_cons_of_ne_of_not_mem ?_ hpn
      rintro rfl
      exact (List.nodup_cons.mp hnodup).1 hj
    · simp only [Function.update_of_ne hji] at hj
      refine List.not_mem_cons_of_ne_of_not_mem ?_ (h.live_free j p hj)
      rintro rfl
      exact (h.slot_other hji hb hslot).1 hj

theorem cut (h : Inv L s v) (hi : s.pools i = some a) (hlt : a.currentSlot_ < a.lastSlot_) :
    Inv L { s with
      pools := Function.update s.pools i (some (a.cut L).2)
      live := a.currentSlot_ :: s.live } v := by
  have hok := h.ok hi
  have hpos := L.slot_pos
  have hcur : Ahead a a.currentSlot_ := ⟨Nat.le_refl _, hlt⟩
  have hahead : ∀ p, ¬ Ahead a p → ¬ Ahead (a.cut L).2 p := by
    intro p hp hcut
    exact hp ⟨Nat.le_of_add_right_le hcut.1, hcut.2⟩
  obtain ⟨b, hb, hslot⟩ := hok.current hlt
  refine {
    pool := fun j => ?_
    shares := h.shares
    apart := h.apart
    live_nodup := List.nodup_cons.mpr ⟨fun hl => h.live_cut _ hl i a hi hcur, h.live_nodup⟩
    live_slot := List.forall_mem_cons.mpr
      ⟨⟨b, (h.shares.mem b).mpr ⟨i, hb⟩, hslot⟩, h.live_slot⟩
    live_cut := List.forall_mem_cons.mpr ⟨?_, fun p hp => ?_⟩
    live_free := fun j p hj => ?_ }
  · obtain rfl | hji := eq_or_ne j i
    · simp only [Function.update_self]
      refine ⟨hok.chain, hok.free, ?_, fun p hp => ?_⟩
      · cases hok.front with
        | unused hc hl => omega
        | front hb hl hf hle hd =>
          have htwo := L.two_slots
          refine .front hb hl (Nat.le_add_right_of_le hf) ?_ ?_
          · show a.currentSlot_ + L.slot ≤ a.currentBlock_ + L.BlockSize
            omega
          · show L.slot ∣ a.currentSlot_ + L.slot - firstSlot L a.currentBlock_
            rw [Nat.sub_add_comm hf]
            exact Nat.dvd_add hd (Nat.dvd_refl _)
      · exact ⟨(hok.slots p hp).1, hahead p (hok.slots p hp).2⟩
    · simp only [Function.update_of_ne hji]
      exact h.pool j
  · refine h.slot_cut hb hslot ?_
    rintro ⟨hc, -⟩
    have hc : a.currentSlot_ + L.slot ≤ a.currentSlot_ := hc
    omega
  · refine forall_setPool (h.live_cut p hp) i fun c hc => ?_
    rw [← Option.some.inj hc]
    exact hahead p (h.live_cut p hp i a hi)
  · refine List.not_mem_cons_of_ne_of_not_mem ?_ (h.live_free j p hj)
    rintro rfl
    obtain rfl | hji := eq_or_ne j i
    · exact (hok.slots _ hj).2 hcur
    · exact (h.slot_other hji hb hslot).1 hj

theorem fresh_slot {newBlock b p : ℕ} (hf : Fresh L s newBlock) (hb : b ∈ s.blocks)
    (hp : IsSlot L b p) : ¬ (L.block newBlock).Mem p := fun hm => hf.apart b hb p hm hp.mem

theorem fresh_not_mem {newBlock : ℕ} (hf : Fresh L s newBlock) : newBlock ∉ s.blocks := by
  intro hb
  have hself : (L.block newBlock).Mem newBlock :=
    ⟨Nat.le_refl _, Nat.lt_add_of_pos_right L.block_pos⟩
  exact hf.apart newBlock hb newBlock hself hself

theorem allocateBlock (h : Inv L s v) (hi : s.pools i = some a) {newBlock : ℕ}
    (hf : Fresh L s newBlock) :
    Inv L { s with
      pools := Function.update s.pools i (some (a.allocateBlock L s.mem newBlock).1)
      mem := (a.allocateBlock L s.mem newBlock).2
      blocks := newBlock :: s.blocks }
      { v with chain := Function.update v.chain i (newBlock :: v.chain i) } := by
  have hok := h.ok hi
  have hnot := fresh_not_mem hf
  have hself : (L.block newBlock).Mem newBlock :=
    ⟨Nat.le_refl _, Nat.lt_add_of_pos_right L.block_pos⟩
  have hchain : ∀ j, newBlock ∉ v.chain j := fun j hj => hnot ((h.shares.mem _).mpr ⟨j, hj⟩)
  have hfree : ∀ j, newBlock ∉ v.free j := by
    intro j hj
    obtain ⟨b, hb, hslot⟩ := h.free_slot hj
    exact fresh_slot hf ((h.shares.mem b).mpr ⟨j, hb⟩) hslot hself
  have hfirst := isSlot_first L hf.aligned hf.fits
  have hahead : ∀ p, Ahead (a.allocateBlock L s.mem newBlock).1 p → (L.block newBlock).Mem p := by
    rintro p ⟨h1, h2⟩
    have h1 : firstSlot L newBlock ≤ p := h1
    have h2 : p < newBlock + L.BlockSize - L.slot + 1 := h2
    have hgt := hfirst.gt
    have hpos := L.slot_pos
    have htwo := L.two_slots
    refine ⟨Nat.le_trans (Nat.le_of_lt hgt) h1, ?_⟩
    show p < newBlock + L.BlockSize
    omega
  refine {
    pool := fun j => ?_
    shares := h.shares.cons i hnot
    apart := List.pairwise_cons.mpr ⟨hf.apart, h.apart⟩
    live_nodup := h.live_nodup
    live_slot := fun p hp => ?_
    live_cut := fun p hp => forall_setPool (h.live_cut p hp) i fun c hc hc' => ?_
    live_free := h.live_free }
  · obtain rfl | hji := eq_or_ne j i
    · simp only [Function.update_self]
      refine ⟨hok.chain.push hf.ne_null (hchain j), hok.free.update (hfree j) _, ?_, fun p hp => ?_⟩
      · refine .front hf.ne_null rfl (Nat.le_refl _) ?_ ?_
        · exact Nat.le_trans (Nat.le_add_right _ _) hfirst.last
        · rw [MemoryPoolLiteAllocator.allocateBlock, Nat.sub_self]
          exact Nat.dvd_zero _
      · obtain ⟨⟨b, hb, hslot⟩, -⟩ := hok.slots p hp
        refine ⟨⟨b, List.mem_cons_of_mem _ hb, hslot⟩, fun hp' => ?_⟩
        exact fresh_slot hf ((h.shares.mem b).mpr ⟨j, hb⟩) hslot (hahead p hp')
    · simp only [Function.update_of_ne hji]
      exact (h.pool j).update (hchain j) (hfree j) _
  · obtain ⟨b, hb, hslot⟩ := h.live_slot p hp
    exact ⟨b, List.mem_cons_of_mem _ hb, hslot⟩
  · obtain rfl := Option.some.inj hc
    obtain ⟨b, hb, hslot⟩ := h.live_slot p hp
    exact fresh_slot hf hb hslot (hahead p hc')

/-! ## the user and deallocate -/

theorem live_not_link (h : Inv L s v) {p : ℕ} (hp : p ∈ s.live) (j : Id) :
    p ∉ v.chain j ∧ p ∉ v.free j := by
  obtain ⟨b, hb, hslot⟩ := h.live_slot p hp
  exact ⟨h.slot_not_block hb hslot j, fun hf => h.live_free j p hf hp⟩

theorem write (h : Inv L s v) {p : ℕ} (hp : p ∈ s.live) (x : ℕ) :
    Inv L { s with mem := Function.update s.mem p x } v where
  pool := fun j => (h.pool j).update (h.live_not_link hp j).1 (h.live_not_link hp j).2 x
  shares := h.shares
  apart := h.apart
  live_nodup := h.live_nodup
  live_slot := h.live_slot
  live_cut := h.live_cut
  live_free := h.live_free

/-- the destructor and `deallocate` follow the chain that the view has -/
theorem chainOf_eq (h : Inv L s v) (hi : s.pools i = some a) : chainOf s a = v.chain i :=
  (h.ok hi).chain.follow (h.shares.length_le i)

theorem deallocate (h : Inv L s v) (hi : s.pools i = some a) {p : ℕ} (hp : p ∈ s.live)
    (ho : Owns L s a p) :
    p ≠ 0 ∧ Inv L { s with
      pools := Function.update s.pools i (some { a with freeSlots_ := p })
      mem := Function.update s.mem p a.freeSlots_
      live := s.live.erase p }
      { v with free := Function.update v.free i (p :: v.free i) } := by
  have hok := h.ok hi
  obtain ⟨b, hb, hmem⟩ := ho
  rw [h.chainOf_eq hi] at hb
  obtain ⟨c, hc, hslot⟩ := h.live_slot p hp
  obtain rfl := h.block_unique hc ((h.shares.mem b).mpr ⟨i, hb⟩) hslot.mem hmem
  have hne : p ≠ 0 := Nat.ne_of_gt (Nat.lt_of_le_of_lt (Nat.zero_le _) hslot.gt)
  refine ⟨hne, {
    pool := fun j => ?_
    shares := h.shares
    apart := h.apart
    live_nodup := h.live_nodup.erase p
    live_slot := fun q hq => h.live_slot q (List.mem_of_mem_erase hq)
    live_cut := fun q hq => ?_
    live_free := fun j q hj => ?_ }⟩
  · obtain ⟨hpc, hpf⟩ := h.live_not_link hp j
    obtain rfl | hji := eq_or_ne j i
    · simp only [Function.update_self]
      refine ⟨hok.chain.update hpc _, hok.free.push hne hpf, hok.front.setFree p, ?_⟩
      exact List.forall_mem_cons.mpr ⟨⟨⟨c, hb, hslot⟩, h.live_cut p hp j a hi⟩, hok.slots⟩
    · simp only [Function.update_of_ne hji]
      exact (h.pool j).update hpc hpf _
  · have hq := List.mem_of_mem_erase hq
    refine forall_setPool (h.live_cut q hq) i fun c hc => ?_
    rw [← Option.some.inj hc]
    exact h.live_cut q hq i a hi
  · have hfree : q ∈ v.free j → q ∉ s.live.erase p := fun hq hl =>
      h.live_free j q hq (List.mem_of_mem_erase hl)
    obtain rfl | hji := eq_or_ne j i
    · simp only [Function.update_self] at hj
      obtain rfl | hq := List.mem_cons.mp hj
      · exact h.live_nodup.not_mem_erase
      · exact hfree hq
    · simp only [Function.update_of_ne hji] at hj
      exact hfree hj

/-! ## construct and destroy -/

theorem construct (h : Inv L s v) (hi : s.pools i = none) : Inv L (s.setPool i (some .new)) v where
  pool := by
    intro j
    obtain rfl | hji := eq_or_ne j i
    · obtain ⟨hc, hf⟩ := h.absent hi
      simp only [State.setPool, Function.update_self, hc, hf]
      exact ⟨.nil, .nil, .unused rfl rfl, nofun⟩
    · simp only [State.setPool, Function.update_of_ne hji]
      exact h.pool j
  shares := h.shares
  apart := h.apart
  live_nodup := h.live_nodup
  live_slot := h.live_slot
  live_cut := by
    intro p hp
    refine forall_setPool (h.live_cut p hp) i fun c hc => ?_
    rw [← Option.some.inj hc]
    exact fun ha => Nat.not_lt_zero p ha.2
  live_free := h.live_free

theorem destroy (h : Inv L s v) (hi : s.pools i = some a) :
    Inv L (s.destroy L i a) ⟨Function.update v.chain i [], Function.update v.free i []⟩ where
  pool := by
    intro j
    obtain rfl | hji := eq_or_ne j i
    · simp only [State.destroy, Function.update_self]
      exact ⟨rfl, rfl⟩
    · simp only [State.destroy, Function.update_of_ne hji]
      exact h.pool j
  shares := by
    rw [State.destroy, h.chainOf_eq hi]
    exact h.shares.drop i
  apart := h.apart.filter _
  live_nodup := h.live_nodup.filter _
  live_slot := by
    intro p hp
    obtain ⟨hp, hno⟩ := List.mem_filter.mp hp
    have hno : ¬ Owns L s a p := of_decide_eq_true hno
    obtain ⟨b, hb, hslot⟩ := h.live_slot p hp
    refine ⟨b, List.mem_filter.mpr ⟨hb, decide_eq_true fun hbc => hno ⟨b, hbc, hslot.mem⟩⟩, hslot⟩
  live_cut := fun p hp =>
    forall_setPool (h.live_cut p (List.mem_of_mem_filter hp)) i nofun
  live_free := by
    intro j p hj hp
    obtain rfl | hji := eq_or_ne j i
    · simp only [Function.update_self] at hj
      exact List.not_mem_nil hj
    · simp only [Function.update_of_ne hji] at hj
      exact h.live_free j p hj (List.mem_of_mem_filter hp)

end Inv

end PoolAllocator
end CppCores
