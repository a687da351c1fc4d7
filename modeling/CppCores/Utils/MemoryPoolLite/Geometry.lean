import CppCores.Utils.MemoryPoolLite.Moves

/-!
# MemoryPoolLiteAllocator: where the slots of one pool lie

One allocator that is never moved: its user allocates, gives live slots back and writes to them.
The run keeps with the allocator which slots it has handed out, and which of them were given back and
not handed out again.

* `OneInv`          what the free list links are the slots given back, the latest first;
* `slots_placed`    **in every state the live slots are aligned, lie in the blocks behind the links to
                    the previous blocks and are apart from each other and from all links; `allocate`
                    hands out the slot that was given back last, and a new one only if there is
                    none.**
-/

namespace CppCores
namespace PoolAllocator
open Region Machine MemoryPoolLiteAllocator
variable {L : Layout}

/-! ## the runs -/

/-- the allocator, its memory and its blocks, and the slots that are live, that were ever handed out,
and that were given back and not handed out again -/
structure OnePool where
  this : MemoryPoolLiteAllocator
  mem : Mem
  blocks : List ℕ
  live : List ℕ
  handed : List ℕ
  freed : List ℕ

inductive Call where
  | allocate (newBlock : ℕ)
  | deallocate (p : ℕ)
  /-- the user stores `v` in a live slot -/
  | write (p v : ℕ)
  deriving DecidableEq, Repr

namespace OnePool

/-- as one of the allocators of a run -/
def state (g : OnePool) : State Unit := ⟨fun _ => some g.this, g.mem, g.blocks, g.live⟩

def step (L : Layout) (g : OnePool) : Call → Option OnePool
  | .allocate newBlock =>
    if g.this.NeedsBlock → Fresh L g.state newBlock then
      let r := g.this.allocate L g.mem newBlock
      some {
        this := r.1.2
        mem := r.2
        blocks := if g.this.NeedsBlock then newBlock :: g.blocks else g.blocks
        live := r.1.1 :: g.live
        handed := r.1.1 :: g.handed
        freed := g.freed.erase r.1.1 }
    else none
  | .deallocate p =>
    if p ∈ g.live then
      let r := g.this.deallocate g.mem p
      some { g with this := r.1, mem := r.2, live := g.live.erase p, freed := p :: g.freed }
    else none
  | .write p v =>
    if p ∈ g.live then some { g with mem := Function.update g.mem p v } else none

end OnePool

/-- a constructed allocator; `mem` is what is in the memory that it gets -/
def onePool (L : Layout) (mem : Mem) : Machine OnePool Call :=
  ⟨⟨.new, mem, [], [], [], []⟩, OnePool.step L⟩

/-! ## what is wanted -/

structure Placed (L : Layout) (g : OnePool) : Prop where
  aligned : ∀ p ∈ g.live, L.align ∣ p
  inside : ∀ p ∈ g.live, ∃ b ∈ g.blocks, b + sizeofPtr ≤ p ∧ p + L.slot ≤ b + L.BlockSize
  apart : g.live.Pairwise fun p q => (L.region p).Apart (L.region q)
  links : ∀ p ∈ g.live, ∀ b ∈ g.blocks, (L.region p).Apart ⟨b, sizeofPtr⟩

/-- the slot given back last is handed out before a slot is cut, and a slot that is cut is new -/
def LatestFirst (L : Layout) (g : OnePool) : Prop :=
  ∀ newBlock g', g.step L (.allocate newBlock) = some g' → ∃ p, g'.live = p :: g.live ∧
    match g.freed with
    | [] => p ∉ g.handed
    | q :: fs => p = q ∧ g'.freed = fs ∧ g'.blocks = g.blocks ∧
        g'.this.currentSlot_ = g.this.currentSlot_

/-! ## a slot in its block -/

theorem IsSlot.aligned {b p : ℕ} (h : IsSlot L b p) (hfit : b + L.BlockSize ≤ 2 ^ 64) :
    L.align ∣ p := by
  have hbody : b + sizeofPtr ≤ 2 ^ 64 := Nat.le_trans (Nat.add_le_add_left L.ptr_le_block b) hfit
  have hfirst : L.align ∣ firstSlot L b := dvd_padPointer L hbody
  have hstep : L.align ∣ p - firstSlot L b := Nat.dvd_trans L.align_dvd h.step
  exact (Nat.dvd_sub_iff_left h.first hfirst).mp hstep

theorem IsSlot.behind {b p : ℕ} (h : IsSlot L b p) : b + sizeofPtr ≤ p :=
  Nat.le_trans (Nat.le_add_right _ _) h.first

theorem Inv.slot_apart_link {Id : Type*} [DecidableEq Id] {s : State Id} {v : View Id}
    (h : Inv L s v) {b c p : ℕ} (hb : b ∈ s.blocks) (hc : c ∈ s.blocks) (hp : IsSlot L b p) :
    (L.region p).Apart ⟨c, sizeofPtr⟩ := by
  obtain rfl | hbc := eq_or_ne b c
  · refine (apart_iff _ _).mpr (.inr (.inr (.inr ?_)))
    exact hp.behind
  · have hlink : Within ⟨c, sizeofPtr⟩ (L.block c) :=
      ⟨Nat.le_refl _, Nat.add_le_add_left L.ptr_le_block c⟩
    exact (h.blocks_apart hb hc hbc).within hp.within hlink

/-! ## allocate -/

section
variable {Id : Type*} [DecidableEq Id] {s : State Id} {v : View Id} {i : Id}
  {a : MemoryPoolLiteAllocator}

/-- **`allocate` takes the head off the free list**, if there is one -/
theorem Inv.allocate (h : Inv L s v) (hi : s.pools i = some a) {newBlock : ℕ}
    (hf : a.NeedsBlock → Fresh L s newBlock) : ∃ chain,
    Inv L (s.allocate L i a newBlock) ⟨chain, Function.update v.free i (v.free i).tail⟩ := by
  have hfree := (h.ok hi).free
  rw [State.allocate, MemoryPoolLiteAllocator.allocate]
  by_cases h0 : a.freeSlots_ = 0
  · have hnil : Function.update v.free i (v.free i).tail = v.free := by
      rw [h0] at hfree
      rw [hfree.of_null, List.tail_nil, ← hfree.of_null, Function.update_eq_self]
    rw [if_neg (not_not.mpr h0), hnil]
    by_cases hcur : a.currentSlot_ ≥ a.lastSlot_
    · rw [if_pos hcur, if_pos ⟨h0, hcur⟩]
      exact ⟨_, h.cutBlock hi (hf ⟨h0, hcur⟩)⟩
    · rw [if_neg hcur, if_neg fun hn => hcur hn.2]
      exact ⟨_, h.cut hi (Nat.lt_of_not_le hcur)⟩
  · rw [if_pos h0, if_neg fun hn => h0 hn.1]
    exact ⟨_, h.reuse hi h0⟩

theorem allocate_free {mem : Mem} {q : ℕ} {fs : List ℕ} (h : Linked 0 mem a.freeSlots_ (q :: fs))
    (newBlock : ℕ) : ¬ a.NeedsBlock ∧
      a.allocate L mem newBlock = ((q, { a with freeSlots_ := mem q }), mem) := by
  obtain ⟨rfl, hne⟩ := h.head
  refine ⟨fun hn => hne hn.1, ?_⟩
  rw [MemoryPoolLiteAllocator.allocate, if_pos hne]

end

/-! ## the invariant -/

theorem update_unit {β : Type*} (f : Unit → β) (x : β) : Function.update f () x = fun _ => x :=
  Function.update_eq_const_of_subsingleton () x f

structure OneInv (L : Layout) (g : OnePool) (chain : List ℕ) : Prop where
  inv : Inv L g.state ⟨fun _ => chain, fun _ => g.freed⟩
  fits : ∀ b ∈ g.blocks, b + L.BlockSize ≤ 2 ^ 64
  handed : ∀ p ∈ g.handed, p ∈ g.live ∨ p ∈ g.freed

theorem oneInv_init (L : Layout) (mem : Mem) : OneInv L (onePool L mem).init [] where
  inv := {
    pool := fun _ => ⟨.nil, .nil, .unused rfl rfl, nofun⟩
    shares := .empty
    apart := .nil
    live_nodup := .nil
    live_slot := nofun
    live_cut := nofun
    live_free := nofun }
  fits := nofun
  handed := nofun

namespace OneInv
variable {g g' : OnePool} {chain : List ℕ}

theorem linked (h : OneInv L g chain) : Linked 0 g.mem g.this.freeSlots_ g.freed :=
  (h.inv.ok (i := ()) rfl).free

/-- **A live slot lies in a block of the chain**, so that it can be given back -/
theorem owns (h : OneInv L g chain) {p : ℕ} (hp : p ∈ g.live) : Owns L g.state g.this p := by
  obtain ⟨b, hb, hslot⟩ := h.inv.live_slot p hp
  obtain ⟨_, hchain⟩ := (h.inv.shares.mem b).mp hb
  refine ⟨b, ?_, hslot.mem⟩
  rw [h.inv.chainOf_eq (i := ()) rfl]
  exact hchain

theorem cut_new (h : OneInv L g chain) {p : ℕ} (hp : p ∉ g.live) (hf : g.freed = []) :
    p ∉ g.handed := by
  intro hin
  obtain hl | hl := h.handed p hin
  · exact hp hl
  · rw [hf] at hl
    exact List.not_mem_nil hl

theorem allocated (h : OneInv L g chain) {newBlock : ℕ}
    (hst : g.step L (.allocate newBlock) = some g') : ∃ p, g'.live = p :: g.live ∧
      g'.handed = p :: g.handed ∧ g'.freed = g.freed.tail ∧
      g'.state = g.state.allocate L () g.this newBlock ∧
      (g.this.NeedsBlock → Fresh L g.state newBlock) ∧
      ∀ q fs, g.freed = q :: fs → p = q ∧ g'.blocks = g.blocks ∧
        g'.this.currentSlot_ = g.this.currentSlot_ := by
  obtain ⟨hf, hst⟩ := Option.ite_none_right_eq_some.mp hst
  rw [← Option.some.inj hst]
  have hlinked := h.linked
  have hfreed : g.freed.erase (g.this.allocate L g.mem newBlock).1.1 = g.freed.tail := by
    cases hg : g.freed with
    | nil => rfl
    | cons q fs =>
      rw [hg] at hlinked
      rw [(allocate_free hlinked newBlock).2, List.erase_cons_head, List.tail_cons]
  have hstate : (⟨fun _ => some (g.this.allocate L g.mem newBlock).1.2,
      (g.this.allocate L g.mem newBlock).2,
      if g.this.NeedsBlock then newBlock :: g.blocks else g.blocks,
      (g.this.allocate L g.mem newBlock).1.1 :: g.live⟩ : State Unit) =
      g.state.allocate L () g.this newBlock := by
    rw [State.allocate, update_unit]
    rfl
  refine ⟨_, rfl, rfl, hfreed, hstate, hf, fun q fs hg => ?_⟩
  rw [hg] at hlinked
  obtain ⟨hno, hall⟩ := allocate_free (L := L) hlinked newBlock
  rw [hall, if_neg hno]
  exact ⟨rfl, rfl, rfl⟩

/-- **A call of `allocate` keeps the invariant.** -/
theorem allocate (h : OneInv L g chain) {newBlock : ℕ}
    (hst : g.step L (.allocate newBlock) = some g') : ∃ chain', OneInv L g' chain' := by
  obtain ⟨p, hlive, hhanded, hfreed, hstate, hf, hhead⟩ := h.allocated hst
  obtain ⟨chain', hinv⟩ := h.inv.allocate (i := ()) rfl hf
  rw [update_unit, ← hstate] at hinv
  have hchain : chain' = fun _ => chain' () := rfl
  refine ⟨chain' (), ?_, ?_, ?_⟩
  · rw [hfreed, ← hchain]
    exact hinv
  · have hblocks : g'.blocks = if g.this.NeedsBlock then newBlock :: g.blocks else g.blocks :=
      congrArg State.blocks hstate
    rw [hblocks]
    split
    · rename_i hn
      exact List.forall_mem_cons.mpr ⟨(hf hn).fits, h.fits⟩
    · exact h.fits
  · rw [hhanded, hlive, hfreed]
    refine List.forall_mem_cons.mpr ⟨.inl List.mem_cons_self, fun q hq => ?_⟩
    obtain hl | hl := h.handed q hq
    · exact .inl (List.mem_cons_of_mem _ hl)
    · -- the head of the free list is the slot that is handed out
      cases hg : g.freed with
      | nil =>
        rw [hg] at hl
        exact absurd hl List.not_mem_nil
      | cons r fs =>
        rw [hg] at hl
        obtain rfl | hl := List.mem_cons.mp hl
        · exact .inl ((hhead q fs hg).1 ▸ List.mem_cons_self)
        · exact .inr hl

/-- **A call of `deallocate` keeps it.** -/
theorem deallocate (h : OneInv L g chain) {p : ℕ}
    (hst : g.step L (.deallocate p) = some g') : OneInv L g' chain := by
  obtain ⟨hp, hst⟩ := Option.ite_none_right_eq_some.mp hst
  obtain ⟨hne, hinv⟩ := h.inv.deallocate (i := ()) rfl hp (h.owns hp)
  rw [update_unit, update_unit] at hinv
  rw [MemoryPoolLiteAllocator.deallocate, if_pos hne] at hst
  rw [← Option.some.inj hst]
  refine ⟨hinv, h.fits, fun q hq => ?_⟩
  obtain rfl | hqp := eq_or_ne q p
  · exact .inr List.mem_cons_self
  · obtain hl | hl := h.handed q hq
    · exact .inl ((List.mem_erase_of_ne hqp).mpr hl)
    · exact .inr (List.mem_cons_of_mem _ hl)

theorem write (h : OneInv L g chain) {p v : ℕ} (hst : g.step L (.write p v) = some g') :
    OneInv L g' chain := by
  obtain ⟨hp, hst⟩ := Option.ite_none_right_eq_some.mp hst
  rw [← Option.some.inj hst]
  exact ⟨h.inv.write hp v, h.fits, h.handed⟩

/-! ## what follows from it -/

theorem placed (h : OneInv L g chain) : Placed L g where
  aligned := by
    intro p hp
    obtain ⟨b, hb, hslot⟩ := h.inv.live_slot p hp
    exact hslot.aligned (h.fits b hb)
  inside := by
    intro p hp
    obtain ⟨b, hb, hslot⟩ := h.inv.live_slot p hp
    exact ⟨b, hb, hslot.behind, hslot.last⟩
  apart := h.inv.separate.live
  links := by
    intro p hp c hc
    obtain ⟨b, hb, hslot⟩ := h.inv.live_slot p hp
    exact h.inv.slot_apart_link hb hc hslot

theorem latestFirst (h : OneInv L g chain) : LatestFirst L g := by
  intro newBlock g' hst
  obtain ⟨chain', h'⟩ := h.allocate hst
  obtain ⟨p, hlive, -, hfreed, -, -, hhead⟩ := h.allocated hst
  refine ⟨p, hlive, ?_⟩
  cases hg : g.freed with
  | nil =>
    have hnodup : g'.live.Nodup := h'.inv.live_nodup
    rw [hlive] at hnodup
    exact h.cut_new (List.nodup_cons.mp hnodup).1 hg
  | cons q fs =>
    obtain ⟨hp, hblocks, hcur⟩ := hhead q fs hg
    rw [hg, List.tail_cons] at hfreed
    exact ⟨hp, hfreed, hblocks, hcur⟩

end OneInv

theorem oneInv_reach {mem : Mem} {g : OnePool} (hr : (onePool L mem).Reachable g) :
    ∃ chain, OneInv L g chain := by
  refine hr.inv (I := fun g => ∃ chain, OneInv L g chain) ⟨[], oneInv_init L mem⟩ ?_
  rintro g c g' ⟨chain, h⟩ - hst
  cases c with
  | allocate newBlock => exact h.allocate hst
  | deallocate p => exact ⟨chain, h.deallocate hst⟩
  | write p v => exact ⟨chain, h.write hst⟩

/-- **Where the slots of a pool lie, and in which order they are handed out.** -/
theorem slots_placed {mem : Mem} {g : OnePool} (hr : (onePool L mem).Reachable g) :
    Placed L g ∧ LatestFirst L g := by
  obtain ⟨chain, h⟩ := oneInv_reach hr
  exact ⟨h.placed, h.latestFirst⟩

/-- slots of 32 bytes at multiples of 32, of which a block at an odd multiple of 16 has two -/
def wide : Layout where
  slot := 32
  alignLog := 5
  BlockSize := 96
  ptr_le := by decide
  align_dvd := by decide
  two_slots := by decide
  size_lt := by decide

/-- two blocks, two slots given back, one of them handed out again -/
theorem slots_placed_run : ∃ g, (onePool wide fun _ => 77).Reachable g ∧ g.live = [4128, 8224] ∧
    g.freed = [4160] ∧ Placed wide g ∧ LatestFirst wide g := by
  have h : ((onePool wide fun _ => 77).exec (onePool wide fun _ => 77).init
      [.allocate 4112, .allocate 0, .allocate 8208, .deallocate 4160, .write 8224 5,
        .deallocate 4128, .allocate 0]).map (fun g => (g.live, g.freed)) =
      some ([4128, 8224], [4160]) := by decide +kernel
  obtain ⟨g, hg, e⟩ := Option.map_eq_some_iff.mp h
  have hr := Reach.of_exec _ .init hg
  exact ⟨g, hr, congrArg Prod.fst e, congrArg Prod.snd e, slots_placed hr⟩

end PoolAllocator
end CppCores
