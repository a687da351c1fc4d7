import CppCores.Utils.MemoryPoolLite.Pools

/-!
# MemoryPoolLiteAllocator: moves

The move constructor takes the chain away from the source and leaves it `currentSlot_`, `lastSlot_` and
`freeSlots_`; the move assignment swaps the chains and copies these three.  Both keep the allocators
apart only if the source has none of the three.

* `Separate`         the live slots are apart, every block is in the chain of one allocator, and the free
                     list and the next and last slot of an allocator lie in its chain;
* `Inv.exchange`     a move from a source that has none of the three swaps two chains;
* `separate_reach`   **the allocators are separate as long as every move is from such a source**;
* `move_breaks`      every other move breaks it.
-/

set_option linter.unusedSectionVars false

namespace CppCores
namespace PoolAllocator
open Region Machine MemoryPoolLiteAllocator
variable {Id : Type*} [DecidableEq Id] {L : Layout} {s s' : State Id} {v : View Id}
  {i j : Id} {a other : MemoryPoolLiteAllocator}

/-! ## separate allocators -/

/-- `b` is in the chain of `a` -/
def InChain (s : State Id) (a : MemoryPoolLiteAllocator) (b : ℕ) : Prop :=
  ∃ l, Linked 0 s.mem a.currentBlock_ l ∧ b ∈ l

/-- a pointer behind the link of the block, up to its end -/
def Refers (L : Layout) (b p : ℕ) : Prop := b < p ∧ p ≤ b + L.BlockSize

structure Separate (L : Layout) (s : State Id) : Prop where
  live : s.live.Pairwise fun p q => (L.region p).Apart (L.region q)
  blocks : ∀ b ∈ s.blocks, ∃! i, ∃ a, s.pools i = some a ∧ InChain s a b
  chain : ∀ i a, s.pools i = some a → ∃ l, Linked 0 s.mem a.currentBlock_ l ∧ ∀ b ∈ l, b ∈ s.blocks
  free : ∀ i a, s.pools i = some a → ∃ l, Linked 0 s.mem a.freeSlots_ l ∧
    ∀ p ∈ l, ∃ b, InChain s a b ∧ Refers L b p ∧ Refers L b (p + L.slot)
  current : ∀ i a, s.pools i = some a → a.currentSlot_ ≠ 0 →
    ∃ b, InChain s a b ∧ Refers L b a.currentSlot_
  last : ∀ i a, s.pools i = some a → a.lastSlot_ ≠ 0 → ∃ b, InChain s a b ∧ Refers L b a.lastSlot_

/-- no slot to cut and none to reuse -/
def Unused (a : MemoryPoolLiteAllocator) : Prop := a.currentSlot_ = 0 ∧ a.freeSlots_ = 0

instance (a : MemoryPoolLiteAllocator) : Decidable (Unused a) :=
  inferInstanceAs (Decidable (_ ∧ _))

/-- every move is from an allocator without slots to cut or to reuse, or to itself -/
def FromUnused (s : State Id) : Act Id → Prop
  | .moveConstruct _ j => ∀ a ∈ s.pools j, Unused a
  | .moveAssign i j => i = j ∨ ∀ a ∈ s.pools j, Unused a
  | _ => True

instance (s : State Id) (act : Act Id) : Decidable (FromUnused s act) := by
  cases act <;> unfold FromUnused <;> infer_instance

/-- a slot refers to its block, from its first byte to its end -/
theorem IsSlot.refers {b p : ℕ} (h : IsSlot L b p) : Refers L b p ∧ Refers L b (p + L.slot) := by
  have h1 := h.gt
  have h2 := h.last
  exact ⟨⟨h1, by omega⟩, ⟨by omega, h2⟩⟩

theorem Front.refers (h : Front L a) (hc : a.currentSlot_ ≠ 0 ∨ a.lastSlot_ ≠ 0) :
    a.currentBlock_ ≠ 0 ∧ Refers L a.currentBlock_ a.currentSlot_ ∧
      Refers L a.currentBlock_ a.lastSlot_ := by
  cases h with
  | unused hcur hlast => exact absurd hc (by rw [hcur, hlast]; simp)
  | front hb hl hf hle hd =>
    have hgt := firstSlot_gt L a.currentBlock_
    have hpos := L.slot_pos
    have htwo := L.two_slots
    exact ⟨hb, ⟨by omega, hle⟩, ⟨by omega, by omega⟩⟩

/-- an allocator whose next slot is null has no last slot -/
theorem Front.of_null (h : Front L a) (hc : a.currentSlot_ = 0) : a.lastSlot_ = 0 := by
  by_contra hl
  have := (h.refers (.inr hl)).2.1.1
  omega

namespace Inv

theorem inChain_iff (h : Inv L s v) (hi : s.pools i = some a) (b : ℕ) :
    InChain s a b ↔ b ∈ v.chain i := by
  constructor
  · rintro ⟨l, hl, hb⟩
    rwa [(h.ok hi).chain.unique hl]
  · intro hb
    exact ⟨v.chain i, (h.ok hi).chain, hb⟩

theorem live_apart (h : Inv L s v) {p q : ℕ} (hp : p ∈ s.live) (hq : q ∈ s.live) (hne : p ≠ q) :
    (L.region p).Apart (L.region q) := by
  obtain ⟨b, hb, hpb⟩ := h.live_slot p hp
  obtain ⟨c, hc, hqc⟩ := h.live_slot q hq
  obtain rfl | hbc := eq_or_ne b c
  · exact hpb.apart hqc hne
  · exact (h.blocks_apart hb hc hbc).within hpb.within hqc.within

/-- **What the invariant keeps apart is separate.** -/
theorem separate (h : Inv L s v) : Separate L s where
  live := h.live_nodup.pairwise_of_forall_ne fun p hp q hq hne => h.live_apart hp hq hne
  blocks := by
    intro b hb
    obtain ⟨i, hi, huniq⟩ := h.shares.exists_unique hb
    obtain ⟨a, ha⟩ := h.present hi
    refine ⟨i, ⟨a, ha, (h.inChain_iff ha b).mpr hi⟩, ?_⟩
    rintro j ⟨c, hc, hcb⟩
    exact huniq j ((h.inChain_iff hc b).mp hcb)
  chain := by
    intro i a hi
    exact ⟨v.chain i, (h.ok hi).chain, fun b hb => (h.shares.mem b).mpr ⟨i, hb⟩⟩
  free := by
    intro i a hi
    refine ⟨v.free i, (h.ok hi).free, fun p hp => ?_⟩
    obtain ⟨b, hb, hslot⟩ := h.free_slot hp
    exact ⟨b, (h.inChain_iff hi b).mpr hb, hslot.refers⟩
  current := by
    intro i a hi hne
    obtain ⟨hb, hc, -⟩ := (h.ok hi).front.refers (.inl hne)
    obtain ⟨l, hl, -⟩ := (h.ok hi).chain.pop hb
    exact ⟨_, (h.inChain_iff hi _).mpr (hl ▸ List.mem_cons_self), hc⟩
  last := by
    intro i a hi hne
    obtain ⟨hb, -, hc⟩ := (h.ok hi).front.refers (.inr hne)
    obtain ⟨l, hl, -⟩ := (h.ok hi).chain.pop hb
    exact ⟨_, (h.inChain_iff hi _).mpr (hl ▸ List.mem_cons_self), hc⟩

end Inv

/-! ## a move from an unused allocator -/

namespace Inv

/-- `i` becomes what `j` was, `j` keeps the chain of `i` -/
theorem exchange (h : Inv L s v) (hij : i ≠ j) (hj : s.pools j = some other) (hu : Unused other)
    {x : ℕ} (hx : Linked 0 s.mem x (v.chain i)) :
    Inv L ((s.setPool i (some other)).setPool j (some { other with currentBlock_ := x }))
      ⟨fun k => v.chain (Equiv.swap i j k), Function.update v.free i []⟩ := by
  have hok := h.ok hj
  have hlast := hok.front.of_null hu.1
  have hfree : v.free j = [] := by
    have := hok.free
    rw [hu.2] at this
    exact this.of_null
  have hahead : ∀ p, ¬ p < other.lastSlot_ := by
    intro p
    rw [hlast]
    exact Nat.not_lt_zero p
  refine {
    pool := fun k => ?_
    shares := h.shares.perm (Equiv.swap i j)
    apart := h.apart
    live_nodup := h.live_nodup
    live_slot := h.live_slot
    live_cut := fun p hp => ?_
    live_free := fun k p hk => ?_ }
  · simp only [State.setPool]
    obtain rfl | hkj := eq_or_ne k j
    · rw [Function.update_self, Function.update_of_ne hij.symm, Equiv.swap_apply_right, hfree]
      refine ⟨hx, ?_, .unused hu.1 hlast, fun p hp => absurd hp List.not_mem_nil⟩
      rw [hu.2]
      exact .nil
    · rw [Function.update_of_ne hkj]
      obtain rfl | hki := eq_or_ne k i
      · rw [Function.update_self, Function.update_self, Equiv.swap_apply_left]
        refine ⟨hok.chain, ?_, hok.front, fun p hp => absurd hp List.not_mem_nil⟩
        rw [hu.2]
        exact .nil
      · rw [Function.update_of_ne hki, Function.update_of_ne hki,
          Equiv.swap_apply_of_ne_of_ne hki hkj]
        exact h.pool k
  · have h1 : ∀ k a, Function.update s.pools i (some other) k = some a → ¬ Ahead a p := by
      refine forall_setPool (h.live_cut p hp) i fun c hc => ?_
      rw [← Option.some.inj hc]
      exact fun ha => hahead p ha.2
    refine forall_setPool h1 j fun c hc => ?_
    rw [← Option.some.inj hc]
    exact fun ha => hahead p ha.2
  · obtain rfl | hki := eq_or_ne k i
    · simp only [Function.update_self] at hk
      exact absurd hk List.not_mem_nil
    · simp only [Function.update_of_ne hki] at hk
      exact h.live_free k p hk

end Inv

/-! ## the steps -/

/-- what a step does -/
inductive Step (L : Layout) (s : State Id) : Act Id → State Id → Prop where
  | construct (i : Id) : s.pools i = none → Step L s (.construct i) (s.setPool i (some .new))
  | moveConstruct (i j : Id) (other : MemoryPoolLiteAllocator) : i ≠ j → s.pools i = none →
      s.pools j = some other → Step L s (.moveConstruct i j)
        ((s.setPool i (some other)).setPool j (some { other with currentBlock_ := 0 }))
  | moveSelf (i : Id) : Step L s (.moveAssign i i) s
  | moveAssign (i j : Id) (this other : MemoryPoolLiteAllocator) : i ≠ j → s.pools i = some this →
      s.pools j = some other → Step L s (.moveAssign i j)
        ((s.setPool i (some other)).setPool j
          (some { other with currentBlock_ := this.currentBlock_ }))
  | reuse (i : Id) (newBlock : ℕ) (a : MemoryPoolLiteAllocator) : s.pools i = some a →
      a.freeSlots_ ≠ 0 → Step L s (.allocate i newBlock) { s with
        pools := Function.update s.pools i (some { a with freeSlots_ := s.mem a.freeSlots_ })
        live := a.freeSlots_ :: s.live }
  | cut (i : Id) (newBlock : ℕ) (a : MemoryPoolLiteAllocator) : s.pools i = some a →
      a.currentSlot_ < a.lastSlot_ → Step L s (.allocate i newBlock) { s with
        pools := Function.update s.pools i (some (a.cut L).2)
        live := a.currentSlot_ :: s.live }
  | block (i : Id) (newBlock : ℕ) (a : MemoryPoolLiteAllocator) : s.pools i = some a →
      Fresh L s newBlock → Step L s (.allocate i newBlock) {
        pools := Function.update s.pools i
          (some ((a.allocateBlock L s.mem newBlock).1.cut L).2)
        mem := (a.allocateBlock L s.mem newBlock).2
        blocks := newBlock :: s.blocks
        live := (a.allocateBlock L s.mem newBlock).1.currentSlot_ :: s.live }
  | deallocate (i : Id) (p : ℕ) (a : MemoryPoolLiteAllocator) : s.pools i = some a → p ∈ s.live →
      Owns L s a p → Step L s (.deallocate i p) (s.deallocate i a p)
  | write (p x : ℕ) : p ∈ s.live →
      Step L s (.write p x) { s with mem := Function.update s.mem p x }
  | destroy (i : Id) (a : MemoryPoolLiteAllocator) : s.pools i = some a →
      Step L s (.destroy i) (s.destroy L i a)

theorem allocate_cases (hi : s.pools i = some a) {newBlock : ℕ}
    (hf : a.NeedsBlock → Fresh L s newBlock) :
    Step L s (.allocate i newBlock) (s.allocate L i a newBlock) := by
  rw [State.allocate, MemoryPoolLiteAllocator.allocate]
  by_cases hfree : a.freeSlots_ = 0
  · rw [if_neg (not_not.mpr hfree)]
    by_cases hcur : a.currentSlot_ ≥ a.lastSlot_
    · rw [if_pos hcur, if_pos ⟨hfree, hcur⟩]
      exact .block i newBlock a hi (hf ⟨hfree, hcur⟩)
    · rw [if_neg hcur, if_neg fun hn => hcur hn.2]
      exact .cut i newBlock a hi (Nat.lt_of_not_le hcur)
  · rw [if_pos hfree, if_neg fun hn => hfree hn.1]
    exact .reuse i newBlock a hi hfree

theorem step_cases {act : Act Id} (h : step L s act = some s') : Step L s act s' := by
  cases act with
  | construct i =>
    obtain ⟨hi, h⟩ := Option.ite_none_right_eq_some.mp h
    rw [← Option.some.inj h]
    exact .construct i hi
  | moveConstruct i j =>
    simp only [step] at h
    split at h
    · rename_i other hi hj
      have hij : i ≠ j := by
        rintro rfl
        rw [hi] at hj
        cases hj
      rw [← Option.some.inj h]
      exact .moveConstruct i j other hij hi hj
    · cases h
  | moveAssign i j =>
    simp only [step] at h
    split at h
    · rename_i this other hi hj
      obtain rfl | hij := eq_or_ne i j
      · rw [if_neg fun hn => hn rfl] at h
        exact Option.some.inj h ▸ .moveSelf i
      · rw [if_pos hij] at h
        rw [← Option.some.inj h]
        exact .moveAssign i j this other hij hi hj
    · cases h
  | allocate i newBlock =>
    simp only [step] at h
    split at h
    · rename_i a hi
      obtain ⟨hf, h⟩ := Option.ite_none_right_eq_some.mp h
      rw [← Option.some.inj h]
      exact allocate_cases hi hf
    · cases h
  | deallocate i p =>
    simp only [step] at h
    split at h
    · rename_i a hi
      obtain ⟨⟨hp, ho⟩, h⟩ := Option.ite_none_right_eq_some.mp h
      rw [← Option.some.inj h]
      exact .deallocate i p a hi hp ho
    · cases h
  | write p x =>
    obtain ⟨hp, h⟩ := Option.ite_none_right_eq_some.mp h
    rw [← Option.some.inj h]
    exact .write p x hp
  | destroy i =>
    simp only [step] at h
    split at h
    · rename_i a hi
      rw [← Option.some.inj h]
      exact .destroy i a hi
    · cases h

theorem Inv.cutBlock (h : Inv L s v) (hi : s.pools i = some a) {newBlock : ℕ}
    (hf : Fresh L s newBlock) :
    Inv L {
      pools := Function.update s.pools i (some ((a.allocateBlock L s.mem newBlock).1.cut L).2)
      mem := (a.allocateBlock L s.mem newBlock).2
      blocks := newBlock :: s.blocks
      live := (a.allocateBlock L s.mem newBlock).1.currentSlot_ :: s.live }
      { v with chain := Function.update v.chain i (newBlock :: v.chain i) } := by
  have hb := h.allocateBlock hi hf
  have hlt : (a.allocateBlock L s.mem newBlock).1.currentSlot_ <
      (a.allocateBlock L s.mem newBlock).1.lastSlot_ := by
    have hfit := (isSlot_first L hf.aligned hf.fits).last
    show firstSlot L newBlock < newBlock + L.BlockSize - L.slot + 1
    omega
  have hc := hb.cut (Function.update_self ..) hlt
  simp only [Function.update_idem] at hc
  exact hc

/-- **A step keeps the invariant, if its move is from an unused allocator.** -/
theorem inv_step {act : Act Id} (h : Inv L s v) (hok : FromUnused s act)
    (hst : step L s act = some s') : ∃ v', Inv L s' v' := by
  cases step_cases hst with
  | construct i hi => exact ⟨v, h.construct hi⟩
  | moveConstruct i j other hij hi hj =>
    refine ⟨_, h.exchange hij hj (hok other hj) ?_⟩
    rw [(h.absent hi).1]
    exact .nil
  | moveSelf i => exact ⟨v, h⟩
  | moveAssign i j this other hij hi hj =>
    exact ⟨_, h.exchange hij hj (hok.resolve_left hij other hj) (h.ok hi).chain⟩
  | reuse i newBlock a hi hne => exact ⟨_, h.reuse hi hne⟩
  | cut i newBlock a hi hlt => exact ⟨v, h.cut hi hlt⟩
  | block i newBlock a hi hf => exact ⟨_, h.cutBlock hi hf⟩
  | deallocate i p a hi hp ho =>
    obtain ⟨hne, hd⟩ := h.deallocate hi hp ho
    refine ⟨⟨v.chain, Function.update v.free i (p :: v.free i)⟩, ?_⟩
    rw [State.deallocate, MemoryPoolLiteAllocator.deallocate, if_pos hne]
    exact hd
  | write p x hp => exact ⟨v, h.write hp x⟩
  | destroy i a hi => exact ⟨_, h.destroy hi⟩

theorem inv_reach (hr : (machine Id L).Reach FromUnused s) : ∃ v, Inv L s v := by
  refine hr.inv (I := fun s => ∃ v, Inv L s v) ⟨_, inv_init⟩ ?_
  rintro s act s' ⟨v, h⟩ hok hst
  exact inv_step h hok hst

/-! ## runs -/

/-- **The allocators are separate in every state of every run whose moves are all from an allocator
without slots to cut or to reuse.** -/
theorem separate_reach (hr : (machine Id L).Reach FromUnused s) : Separate L s := by
  obtain ⟨v, h⟩ := inv_reach hr
  exact h.separate

/-- slots of 16 bytes, three in a block -/
def small : Layout where
  slot := 16
  alignLog := 3
  BlockSize := 64
  ptr_le := by decide
  align_dvd := by decide
  two_slots := by decide
  size_lt := by decide

/-- allocator 1 takes the empty allocator 0, both allocate, a slot is given back and handed out again -/
theorem separate_reach_run : ∃ s : State ℕ, (machine ℕ small).Reach FromUnused s ∧
    Separate small s ∧ s.live = [4104, 8200] := by
  have h : ((machine ℕ small).execIf FromUnused (machine ℕ small).init
      [.construct 0, .moveConstruct 1 0, .allocate 0 4096, .allocate 1 8192, .write 4104 77,
        .moveAssign 0 0, .deallocate 0 4104, .allocate 0 0]).map State.live =
      some [4104, 8200] := by decide +kernel
  obtain ⟨s, hs, e⟩ := Option.map_eq_some_iff.mp h
  have hr := Reach.of_execIf _ .init hs
  exact ⟨s, hr, separate_reach hr, e⟩

theorem Separate.unused (h : Separate L s) (hi : s.pools i = some a) (hb : a.currentBlock_ = 0) :
    Unused a := by
  have hno : ∀ b, ¬ InChain s a b := by
    rintro b ⟨l, hl, hmem⟩
    rw [hb] at hl
    rw [hl.of_null] at hmem
    exact List.not_mem_nil hmem
  constructor
  · by_contra hc
    obtain ⟨b, hin, -⟩ := h.current i a hi hc
    exact hno b hin
  · by_contra hf
    obtain ⟨l, hl, hslots⟩ := h.free i a hi
    obtain ⟨l', rfl, -⟩ := hl.pop hf
    obtain ⟨b, hin, -⟩ := hslots _ List.mem_cons_self
    exact hno b hin

/-- no two blocks that are apart are referred to by one pointer -/
theorem Inv.refers_unique (h : Inv L s v) {b c p : ℕ} (hb : b ∈ s.blocks) (hc : c ∈ s.blocks)
    (hpb : Refers L b p) (hpc : Refers L c p) : b = c := by
  have hpos := hpb.1
  refine h.block_unique hb hc (p := p - 1) ⟨?_, ?_⟩ ⟨?_, ?_⟩
  · exact Nat.le_sub_one_of_lt hpb.1
  · exact Nat.lt_of_lt_of_le (by omega) hpb.2
  · exact Nat.le_sub_one_of_lt hpc.1
  · exact Nat.lt_of_lt_of_le (by omega) hpc.2

/-- **Every other move breaks it at once.** -/
theorem move_breaks {act : Act Id} (hr : (machine Id L).Reach FromUnused s)
    (ha : ¬ FromUnused s act) (hst : (machine Id L).step s act = some s') : ¬ Separate L s' := by
  obtain ⟨v, h⟩ := inv_reach hr
  intro hsep
  have hst : step L s act = some s' := hst
  cases step_cases hst with
  | moveConstruct i j other hij hi hj =>
    have hu := hsep.unused (Function.update_self ..) rfl
    exact ha fun c hc => Option.some.inj (hj.symm.trans hc) ▸ hu
  | moveAssign i j this other hij hi hj =>
    -- the source has the pointers of its old chain and the chain of the target
    have hu : Unused other := by
      have hin : ∀ b, InChain ((s.setPool i (some other)).setPool j
          (some { other with currentBlock_ := this.currentBlock_ }))
          { other with currentBlock_ := this.currentBlock_ } b → b ∈ v.chain i := by
        rintro b ⟨l, hl, hb⟩
        rwa [(h.ok hi).chain.unique hl]
      have hother : ∀ p b c, Refers L b p → Refers L c p → b ∈ v.chain i → c ∉ v.chain j := by
        intro p b c hpb hpc hb hc
        obtain rfl := h.refers_unique ((h.shares.mem b).mpr ⟨i, hb⟩)
          ((h.shares.mem c).mpr ⟨j, hc⟩) hpb hpc
        exact hij (h.shares.unique i j b hb hc)
      have hj' : ((s.setPool i (some other)).setPool j
          (some { other with currentBlock_ := this.currentBlock_ })).pools j =
          some { other with currentBlock_ := this.currentBlock_ } := Function.update_self ..
      constructor
      · by_contra hc
        obtain ⟨b, hb, hpb⟩ := hsep.current j _ hj' hc
        obtain ⟨hne, hpc, -⟩ := (h.ok hj).front.refers (.inl hc)
        obtain ⟨l, hl, -⟩ := (h.ok hj).chain.pop hne
        exact hother _ _ _ hpb hpc (hin b hb) (hl ▸ List.mem_cons_self)
      · by_contra hf
        obtain ⟨l, hl, hslots⟩ := hsep.free j _ hj'
        obtain ⟨l', rfl, -⟩ := hl.pop hf
        obtain ⟨b, hb, hpb, -⟩ := hslots _ List.mem_cons_self
        obtain ⟨fs, hfs, -⟩ := (h.ok hj).free.pop hf
        obtain ⟨c, hc, hslot⟩ := h.free_slot (hfs ▸ List.mem_cons_self)
        exact hother _ _ _ hpb hslot.refers.1 (hin b hb) hc
    exact ha (.inr fun c hc => Option.some.inj (hj.symm.trans hc) ▸ hu)
  | moveSelf i => exact ha (.inl rfl)
  | construct i hi => exact ha trivial
  | reuse i newBlock a hi hne => exact ha trivial
  | cut i newBlock a hi hlt => exact ha trivial
  | block i newBlock a hi hf => exact ha trivial
  | deallocate i p a hi hp ho => exact ha trivial
  | write p x hp => exact ha trivial
  | destroy i a hi => exact ha trivial

/-- in general they are not: the source of a move and its target hand out one slot -/
theorem not_separate : ¬ ∀ s : State ℕ, (machine ℕ small).Reachable s → Separate small s := by
  intro hall
  have h : ((machine ℕ small).exec (machine ℕ small).init
      [.construct 0, .allocate 0 4096, .moveConstruct 1 0, .allocate 0 0, .allocate 1 0]).map
      State.live = some [4120, 4120, 4104] := by decide +kernel
  obtain ⟨s, hs, e⟩ := Option.map_eq_some_iff.mp h
  have hlive := (hall s (.of_exec _ .init hs)).live
  rw [e] at hlive
  exact (List.pairwise_cons.mp hlive).1 4120 List.mem_cons_self 4120 ⟨by decide, by decide⟩
    ⟨by decide, by decide⟩

end PoolAllocator
end CppCores
