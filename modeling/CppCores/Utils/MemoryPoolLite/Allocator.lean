import CppCores.Lib.Machine
import CppCores.Lib.Regions
import CppCores.Lib.Linked
import Mathlib.Algebra.Group.Nat.Defs

/-!
# MemoryPoolLiteAllocator: the slot allocators of `utils/memory_pool_lite.h`

An allocator cuts blocks of `BlockSize` bytes into slots of one size.  Four pointers: the chain of its
blocks, linked through their first bytes, the next slot to cut and the end of those in the latest
block, and the list of slots given back, linked through the slots.  `mem p` is the pointer stored at
address `p`; a pointer is a number, null is 0.

A run has any number of allocators.  What `operator new` returns is in the label of a step; it is not
null, aligned to 16 and apart from the blocks that are not deleted.  The user writes to live slots, and
gives a slot back to an allocator whose chain has the block of the slot.
-/

namespace CppCores
namespace PoolAllocator
variable {Id : Type*} [DecidableEq Id]

/-- `sizeof(slot_pointer_)` -/
def sizeofPtr : ℕ := 8

/-- the sizes that `T` and the template arguments fix -/
structure Layout where
  /-- `sizeof(slot_type_)` -/
  slot : ℕ
  alignLog : ℕ
  BlockSize : ℕ
  ptr_le : sizeofPtr ≤ slot
  align_dvd : 2 ^ alignLog ∣ slot
  /-- the `static_assert` -/
  two_slots : 2 * slot ≤ BlockSize
  size_lt : BlockSize < 2 ^ 64

/-- `alignof(slot_type_)` -/
def Layout.align (L : Layout) : ℕ := 2 ^ L.alignLog

abbrev Mem := ℕ → ℕ

structure MemoryPoolLiteAllocator where
  currentBlock_ : ℕ
  currentSlot_ : ℕ
  lastSlot_ : ℕ
  freeSlots_ : ℕ
  deriving DecidableEq, Repr

/-! ## the code -/

/-- `padPointer`; `size_t` wraps -/
def padPointer (p align : ℕ) : ℕ := (align + (2 ^ 64 - p)) % 2 ^ 64 % align

/-- the address of the first slot of a block -/
def firstSlot (L : Layout) (newBlock : ℕ) : ℕ :=
  newBlock + sizeofPtr + padPointer (newBlock + sizeofPtr) L.align

namespace MemoryPoolLiteAllocator

/-- the default constructor; the copy constructors do the same -/
def new : MemoryPoolLiteAllocator := ⟨0, 0, 0, 0⟩

/-- the move constructor: the new allocator and `other` -/
def moveConstruct (other : MemoryPoolLiteAllocator) :
    MemoryPoolLiteAllocator × MemoryPoolLiteAllocator :=
  ({ new with
      currentBlock_ := other.currentBlock_
      currentSlot_ := other.currentSlot_
      lastSlot_ := other.lastSlot_
      freeSlots_ := other.freeSlots_ },
    { other with currentBlock_ := 0 })

/-- `operator=(MemoryPoolLiteAllocator &&)` for `this != &other`: both allocators afterwards -/
def moveAssign (this other : MemoryPoolLiteAllocator) :
    MemoryPoolLiteAllocator × MemoryPoolLiteAllocator :=
  ({ currentBlock_ := other.currentBlock_
     currentSlot_ := other.currentSlot_
     lastSlot_ := other.lastSlot_
     freeSlots_ := other.freeSlots_ },
    { other with currentBlock_ := this.currentBlock_ })

/-- `allocateBlock`, where `operator new` returns `newBlock` -/
def allocateBlock (L : Layout) (this : MemoryPoolLiteAllocator) (mem : Mem) (newBlock : ℕ) :
    MemoryPoolLiteAllocator × Mem :=
  ({ this with
      currentBlock_ := newBlock
      currentSlot_ := firstSlot L newBlock
      lastSlot_ := newBlock + L.BlockSize - L.slot + 1 },
    Function.update mem newBlock this.currentBlock_)

/-- `allocate` calls `allocateBlock` -/
def NeedsBlock (this : MemoryPoolLiteAllocator) : Prop :=
  this.freeSlots_ = 0 ∧ this.currentSlot_ ≥ this.lastSlot_

instance (this : MemoryPoolLiteAllocator) : Decidable this.NeedsBlock :=
  inferInstanceAs (Decidable (_ ∧ _))

/-- `currentSlot_++` -/
def cut (L : Layout) (this : MemoryPoolLiteAllocator) : ℕ × MemoryPoolLiteAllocator :=
  (this.currentSlot_, { this with currentSlot_ := this.currentSlot_ + L.slot })

/-- `allocate` -/
def allocate (L : Layout) (this : MemoryPoolLiteAllocator) (mem : Mem) (newBlock : ℕ) :
    (ℕ × MemoryPoolLiteAllocator) × Mem :=
  if this.freeSlots_ ≠ 0 then
    ((this.freeSlots_, { this with freeSlots_ := mem this.freeSlots_ }), mem)
  else if this.currentSlot_ ≥ this.lastSlot_ then
    let r := this.allocateBlock L mem newBlock
    (r.1.cut L, r.2)
  else (this.cut L, mem)

/-- `deallocate` -/
def deallocate (this : MemoryPoolLiteAllocator) (mem : Mem) (p : ℕ) : MemoryPoolLiteAllocator × Mem :=
  if p ≠ 0 then ({ this with freeSlots_ := p }, Function.update mem p this.freeSlots_)
  else (this, mem)

end MemoryPoolLiteAllocator

/-! ## the runs -/

/-- the allocators, the blocks that are not deleted and the slots that are in use -/
structure State (Id : Type*) where
  pools : Id → Option MemoryPoolLiteAllocator
  mem : Mem
  blocks : List ℕ
  live : List ℕ

/-- the region of a block -/
def Layout.block (L : Layout) (b : ℕ) : Region := ⟨b, L.BlockSize⟩

/-- the region of a slot -/
def Layout.region (L : Layout) (p : ℕ) : Region := ⟨p, L.slot⟩

/-- the blocks that the loop of the destructor visits -/
def chainOf (s : State Id) (a : MemoryPoolLiteAllocator) : List ℕ :=
  follow 0 s.mem s.blocks.length a.currentBlock_

/-- what `operator new(BlockSize)` may return -/
structure Fresh (L : Layout) (s : State Id) (newBlock : ℕ) : Prop where
  ne_null : newBlock ≠ 0
  aligned : 16 ∣ newBlock
  fits : newBlock + L.BlockSize ≤ 2 ^ 64
  apart : ∀ b ∈ s.blocks, (L.block newBlock).Apart (L.block b)

instance (L : Layout) (s : State Id) (newBlock : ℕ) : Decidable (Fresh L s newBlock) :=
  decidable_of_iff (newBlock ≠ 0 ∧ 16 ∣ newBlock ∧ newBlock + L.BlockSize ≤ 2 ^ 64 ∧
      ∀ b ∈ s.blocks, (L.block newBlock).Apart (L.block b))
    ⟨fun ⟨h1, h2, h3, h4⟩ => ⟨h1, h2, h3, h4⟩, fun h => ⟨h.1, h.2, h.3, h.4⟩⟩

/-- the chain of the allocator has the block of the slot -/
def Owns (L : Layout) (s : State Id) (a : MemoryPoolLiteAllocator) (p : ℕ) : Prop :=
  ∃ b ∈ chainOf s a, b ≤ p ∧ p < b + L.BlockSize

instance (L : Layout) (s : State Id) (a : MemoryPoolLiteAllocator) (p : ℕ) :
    Decidable (Owns L s a p) := inferInstanceAs (Decidable (∃ b ∈ _, _ ∧ _))

inductive Act (Id : Type*) where
  | construct (i : Id)
  | moveConstruct (i j : Id)
  | moveAssign (i j : Id)
  | allocate (i : Id) (newBlock : ℕ)
  | deallocate (i : Id) (p : ℕ)
  /-- the user stores `v` in a live slot -/
  | write (p v : ℕ)
  | destroy (i : Id)
  deriving DecidableEq, Repr

namespace State

def setPool (s : State Id) (i : Id) (a : Option MemoryPoolLiteAllocator) : State Id :=
  { s with pools := Function.update s.pools i a }

/-- `allocate` -/
def allocate (L : Layout) (s : State Id) (i : Id) (a : MemoryPoolLiteAllocator) (newBlock : ℕ) :
    State Id where
  pools := Function.update s.pools i (some (a.allocate L s.mem newBlock).1.2)
  mem := (a.allocate L s.mem newBlock).2
  blocks := if a.NeedsBlock then newBlock :: s.blocks else s.blocks
  live := (a.allocate L s.mem newBlock).1.1 :: s.live

/-- `deallocate` -/
def deallocate (s : State Id) (i : Id) (a : MemoryPoolLiteAllocator) (p : ℕ) : State Id where
  pools := Function.update s.pools i (some (a.deallocate s.mem p).1)
  mem := (a.deallocate s.mem p).2
  blocks := s.blocks
  live := s.live.erase p

/-- the destructor deletes the blocks of the chain; a slot in them is not live any more -/
def destroy (L : Layout) (s : State Id) (i : Id) (a : MemoryPoolLiteAllocator) : State Id where
  pools := Function.update s.pools i none
  mem := s.mem
  blocks := s.blocks.filter (· ∉ chainOf s a)
  live := s.live.filter (¬ Owns L s a ·)

end State

def step (L : Layout) (s : State Id) : Act Id → Option (State Id)
  | .construct i => if s.pools i = none then some (s.setPool i (some .new)) else none
  | .moveConstruct i j =>
    match s.pools i, s.pools j with
    | none, some other =>
      some ((s.setPool i (some other.moveConstruct.1)).setPool j (some other.moveConstruct.2))
    | _, _ => none
  | .moveAssign i j =>
    match s.pools i, s.pools j with
    | some this, some other =>
      if i ≠ j then
        some ((s.setPool i (some (this.moveAssign other).1)).setPool j
          (some (this.moveAssign other).2))
      else some s
    | _, _ => none
  | .allocate i newBlock =>
    match s.pools i with
    | some a =>
      if a.NeedsBlock → Fresh L s newBlock then some (s.allocate L i a newBlock) else none
    | none => none
  | .deallocate i p =>
    match s.pools i with
    | some a => if p ∈ s.live ∧ Owns L s a p then some (s.deallocate i a p) else none
    | none => none
  | .write p v =>
    if p ∈ s.live then some { s with mem := Function.update s.mem p v } else none
  | .destroy i =>
    match s.pools i with
    | some a => some (s.destroy L i a)
    | none => none

def machine (Id : Type*) [DecidableEq Id] (L : Layout) : Machine (State Id) (Act Id) :=
  ⟨⟨fun _ => none, fun _ => 0, [], []⟩, step L⟩

end PoolAllocator
end CppCores
