import CppCores.Utils.MemoryPoolLite.Allocator

/-!
# MemoryPoolLiteAllocator: the slots of a block

`IsSlot L b p`: `p` is the address of a slot of block `b`, at a whole number of slots from the first
one and inside the block.  `padPointer` leads to the next multiple of the alignment, which in a block
aligned to 16 leaves room for two slots less one link (`isSlot_first`).
-/

namespace CppCores
namespace PoolAllocator
open Region
variable {L : Layout} {b p q : ℕ}

/-! ## padding -/

theorem Layout.slot_pos (L : Layout) : 0 < L.slot := Nat.lt_of_lt_of_le (by decide) L.ptr_le

theorem Layout.align_le (L : Layout) : L.align ≤ L.slot := Nat.le_of_dvd L.slot_pos L.align_dvd

theorem Layout.ptr_le_block (L : Layout) : sizeofPtr ≤ L.BlockSize := by
  have h1 := L.ptr_le
  have h2 := L.two_slots
  omega

theorem Layout.align_dvd_word (L : Layout) : L.align ∣ 2 ^ 64 := by
  refine Nat.pow_dvd_pow 2 (Nat.le_of_lt ?_)
  have h1 := L.align_le
  have h2 := L.two_slots
  have h3 := L.size_lt
  exact (Nat.pow_lt_pow_iff_right (by decide)).mp (show L.align < 2 ^ 64 by omega)

theorem padPointer_eq (L : Layout) (p : ℕ) : padPointer p L.align = (2 ^ 64 - p) % L.align := by
  rw [padPointer, Nat.mod_mod_of_dvd _ L.align_dvd_word, Nat.add_mod_left]

theorem padPointer_lt (L : Layout) (p : ℕ) : padPointer p L.align < L.align :=
  Nat.mod_lt _ (Nat.two_pow_pos _)

/-- **`padPointer` leads to a multiple of the alignment.** -/
theorem dvd_padPointer (L : Layout) (hp : p ≤ 2 ^ 64) : L.align ∣ p + padPointer p L.align := by
  refine Nat.dvd_of_mod_eq_zero ?_
  rw [padPointer_eq, Nat.add_mod_mod, Nat.add_sub_cancel' hp]
  exact Nat.mod_eq_zero_of_dvd L.align_dvd_word

/-- behind the link of a block there is less than a slot of padding -/
theorem padPointer_block (L : Layout) (ha : 16 ∣ b) (hfit : b + L.BlockSize ≤ 2 ^ 64) :
    sizeofPtr + padPointer (b + sizeofPtr) L.align ≤ L.slot := by
  have hp : b + sizeofPtr ≤ 2 ^ 64 := Nat.le_trans (Nat.add_le_add_left L.ptr_le_block b) hfit
  have h8 : 8 ∣ b + sizeofPtr := Nat.dvd_add (Nat.dvd_trans (by decide) ha) (Nat.dvd_refl 8)
  have hdvd := dvd_padPointer L hp
  rcases Nat.le_total L.alignLog 3 with hk | hk
  · -- the link ends at a multiple of the alignment
    have hal : L.align ∣ 2 ^ 64 - (b + sizeofPtr) :=
      Nat.dvd_sub L.align_dvd_word (Nat.dvd_trans (Nat.pow_dvd_pow 2 hk) h8)
    rw [padPointer_eq, Nat.mod_eq_zero_of_dvd hal]
    exact L.ptr_le
  · -- the padding is a multiple of 8 below the alignment
    have h8a : 8 ∣ L.align := Nat.pow_dvd_pow 2 hk
    have hpad : 8 ∣ padPointer (b + sizeofPtr) L.align :=
      (Nat.dvd_add_right h8).mp (Nat.dvd_trans h8a hdvd)
    have hlt := padPointer_lt L (b + sizeofPtr)
    have hle := L.align_le
    obtain ⟨m, hm⟩ := h8a
    obtain ⟨n, hn⟩ := hpad
    rw [hm] at hle
    have hlt : 8 * n < 8 * m := by rw [← hn, ← hm]; exact hlt
    rw [hn]
    show 8 + 8 * n ≤ L.slot
    omega

/-! ## slots -/

structure IsSlot (L : Layout) (b p : ℕ) : Prop where
  first : firstSlot L b ≤ p
  last : p + L.slot ≤ b + L.BlockSize
  step : L.slot ∣ p - firstSlot L b

theorem firstSlot_gt (L : Layout) (b : ℕ) : b < firstSlot L b := by
  rw [firstSlot, sizeofPtr]
  omega

/-- **A block has a first slot.** -/
theorem isSlot_first (L : Layout) (ha : 16 ∣ b) (hfit : b + L.BlockSize ≤ 2 ^ 64) :
    IsSlot L b (firstSlot L b) where
  first := Nat.le_refl _
  last := by
    have h1 := padPointer_block L ha hfit
    have h2 := L.two_slots
    rw [firstSlot]
    omega
  step := by
    rw [Nat.sub_self]
    exact Nat.dvd_zero _

namespace IsSlot

theorem gt (h : IsSlot L b p) : b < p := Nat.lt_of_lt_of_le (firstSlot_gt L b) h.first

theorem within (h : IsSlot L b p) : (L.region p).Within (L.block b) :=
  ⟨Nat.le_of_lt h.gt, h.last⟩

theorem mem (h : IsSlot L b p) : (L.block b).Mem p := by
  refine ⟨Nat.le_of_lt h.gt, ?_⟩
  have h1 := h.last
  have h2 := L.slot_pos
  show p < b + L.BlockSize
  omega

theorem apart (hp : IsSlot L b p) (hq : IsSlot L b q) (hne : p ≠ q) :
    (L.region p).Apart (L.region q) := by
  wlog hlt : p < q generalizing p q
  · exact (this hq hp hne.symm (by omega)).symm
  have hdvd : L.slot ∣ q - p := by
    have h1 := Nat.dvd_sub hq.step hp.step
    have h2 := hp.first
    rwa [show q - firstSlot L b - (p - firstSlot L b) = q - p by omega] at h1
  have hle := Nat.le_of_dvd (by omega) hdvd
  refine (apart_iff _ _).mpr (.inr (.inr (.inl ?_)))
  show p + L.slot ≤ q
  omega

end IsSlot

end PoolAllocator
end CppCores
