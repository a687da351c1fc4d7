import Mathlib.Logic.Equiv.Basic
import Mathlib.Data.List.Basic
import Mathlib.Data.List.Nodup
import Mathlib.Data.List.Perm.Subperm
import Mathlib.Order.Lattice
import Mathlib.Tactic.Common

/-!
# Things shared out among owners

`Shares all part`: every element of `all` is in the part of exactly one owner, and once.

* `Shares.cons`   an owner gets something new;
* `Shares.perm`   the owners change their names, as two that swap what they have;
* `Shares.drop`   an owner goes with what it has.
-/

namespace CppCores

structure Shares {ι β : Type*} (all : List β) (part : ι → List β) : Prop where
  nodup : ∀ i, (part i).Nodup
  mem : ∀ b, b ∈ all ↔ ∃ i, b ∈ part i
  unique : ∀ i j b, b ∈ part i → b ∈ part j → i = j

namespace Shares
variable {ι β : Type*} {all : List β} {part : ι → List β}

theorem empty : Shares ([] : List β) fun _ : ι => [] where
  nodup := fun _ => List.nodup_nil
  mem := fun _ => ⟨nofun, nofun⟩
  unique := nofun

theorem exists_unique (h : Shares all part) {b : β} (hb : b ∈ all) : ∃! i, b ∈ part i := by
  obtain ⟨i, hi⟩ := (h.mem b).mp hb
  exact ⟨i, hi, fun j hj => h.unique j i b hj hi⟩

theorem length_le (h : Shares all part) (i : ι) : (part i).length ≤ all.length :=
  ((h.nodup i).subperm fun b hb => (h.mem b).mpr ⟨i, hb⟩).length_le

theorem perm (h : Shares all part) (σ : Equiv.Perm ι) : Shares all fun i => part (σ i) where
  nodup := fun i => h.nodup (σ i)
  mem := by
    intro b
    rw [h.mem]
    constructor
    · rintro ⟨i, hi⟩
      exact ⟨σ.symm i, by rwa [σ.apply_symm_apply]⟩
    · rintro ⟨i, hi⟩
      exact ⟨σ i, hi⟩
  unique := fun i j b hi hj => σ.injective (h.unique _ _ b hi hj)

variable [DecidableEq ι]

theorem cons (h : Shares all part) (i : ι) {b : β} (hb : b ∉ all) :
    Shares (b :: all) (Function.update part i (b :: part i)) := by
  have hnot : ∀ j, b ∉ part j := fun j hj => hb ((h.mem b).mpr ⟨j, hj⟩)
  have hmem : ∀ j c, c ∈ Function.update part i (b :: part i) j ↔ j = i ∧ c = b ∨ c ∈ part j := by
    intro j c
    obtain rfl | hj := eq_or_ne j i
    · rw [Function.update_self, List.mem_cons]
      simp only [true_and]
    · rw [Function.update_of_ne hj]
      simp only [hj, false_and, false_or]
  refine ⟨fun j => ?_, fun c => ?_, fun j k c hj hk => ?_⟩
  · obtain rfl | hj := eq_or_ne j i
    · rw [Function.update_self]
      exact List.nodup_cons.mpr ⟨hnot j, h.nodup j⟩
    · rw [Function.update_of_ne hj]
      exact h.nodup j
  · rw [List.mem_cons, h.mem]
    constructor
    · rintro (rfl | ⟨j, hj⟩)
      · exact ⟨i, (hmem i c).mpr (.inl ⟨rfl, rfl⟩)⟩
      · exact ⟨j, (hmem j c).mpr (.inr hj)⟩
    · rintro ⟨j, hj⟩
      exact ((hmem j c).mp hj).imp And.right fun hj => ⟨j, hj⟩
  · rcases (hmem j c).mp hj, (hmem k c).mp hk with ⟨⟨rfl, rfl⟩ | hj', ⟨hk1, hk2⟩ | hk'⟩
    · exact hk1.symm
    · exact absurd hk' (hnot k)
    · exact absurd (hk2 ▸ hj') (hnot j)
    · exact h.unique j k c hj' hk'

theorem drop [DecidableEq β] (h : Shares all part) (i : ι) :
    Shares (all.filter (· ∉ part i)) (Function.update part i []) where
  nodup := by
    intro j
    obtain rfl | hj := eq_or_ne j i
    · rw [Function.update_self]
      exact List.nodup_nil
    · rw [Function.update_of_ne hj]
      exact h.nodup j
  mem := by
    intro b
    rw [List.mem_filter, h.mem, decide_eq_true_iff]
    constructor
    · rintro ⟨⟨j, hj⟩, hi⟩
      have hne : j ≠ i := fun e => hi (e ▸ hj)
      exact ⟨j, by rwa [Function.update_of_ne hne]⟩
    · rintro ⟨j, hj⟩
      obtain rfl | hne := eq_or_ne j i
      · rw [Function.update_self] at hj
        exact absurd hj List.not_mem_nil
      · rw [Function.update_of_ne hne] at hj
        exact ⟨⟨j, hj⟩, fun hi => hne (h.unique j i b hj hi)⟩
  unique := by
    intro j k b hj hk
    have hne : ∀ m, b ∈ Function.update part i [] m → m ≠ i := by
      rintro m hm rfl
      rw [Function.update_self] at hm
      exact List.not_mem_nil hm
    rw [Function.update_of_ne (hne j hj)] at hj
    rw [Function.update_of_ne (hne k hk)] at hk
    exact h.unique j k b hj hk

end Shares
end CppCores
