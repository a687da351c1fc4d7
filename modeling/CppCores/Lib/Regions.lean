import Mathlib.Data.List.Basic
import Mathlib.Order.Lattice
import Mathlib.Tactic.Common

/-!
# Regions of memory

A `Region` is a base and a size; its addresses are `base ≤ a < base + size`.

* `Within r q`    the interval of `r` lies in the one of `q`;
* `Apart r q`     no address is in both; a region of size 0 is apart from every other;
* `Apart.within`  parts of regions that are apart are apart.
-/

namespace CppCores

structure Region where
  base : ℕ
  size : ℕ
  deriving DecidableEq, Repr

namespace Region

def Mem (a : ℕ) (r : Region) : Prop := r.base ≤ a ∧ a < r.base + r.size

def Within (r q : Region) : Prop := q.base ≤ r.base ∧ r.base + r.size ≤ q.base + q.size

/-- no address is in both -/
def Apart (r q : Region) : Prop := ∀ a, Mem a r → ¬ Mem a q

theorem Within.refl (r : Region) : Within r r := ⟨Nat.le_refl _, Nat.le_refl _⟩

theorem Within.trans {r q p : Region} (h : Within r q) (h' : Within q p) : Within r p :=
  ⟨Nat.le_trans h'.1 h.1, Nat.le_trans h.2 h'.2⟩

theorem Within.mem {r q : Region} (h : Within r q) {a : ℕ} (ha : Mem a r) : Mem a q :=
  ⟨Nat.le_trans h.1 ha.1, Nat.lt_of_lt_of_le ha.2 h.2⟩

theorem Apart.symm {r q : Region} (h : Apart r q) : Apart q r := fun a hq hr => h a hr hq

theorem Apart.within {r q r' q' : Region} (h : Apart r' q') (hr : Within r r')
    (hq : Within q q') : Apart r q := fun a h1 h2 => h a (hr.mem h1) (hq.mem h2)

theorem apart_of_empty {r : Region} (h : r.size = 0) (q : Region) : Apart r q := by
  intro a ha _
  have := ha.1
  have := ha.2
  omega

theorem apart_split (base n m : ℕ) : Apart ⟨base, n⟩ ⟨base + n, m⟩ := by
  intro a h1 h2
  exact Nat.lt_irrefl a (Nat.lt_of_lt_of_le h1.2 h2.1)

theorem apart_iff (r q : Region) :
    Apart r q ↔ r.size = 0 ∨ q.size = 0 ∨ r.base + r.size ≤ q.base ∨ q.base + q.size ≤ r.base := by
  constructor
  · intro h
    by_contra hno
    -- the larger of the two bases is in both
    rcases Nat.le_total r.base q.base with hb | hb
    · exact h q.base ⟨hb, by omega⟩ ⟨Nat.le_refl _, by omega⟩
    · exact h r.base ⟨Nat.le_refl _, by omega⟩ ⟨hb, by omega⟩
  · rintro h a ⟨h1, h2⟩ ⟨h3, h4⟩
    omega

instance (r q : Region) : Decidable (Apart r q) := decidable_of_iff' _ (apart_iff r q)

end Region
end CppCores
