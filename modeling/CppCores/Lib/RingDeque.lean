import CppCores.Lib.Deque
import CppCores.Lib.Ring

/-!
# A bounded double-ended queue kept in a circular buffer

`Holds n cap f lo hi l`: the cells of the positions `lo ≤ i < hi` of a circular buffer `f` of `n`
cells are the content that the log `l` of a queue of capacity `cap ≤ n` leaves.  Each operation on
the queue moves `lo` or `hi` by one (`Holds.pushBack`, `.popBack`, `.popFront`), the answers `full`
and `empty` are right exactly at the two ends of `lo ≤ hi ≤ lo + cap`, and the next free cell can be
written at any time (`Holds.write`).
-/

namespace CppCores

structure Holds {α : Type*} (n cap : ℕ) (f : ℕ → α) (lo hi : ℕ) (l : List (DequeOp α)) : Prop where
  le : lo ≤ hi
  room : hi ≤ lo + cap
  legal : Legal cap l (window f n lo hi)

namespace Holds
variable {α : Type*} {n cap : ℕ} {f : ℕ → α} {lo hi : ℕ} {l : List (DequeOp α)}

theorem start (i : ℕ) : Holds n cap f i i [] :=
  ⟨Nat.le_refl i, Nat.le_add_right _ _, by rw [window_empty f (Nat.le_refl i)]; exact .nil⟩

theorem write (h : Holds n cap f lo hi l) (hn : hi < lo + n) (a : α) :
    Holds n cap (Function.update f (hi % n) a) lo hi l := by
  refine ⟨h.le, h.room, ?_⟩
  rw [window_update f a hn]
  exact h.legal

theorem pushBack (h : Holds n cap f lo hi l) (hr : hi < lo + cap) {a : α} (ha : f (hi % n) = a) :
    Holds n cap f lo (hi + 1) (l ++ [.pushBack a]) := by
  have hle := h.le
  refine ⟨by omega, by omega, ?_⟩
  rw [window_snoc f hle, ha]
  exact .pushBack a h.legal (by rw [window_length]; omega)

theorem full (h : Holds n cap f lo hi l) (hr : lo + cap ≤ hi) :
    Holds n cap f lo hi (l ++ [.full]) :=
  ⟨h.le, h.room, .full h.legal (by rw [window_length]; have := h.room; omega)⟩

theorem popBack (h : Holds n cap f lo (hi + 1) l) (hlo : lo ≤ hi) {a : α} (ha : f (hi % n) = a) :
    Holds n cap f lo hi (l ++ [.popBack a]) := by
  refine ⟨hlo, by have := h.room; omega, ?_⟩
  have hl := h.legal
  rw [window_snoc f hlo, ha] at hl
  exact .popBack a hl

theorem popFront (h : Holds n cap f lo hi l) (hlo : lo < hi) {a : α} (ha : f (lo % n) = a) :
    Holds n cap f (lo + 1) hi (l ++ [.popFront a]) := by
  refine ⟨hlo, by have := h.room; omega, ?_⟩
  have hl := h.legal
  rw [window_cons f hlo, ha] at hl
  exact .popFront a hl

theorem empty (h : Holds n cap f lo hi l) (hlo : hi ≤ lo) :
    Holds n cap f lo hi (l ++ [.empty]) := by
  refine ⟨h.le, h.room, ?_⟩
  have hl := h.legal
  rw [window_empty f hlo] at hl ⊢
  exact .empty hl

end Holds
end CppCores
