import Mathlib.Order.Lattice
import Mathlib.Data.List.Nodup
import Mathlib.Data.List.Pairwise
import Mathlib.Data.List.Perm.Basic
import Mathlib.Tactic.Common

/-!
# Ordered sets of elements with a key

An ordered set is the list of its elements in the order of their keys, `Sorted key l`; an iterator
is a position in it, the pair of the elements before it and from it on.  The operations are those
of an ordered set that compares its elements by key at the time of the call: `lower_bound`,
`find`, `insert`, `erase`.

* `find_mem`                       what `find` answers: the element, with what is before and behind it;
* `insert_perm`, `insert_sorted`   inserting an element with a new key adds it and keeps the order;
* `insert_front`                   an element that is not inserted at the front has a smaller one before it.
-/

set_option linter.unusedSectionVars false

namespace CppCores
namespace OrderedSet

/-- a position in a set: what is before it, and what is from it on -/
abbrev Iter (α : Type*) := List α × List α

section
variable {α κ : Type*} [LinearOrder κ] (key : α → κ)

def Sorted (l : List α) : Prop := l.Pairwise fun a b => key a < key b

/-- the first position whose key is not less than `k` -/
def lower_bound (k : κ) (l : List α) : Iter α :=
  (l.takeWhile fun a => decide (key a < k), l.dropWhile fun a => decide (key a < k))

/-- the position of the element with key `k`, or the end -/
def find (k : κ) (l : List α) : Iter α :=
  match (lower_bound key k l).2 with
  | [] => (l, [])
  | a :: _ => if k < key a then (l, []) else lower_bound key k l

/-- insert `x` unless its key is there; the position of the element with that key, in the new set -/
def insert (x : α) (l : List α) : Iter α :=
  let it := lower_bound key (key x) l
  match it.2 with
  | [] => (it.1, [x])
  | a :: _ => if key x < key a then (it.1, x :: it.2) else it

/-- the elements of the set in which the position is -/
def Iter.toList (it : Iter α) : List α := it.1 ++ it.2

/-- take out the element at the position -/
def erase (it : Iter α) : List α := it.1 ++ it.2.tail

end

section
variable {α κ : Type*} [LinearOrder κ] {key : α → κ} {l : List α} {k : κ}

theorem Sorted.nodup (h : Sorted key l) : l.Nodup := by
  refine List.Pairwise.imp ?_ h
  rintro a _ hlt rfl
  exact lt_irrefl _ hlt

theorem Sorted.sublist {l' : List α} (h : Sorted key l) (hs : l'.Sublist l) : Sorted key l' :=
  List.Pairwise.sublist hs h

theorem Sorted.eq_of_key (h : Sorted key l) {a b : α} (ha : a ∈ l) (hb : b ∈ l)
    (hk : key a = key b) : a = b := by
  induction l with
  | nil => exact absurd ha List.not_mem_nil
  | cons c l ih =>
    obtain ⟨hc, hl⟩ := List.pairwise_cons.mp h
    rcases List.mem_cons.mp ha with rfl | ha' <;> rcases List.mem_cons.mp hb with rfl | hb'
    · rfl
    · exact absurd hk (hc b hb').ne
    · exact absurd hk (hc a ha').ne'
    · exact ih hl ha' hb'

/-- changing the keys of other elements does not matter -/
theorem Sorted.congr {key' : α → κ} (h : Sorted key l) (hk : ∀ a ∈ l, key' a = key a) :
    Sorted key' l := by
  refine List.Pairwise.imp_of_mem (fun {a b} ha hb hlt => ?_) h
  rw [hk a ha, hk b hb]
  exact hlt

/-! ## `lower_bound` -/

theorem lower_bound_append (k : κ) (l : List α) :
    (lower_bound key k l).1 ++ (lower_bound key k l).2 = l := List.takeWhile_append_dropWhile

theorem lower_bound_lt {a : α} (ha : a ∈ (lower_bound key k l).1) : key a < k :=
  of_decide_eq_true (List.all_eq_true.mp List.all_takeWhile a ha)

theorem lower_bound_ge (h : Sorted key l) {a : α} (ha : a ∈ (lower_bound key k l).2) :
    k ≤ key a := by
  induction l with
  | nil => exact absurd ha List.not_mem_nil
  | cons b l ih =>
    obtain ⟨hb, hl⟩ := List.pairwise_cons.mp h
    unfold lower_bound at ha
    rw [List.dropWhile_cons] at ha
    by_cases hlt : key b < k
    · rw [if_pos (decide_eq_true hlt)] at ha
      exact ih hl ha
    · rw [if_neg (by simpa using hlt)] at ha
      have hkb : k ≤ key b := not_lt.mp hlt
      rcases List.mem_cons.mp ha with rfl | ha
      · exact hkb
      · exact hkb.trans (hb a ha).le

/-! ## `find` and `erase` -/

theorem find_mem (h : Sorted key l) {a : α} (ha : a ∈ l) :
    ∃ b c, find key (key a) l = (b, a :: c) ∧ l = b ++ a :: c := by
  have happ := @lower_bound_append _ _ _ key (key a) l
  have hmem : a ∈ (lower_bound key (key a) l).2 := by
    rw [← happ] at ha
    rcases List.mem_append.mp ha with hl | hr
    · exact absurd (lower_bound_lt hl) (lt_irrefl _)
    · exact hr
  cases hlb : (lower_bound key (key a) l).2 with
  | nil =>
    rw [hlb] at hmem
    exact absurd hmem List.not_mem_nil
  | cons x c =>
    have hx : x ∈ (lower_bound key (key a) l).2 := by rw [hlb]; exact List.mem_cons_self
    have hxl : x ∈ l := by rw [← happ]; exact List.mem_append_right _ hx
    -- the rest of the set is sorted, so nothing is before `a` there
    have hle : key x ≤ key a := by
      have hs : Sorted key (x :: c) := by
        rw [← hlb]
        exact h.sublist (List.dropWhile_sublist _)
      rw [hlb] at hmem
      rcases List.mem_cons.mp hmem with rfl | hm
      · exact le_refl _
      · exact ((List.pairwise_cons.mp hs).1 a hm).le
    have hk : key x = key a := le_antisymm hle (lower_bound_ge h hx)
    obtain rfl := h.eq_of_key hxl (by rw [← happ]; exact List.mem_append_right _ hmem) hk
    refine ⟨(lower_bound key (key x) l).1, c, ?_, ?_⟩
    · unfold find
      rw [hlb]
      show (if key x < key x then (l, []) else lower_bound key (key x) l) = _
      rw [if_neg (lt_irrefl _), ← hlb]
    · rw [← hlb, happ]

/-! ## `insert` -/

section
variable {x : α}

/-- an element with a new key goes between the smaller and the larger ones -/
theorem insert_eq (h : Sorted key l) (hx : ∀ a ∈ l, key a ≠ key x) :
    insert key x l = ((lower_bound key (key x) l).1, x :: (lower_bound key (key x) l).2) := by
  unfold insert
  cases hlb : (lower_bound key (key x) l).2 with
  | nil => simp only [hlb]
  | cons a c =>
    have ha : a ∈ (lower_bound key (key x) l).2 := by rw [hlb]; exact List.mem_cons_self
    have hal : a ∈ l := by
      rw [← @lower_bound_append _ _ _ key (key x) l]
      exact List.mem_append_right _ ha
    have hlt : key x < key a := lt_of_le_of_ne (lower_bound_ge h ha) (hx a hal).symm
    simp only [hlb, if_pos hlt]

theorem insert_perm (h : Sorted key l) (hx : ∀ a ∈ l, key a ≠ key x) :
    (insert key x l).toList.Perm (x :: l) := by
  rw [insert_eq h hx]
  refine List.perm_middle.trans ?_
  rw [lower_bound_append]

theorem mem_insert (h : Sorted key l) (hx : ∀ a ∈ l, key a ≠ key x) {a : α} :
    a ∈ (insert key x l).toList ↔ a = x ∨ a ∈ l := by
  rw [(insert_perm h hx).mem_iff, List.mem_cons]

theorem insert_sorted (h : Sorted key l) (hx : ∀ a ∈ l, key a ≠ key x) :
    Sorted key (insert key x l).toList := by
  have happ := @lower_bound_append _ _ _ key (key x) l
  have hl : Sorted key ((lower_bound key (key x) l).1 ++ (lower_bound key (key x) l).2) := by
    rw [happ]; exact h
  obtain ⟨h1, h2, h3⟩ := List.pairwise_append.mp hl
  rw [insert_eq h hx]
  refine List.pairwise_append.mpr ⟨h1, List.pairwise_cons.mpr ⟨fun a ha => ?_, h2⟩, ?_⟩
  · have hal : a ∈ l := by rw [← happ]; exact List.mem_append_right _ ha
    exact lt_of_le_of_ne (lower_bound_ge h ha) (hx a hal).symm
  · intro a ha b hb
    rcases List.mem_cons.mp hb with rfl | hb
    · exact lower_bound_lt ha
    · exact h3 a ha b hb

/-- an element that does not go to the front has the first one before it -/
theorem insert_front (h : Sorted key l) (hx : ∀ a ∈ l, key a ≠ key x)
    (hf : (insert key x l).1 ≠ []) : ∃ a ∈ l, key a < key x := by
  rw [insert_eq h hx] at hf
  obtain ⟨a, ha⟩ := List.exists_mem_of_ne_nil _ hf
  refine ⟨a, ?_, lower_bound_lt ha⟩
  rw [← @lower_bound_append _ _ _ key (key x) l]
  exact List.mem_append_left _ ha

end
end
end OrderedSet
end CppCores
