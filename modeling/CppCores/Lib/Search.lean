import Mathlib.Order.Bounds.Basic
import Mathlib.Data.Nat.Find
import Mathlib.Tactic.Common

/-!
# Searching: the least and the greatest number with a property, and occurrences in a list

* `leastFrom p lo hi`      the least number from `lo` on, below `hi`, that meets `p`; `lowest_leastFrom`;
* `greatestBelow p hi`     the greatest one below `hi`; `highest_greatestBelow`;
* `Occurs w s i`           the list `w` is in `s` at `i`, with all its elements;
* `findFrom w s pos`       the first occurrence from `pos` on, `findElem p s pos` the first element that
                           meets `p`, `findLast w s` the last occurrence;
* `findFrom_append`        a search that starts behind the first of two parts only sees the second one;
* `findLast_eq_iff`        **a suffix is the last occurrence**, and the last occurrence tells whether
                           there is a suffix.
-/

namespace CppCores

/-! ## least and greatest numbers -/

section
variable {P Q : ℕ → Prop} {o k : Option ℕ}

/-- `o` is the least number with `P`, or nothing if there is none -/
def Lowest (P : ℕ → Prop) : Option ℕ → Prop
  | some i => IsLeast {j | P j} i
  | none => ∀ j, ¬ P j

/-- `o` is the greatest number with `P`, or nothing if there is none -/
def Highest (P : ℕ → Prop) : Option ℕ → Prop
  | some i => IsGreatest {j | P j} i
  | none => ∀ j, ¬ P j

theorem Lowest.congr (hPQ : ∀ j, P j ↔ Q j) (h : Lowest P o) : Lowest Q o := by
  have he : P = Q := funext fun j => propext (hPQ j)
  exact he ▸ h

theorem Highest.congr (hPQ : ∀ j, P j ↔ Q j) (h : Highest P o) : Highest Q o := by
  have he : P = Q := funext fun j => propext (hPQ j)
  exact he ▸ h

theorem Lowest.unique (h : Lowest P o) (h' : Lowest P k) : o = k := by
  cases o with
  | none =>
    cases k with
    | none => rfl
    | some j => exact absurd h'.1 (h j)
  | some i =>
    cases k with
    | none => exact absurd h.1 (h' i)
    | some j => exact congrArg some (IsLeast.unique h h')

theorem Highest.unique (h : Highest P o) (h' : Highest P k) : o = k := by
  cases o with
  | none =>
    cases k with
    | none => rfl
    | some j => exact absurd h'.1 (h j)
  | some i =>
    cases k with
    | none => exact absurd h.1 (h' i)
    | some j => exact congrArg some (IsGreatest.unique h h')

end

section
variable {p q : ℕ → Bool} {lo hi : ℕ}

/-- the least number from `lo` on, below `hi`, that meets `p` -/
def leastFrom (p : ℕ → Bool) (lo hi : ℕ) : Option ℕ := (List.range' lo (hi - lo)).find? p

/-- the greatest number below `hi` that meets `p` -/
def greatestBelow (p : ℕ → Bool) : ℕ → Option ℕ
  | 0 => none
  | n + 1 => if p n then some n else greatestBelow p n

theorem lowest_leastFrom (p : ℕ → Bool) (lo hi : ℕ) :
    Lowest (fun j => lo ≤ j ∧ j < hi ∧ p j = true) (leastFrom p lo hi) := by
  cases h : leastFrom p lo hi with
  | none =>
    intro j hj
    have hnot := List.find?_eq_none.mp h j (List.mem_range'_1.mpr ⟨hj.1, by omega⟩)
    exact hnot hj.2.2
  | some i =>
    obtain ⟨hp, hmem, hbelow⟩ := List.find?_range'_eq_some.mp h
    have hr := List.mem_range'_1.mp hmem
    refine ⟨⟨hr.1, by omega, hp⟩, fun j hj => ?_⟩
    by_contra hlt
    have hf := hbelow j hj.1 (by omega)
    rw [hj.2.2] at hf
    exact absurd hf (by decide)

theorem highest_greatestBelow (p : ℕ → Bool) (hi : ℕ) :
    Highest (fun j => j < hi ∧ p j = true) (greatestBelow p hi) := by
  induction hi with
  | zero =>
    intro j hj
    exact absurd hj.1 (Nat.not_lt_zero j)
  | succ n ih =>
    rw [greatestBelow]
    split
    · rename_i hp
      exact ⟨⟨Nat.lt_succ_self n, hp⟩, fun j hj => Nat.le_of_lt_succ hj.1⟩
    · rename_i hp
      refine Highest.congr (fun j => ?_) ih
      constructor
      · intro hj
        exact ⟨Nat.lt_succ_of_lt hj.1, hj.2⟩
      · intro hj
        have hne : j ≠ n := fun he => hp (he ▸ hj.2)
        exact ⟨by omega, hj.2⟩

theorem leastFrom_congr (h : ∀ j, lo ≤ j → j < hi → p j = q j) :
    leastFrom p lo hi = leastFrom q lo hi := by
  refine (lowest_leastFrom p lo hi).unique (Lowest.congr (fun j => ?_) (lowest_leastFrom q lo hi))
  constructor
  · intro hj
    exact ⟨hj.1, hj.2.1, (h j hj.1 hj.2.1).trans hj.2.2⟩
  · intro hj
    exact ⟨hj.1, hj.2.1, (h j hj.1 hj.2.1).symm.trans hj.2.2⟩

theorem leastFrom_add (p : ℕ → Bool) (n lo hi : ℕ) :
    leastFrom p (n + lo) (n + hi) = (leastFrom (fun j => p (n + j)) lo hi).map (n + ·) := by
  unfold leastFrom
  rw [Nat.add_sub_add_left, ← List.map_add_range', List.find?_map]
  rfl

end

/-! ## occurrences -/

section
variable {α : Type*} {w s : List α} {i : ℕ}

/-- `w` is in `s` at `i` -/
def Occurs (w s : List α) (i : ℕ) : Prop :=
  i + w.length ≤ s.length ∧ (s.drop i).take w.length = w

instance Occurs.decidable [DecidableEq α] (w s : List α) (i : ℕ) : Decidable (Occurs w s i) :=
  inferInstanceAs (Decidable (_ ∧ _))

theorem occurs_iff_append : Occurs w s i ↔ ∃ a b, s = a ++ (w ++ b) ∧ a.length = i := by
  constructor
  · intro h
    obtain ⟨hle, htake⟩ := h
    refine ⟨s.take i, (s.drop i).drop w.length, ?_, ?_⟩
    · have hdrop : s.drop i = w ++ (s.drop i).drop w.length := by
        conv_lhs => rw [← List.take_append_drop w.length (s.drop i), htake]
      rw [← hdrop, List.take_append_drop]
    · rw [List.length_take]
      omega
  · intro h
    obtain ⟨a, b, rfl, rfl⟩ := h
    constructor
    · simp only [List.length_append]
      omega
    · rw [List.drop_left, List.take_left]

theorem occurs_nil : Occurs [] s i ↔ i ≤ s.length :=
  ⟨fun h => h.1, fun h => ⟨h, rfl⟩⟩

theorem occurs_zero : Occurs w s 0 ↔ w <+: s := by
  constructor
  · intro h
    obtain ⟨a, b, rfl, ha⟩ := occurs_iff_append.mp h
    obtain rfl := List.eq_nil_of_length_eq_zero ha
    exact ⟨b, rfl⟩
  · intro h
    obtain ⟨b, rfl⟩ := h
    exact occurs_iff_append.mpr ⟨[], b, rfl, rfl⟩

theorem occurs_singleton {c : α} : Occurs [c] s i ↔ s[i]? = some c := by
  constructor
  · intro h
    obtain ⟨a, b, rfl, rfl⟩ := occurs_iff_append.mp h
    rw [List.getElem?_append_right (Nat.le_refl _), Nat.sub_self]
    rfl
  · intro h
    obtain ⟨hlt, hc⟩ := List.getElem?_eq_some_iff.mp h
    refine ⟨hlt, ?_⟩
    rw [List.drop_eq_getElem_cons hlt, hc]
    rfl

theorem occurs_append (t : List α) : Occurs w (s ++ t) (s.length + i) ↔ Occurs w t i := by
  unfold Occurs
  rw [List.length_append, List.drop_length_add_append, Nat.add_assoc, Nat.add_le_add_iff_left]

/-- an occurrence in the first `n` elements -/
theorem occurs_take {n : ℕ} (hn : n ≤ s.length) :
    Occurs w (s.take n) i ↔ i + w.length ≤ n ∧ Occurs w s i := by
  have hlen : (s.take n).length = n := List.length_take_of_le hn
  have hsame (hle : i + w.length ≤ n) :
      ((s.take n).drop i).take w.length = (s.drop i).take w.length := by
    rw [List.drop_take, List.take_take, Nat.min_eq_left (by omega)]
  unfold Occurs
  rw [hlen]
  constructor
  · intro h
    obtain ⟨hle, htake⟩ := h
    exact ⟨hle, by omega, (hsame hle).symm.trans htake⟩
  · intro h
    obtain ⟨hle, -, htake⟩ := h
    exact ⟨hle, (hsame hle).trans htake⟩

variable [DecidableEq α]

/-- the first occurrence of `w` from `pos` on -/
def findFrom (w s : List α) (pos : ℕ) : Option ℕ :=
  leastFrom (fun i => decide (Occurs w s i)) pos (s.length + 1)

/-- the last occurrence of `w` -/
def findLast (w s : List α) : Option ℕ :=
  greatestBelow (fun i => decide (Occurs w s i)) (s.length + 1)

/-- the first element from `pos` on that meets `p` -/
def findElem (p : α → Bool) (s : List α) (pos : ℕ) : Option ℕ :=
  leastFrom (fun i => s[i]?.any p) pos s.length

theorem lowest_findFrom (w s : List α) (pos : ℕ) :
    Lowest (fun i => pos ≤ i ∧ Occurs w s i) (findFrom w s pos) := by
  refine Lowest.congr (fun i => ?_) (lowest_leastFrom _ pos (s.length + 1))
  constructor
  · intro h
    exact ⟨h.1, of_decide_eq_true h.2.2⟩
  · intro h
    have hle := h.2.1
    exact ⟨h.1, by omega, decide_eq_true h.2⟩

theorem highest_findLast (w s : List α) : Highest (Occurs w s) (findLast w s) := by
  refine Highest.congr (fun i => ?_) (highest_greatestBelow _ (s.length + 1))
  constructor
  · intro h
    exact of_decide_eq_true h.2
  · intro h
    have hle := h.1
    exact ⟨by omega, decide_eq_true h⟩

omit [DecidableEq α] in
theorem lowest_findElem (p : α → Bool) (s : List α) (pos : ℕ) :
    Lowest (fun i => pos ≤ i ∧ ∃ c, s[i]? = some c ∧ p c = true) (findElem p s pos) := by
  refine Lowest.congr (fun i => ?_) (lowest_leastFrom _ pos s.length)
  rw [Option.any_eq_true]
  constructor
  · intro h
    exact ⟨h.1, h.2.2⟩
  · intro h
    obtain ⟨hpos, c, hc, hp⟩ := h
    exact ⟨hpos, (List.getElem?_eq_some_iff.mp hc).1, c, hc, hp⟩

omit [DecidableEq α] in
theorem findElem_lt {p : α → Bool} {pos : ℕ} (h : findElem p s pos = some i) : i < s.length := by
  have hlow := lowest_findElem p s pos
  rw [h] at hlow
  obtain ⟨-, c, hc, -⟩ := hlow.1
  exact (List.getElem?_eq_some_iff.mp hc).1

theorem not_occurs_of_find (h : findFrom w s 0 = none) (i : ℕ) : ¬ Occurs w s i := by
  have hlow := lowest_findFrom w s 0
  rw [h] at hlow
  exact fun hi => hlow i ⟨Nat.zero_le i, hi⟩

theorem findElem_eq_findFrom (c : α) (s : List α) (pos : ℕ) :
    findElem (· == c) s pos = findFrom [c] s pos := by
  refine (lowest_findElem _ s pos).unique (Lowest.congr (fun i => ?_) (lowest_findFrom [c] s pos))
  rw [occurs_singleton]
  constructor
  · intro h
    exact ⟨h.1, c, h.2, beq_self_eq_true c⟩
  · intro h
    obtain ⟨hpos, d, hd, hc⟩ := h
    exact ⟨hpos, hd.trans (congrArg some (eq_of_beq hc))⟩

/-- **A search that starts behind the first of two parts only sees the second one.** -/
theorem findFrom_append (w s t : List α) :
    findFrom w (s ++ t) s.length = (findFrom w t 0).map (s.length + ·) := by
  have hlen : (s ++ t).length + 1 = s.length + (t.length + 1) := by
    rw [List.length_append, Nat.add_assoc]
  have hadd := leastFrom_add (fun i => decide (Occurs w (s ++ t) i)) s.length 0 (t.length + 1)
  unfold findFrom
  rw [hlen]
  refine hadd.trans (congrArg _ (leastFrom_congr fun j _ _ => ?_))
  exact decide_eq_decide.mpr (occurs_append t)

omit [DecidableEq α] in
theorem findElem_append (p : α → Bool) (s t : List α) :
    findElem p (s ++ t) s.length = (findElem p t 0).map (s.length + ·) := by
  have hadd := leastFrom_add (fun i => (s ++ t)[i]?.any p) s.length 0 t.length
  unfold findElem
  rw [List.length_append]
  refine hadd.trans (congrArg _ (leastFrom_congr fun j _ _ => ?_))
  rw [List.getElem?_append_right (Nat.le_add_right _ _), Nat.add_sub_cancel_left]

theorem findFrom_nil {pos : ℕ} (h : pos ≤ s.length) : findFrom [] s pos = some pos := by
  refine (lowest_findFrom [] s pos).unique (k := some pos) ?_
  exact ⟨⟨Nat.le_refl pos, occurs_nil.mpr h⟩, fun j hj => hj.1⟩

omit [DecidableEq α] in
theorem occurs_suffix (h : w.length ≤ s.length) : Occurs w s (s.length - w.length) ↔ w <:+ s := by
  rw [occurs_iff_append]
  constructor
  · intro ho
    obtain ⟨a, b, hs, ha⟩ := ho
    have hlen := congrArg List.length hs
    simp only [List.length_append] at hlen
    have hb : b = [] := List.eq_nil_of_length_eq_zero (by omega)
    exact ⟨a, by rw [hs, hb, List.append_nil]⟩
  · intro ho
    obtain ⟨a, rfl⟩ := ho
    exact ⟨a, [], by rw [List.append_nil], by rw [List.length_append, Nat.add_sub_cancel]⟩

/-- **A suffix is the last occurrence.** -/
theorem findLast_eq_iff (h : w.length ≤ s.length) :
    findLast w s = some (s.length - w.length) ↔ w <:+ s := by
  have hlast := highest_findLast w s
  rw [← occurs_suffix h]
  constructor
  · intro he
    rw [he] at hlast
    exact hlast.1
  · intro ho
    refine hlast.unique (k := some (s.length - w.length)) ⟨ho, fun j hj => ?_⟩
    have hle := hj.1
    omega

end
end CppCores
