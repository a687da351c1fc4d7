import CppCores.Lib.Search

/-!
# A list cut at some of its elements

`cuts p m l` is `l` cut at the first `m` of its elements that meet `p`; these are left out.

* `length_cuts`         one piece more than there are cuts;
* `cuts_clean`          only the last piece may still have an element to cut at;
* `joinWith_cuts`       with the elements that were left out the pieces give back the list;
* `intercalate_cuts`    for cuts at one element this is `List.intercalate`.
-/

namespace CppCores

section
variable {α : Type*} {p : α → Bool}

/-- `l` cut at its first `m` elements that meet `p` -/
def cuts (p : α → Bool) : ℕ → List α → List (List α)
  | 0, l => [l]
  | m + 1, l =>
    match findElem p l 0 with
    | none => [l]
    | some i => l.take i :: cuts p m (l.drop (i + 1))

/-- the pieces one after the other, each but the last with the next of `ds` behind it -/
def joinWith : List (List α) → List α → List α
  | x :: y :: xs, d :: ds => x ++ d :: joinWith (y :: xs) ds
  | xs, _ => xs.flatten

theorem findElem_none {l : List α} (h : findElem p l 0 = none) : ∀ c ∈ l, p c = false := by
  intro c hc
  have hlow := lowest_findElem p l 0
  rw [h] at hlow
  obtain ⟨i, hi⟩ := List.getElem?_of_mem hc
  exact Bool.eq_false_iff.mpr fun hp => hlow i ⟨Nat.zero_le i, c, hi, hp⟩

theorem findElem_some {l : List α} {i : ℕ} (h : findElem p l 0 = some i) :
    ∃ a d b, l = a ++ d :: b ∧ a.length = i ∧ p d = true ∧ ∀ c ∈ a, p c = false := by
  have hlow := lowest_findElem p l 0
  rw [h] at hlow
  obtain ⟨⟨-, d, hd, hp⟩, hleast⟩ := hlow
  obtain ⟨hlt, hget⟩ := List.getElem?_eq_some_iff.mp hd
  refine ⟨l.take i, d, l.drop (i + 1), ?_, ?_, hp, fun c hc => Bool.eq_false_iff.mpr fun hpc => ?_⟩
  · rw [← hget, ← List.drop_eq_getElem_cons hlt, List.take_append_drop]
  · rw [List.length_take]
    omega
  · obtain ⟨j, hj, hjc⟩ := List.mem_take_iff_getElem.mp hc
    have hle := hleast ⟨Nat.zero_le j, c, List.getElem?_eq_some_iff.mpr ⟨by omega, hjc⟩, hpc⟩
    omega

theorem findElem_of_none {l : List α} (h : ∀ c ∈ l, p c = false) : findElem p l 0 = none := by
  refine (lowest_findElem p l 0).unique (k := none) fun i hi => ?_
  obtain ⟨-, c, hc, hp⟩ := hi
  rw [h c (List.mem_of_getElem? hc)] at hp
  exact absurd hp (by decide)

theorem findElem_cut {a b : List α} {d : α} (hd : p d = true) (ha : ∀ c ∈ a, p c = false) :
    findElem p (a ++ d :: b) 0 = some a.length := by
  have hget : (a ++ d :: b)[a.length]? = some d := by
    rw [List.getElem?_append_right (Nat.le_refl _), Nat.sub_self]
    rfl
  refine (lowest_findElem p (a ++ d :: b) 0).unique (k := some a.length)
    ⟨⟨Nat.zero_le _, d, hget, hd⟩, fun j hj => ?_⟩
  obtain ⟨-, c, hc, hpc⟩ := hj
  by_contra hlt
  rw [List.getElem?_append_left (by omega)] at hc
  rw [ha c (List.mem_of_getElem? hc)] at hpc
  exact absurd hpc (by decide)

theorem cuts_of_none {l : List α} (h : ∀ c ∈ l, p c = false) (m : ℕ) : cuts p m l = [l] := by
  cases m with
  | zero => rfl
  | succ m => rw [cuts, findElem_of_none h]

theorem cuts_succ {a b : List α} {d : α} (hd : p d = true) (ha : ∀ c ∈ a, p c = false) (m : ℕ) :
    cuts p (m + 1) (a ++ d :: b) = a :: cuts p m b := by
  rw [cuts, findElem_cut hd ha]
  dsimp only
  rw [List.take_left, List.drop_length_add_append]
  rfl

theorem next_cut (p : α → Bool) (l : List α) :
    (∀ c ∈ l, p c = false) ∨
      ∃ a d b, l = a ++ d :: b ∧ p d = true ∧ ∀ c ∈ a, p c = false := by
  cases h : findElem p l 0 with
  | none => exact .inl (findElem_none h)
  | some i =>
    obtain ⟨a, d, b, hl, -, hd, ha⟩ := findElem_some h
    exact .inr ⟨a, d, b, hl, hd, ha⟩

theorem countP_cut {a b : List α} {d : α} (hd : p d = true) (ha : ∀ c ∈ a, p c = false) :
    (a ++ d :: b).countP p = b.countP p + 1 := by
  rw [List.countP_append, List.countP_cons_of_pos hd,
    List.countP_eq_zero.mpr fun c hc => Bool.eq_false_iff.mp (ha c hc), Nat.zero_add]

theorem filter_cut {a b : List α} {d : α} (hd : p d = true) (ha : ∀ c ∈ a, p c = false) :
    (a ++ d :: b).filter p = d :: b.filter p := by
  rw [List.filter_append, List.filter_cons_of_pos hd,
    List.filter_eq_nil_iff.mpr fun c hc => Bool.eq_false_iff.mp (ha c hc), List.nil_append]

theorem cuts_ne_nil (p : α → Bool) (m : ℕ) (l : List α) : cuts p m l ≠ [] := by
  cases m with
  | zero => exact List.cons_ne_nil l []
  | succ m =>
    rw [cuts]
    split <;> exact List.cons_ne_nil _ _

/-- **There is one piece more than there are cuts.** -/
theorem length_cuts (p : α → Bool) (m : ℕ) (l : List α) :
    (cuts p m l).length = min m (l.countP p) + 1 := by
  induction m generalizing l with
  | zero => rw [Nat.zero_min]; rfl
  | succ m ih =>
    rcases next_cut p l with hnone | ⟨a, d, b, rfl, hd, ha⟩
    · rw [cuts_of_none hnone, List.countP_eq_zero.mpr fun c hc => Bool.eq_false_iff.mp (hnone c hc),
        Nat.min_zero]
      rfl
    · rw [cuts_succ hd ha, countP_cut hd ha, List.length_cons, ih, Nat.succ_min_succ]

/-- **Only the last piece may still have an element to cut at.** -/
theorem cuts_clean (p : α → Bool) (m : ℕ) (l : List α) :
    ∀ x ∈ (cuts p m l).dropLast, ∀ c ∈ x, p c = false := by
  induction m generalizing l with
  | zero => exact fun x hx => absurd hx List.not_mem_nil
  | succ m ih =>
    rcases next_cut p l with hnone | ⟨a, d, b, rfl, hd, ha⟩
    · rw [cuts_of_none hnone]
      exact fun x hx => absurd hx List.not_mem_nil
    · rw [cuts_succ hd ha, List.dropLast_cons_of_ne_nil (cuts_ne_nil p m b)]
      intro x hx
      rcases List.mem_cons.mp hx with rfl | hx
      · exact ha
      · exact ih b x hx

theorem joinWith_cons (x : List α) (d : α) {xs : List (List α)} (hxs : xs ≠ []) (ds : List α) :
    joinWith (x :: xs) (d :: ds) = x ++ d :: joinWith xs ds := by
  cases xs with
  | nil => exact absurd rfl hxs
  | cons y xs => rfl

/-- **The pieces and the elements that were left out give back the list.** -/
theorem joinWith_cuts (p : α → Bool) (m : ℕ) (l : List α) :
    joinWith (cuts p m l) (l.filter p) = l := by
  induction m generalizing l with
  | zero => exact List.flatten_singleton
  | succ m ih =>
    rcases next_cut p l with hnone | ⟨a, d, b, rfl, hd, ha⟩
    · rw [cuts_of_none hnone]
      exact List.flatten_singleton
    · rw [cuts_succ hd ha, filter_cut hd ha, joinWith_cons a d (cuts_ne_nil p m b), ih]

theorem joinWith_replicate (c : α) (xs : List (List α)) {n : ℕ} (h : xs.length ≤ n + 1) :
    joinWith xs (List.replicate n c) = [c].intercalate xs := by
  induction xs generalizing n with
  | nil => cases n <;> rfl
  | cons x xs ih =>
    cases xs with
    | nil => cases n <;> rfl
    | cons y xs =>
      cases n with
      | zero => exact absurd h (by simp)
      | succ n =>
        have hxs : (y :: xs).length ≤ n + 1 := Nat.le_of_succ_le_succ h
        rw [List.replicate_succ, joinWith_cons x c (List.cons_ne_nil y xs), ih hxs]
        simp [List.intercalate]

/-- **Pieces that were cut at one element are joined by it.** -/
theorem intercalate_cuts [DecidableEq α] (c : α) (m : ℕ) (l : List α) :
    [c].intercalate (cuts (· == c) m l) = l := by
  have hlen : (cuts (· == c) m l).length ≤ l.count c + 1 := by
    rw [length_cuts]
    exact Nat.succ_le_succ (Nat.min_le_right _ _)
  rw [← joinWith_replicate c _ hlen, ← List.filter_beq, joinWith_cuts]

end
end CppCores
