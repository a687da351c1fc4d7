import Mathlib.Logic.Equiv.Basic
import Mathlib.Order.Lattice
import Mathlib.Tactic.Common

/-!
# Ledgers of owned resources

Owners adopt resources, which are numbered in the order of adoption; an owner closes, releases or
passes on what it owns.  `closed k` counts how often resource `k` was closed.

* `Ledger.Ok l`   each resource is owned by one owner, or was closed once, or was released;
* `Ok.adopt`, `Ok.close`, `Ok.release`, `Ok.move`   every operation keeps it, adopting and moving only
                  to an owner that owns nothing.
-/

namespace CppCores

structure Ledger (ι : Type*) where
  owner : ι → Option ℕ
  next : ℕ
  closed : ℕ → ℕ
  released : ℕ → Bool

namespace Ledger
variable {ι : Type*} [DecidableEq ι]

def adopt (l : Ledger ι) (i : ι) : Ledger ι :=
  { l with owner := Function.update l.owner i (some l.next), next := l.next + 1 }

def close (l : Ledger ι) (i : ι) : Ledger ι :=
  match l.owner i with
  | none => l
  | some k =>
    { l with
      owner := Function.update l.owner i none
      closed := Function.update l.closed k (l.closed k + 1) }

def release (l : Ledger ι) (i : ι) : Ledger ι :=
  match l.owner i with
  | none => l
  | some k =>
    { l with
      owner := Function.update l.owner i none
      released := Function.update l.released k true }

/-- `i` takes over what `j` owns -/
def move (l : Ledger ι) (i j : ι) : Ledger ι :=
  { l with owner := Function.update (Function.update l.owner i (l.owner j)) j none }

omit [DecidableEq ι] in
/-- owned by one, or closed once, or released -/
structure Ok (l : Ledger ι) : Prop where
  unique : ∀ i j k, l.owner i = some k → l.owner j = some k → i = j
  owned : ∀ i k, l.owner i = some k → k < l.next ∧ l.closed k = 0 ∧ l.released k = false
  kept : ∀ k < l.next, l.released k = false → l.closed k = 0 → ∃ i, l.owner i = some k
  once : ∀ k, l.closed k ≤ 1
  never : ∀ k, l.released k = true → l.closed k = 0
  later : ∀ k, l.next ≤ k → l.closed k = 0 ∧ l.released k = false

namespace Ok
variable {l : Ledger ι}

theorem adopt (h : Ok l) {i : ι} (hi : l.owner i = none) : Ok (l.adopt i) where
  unique := by
    intro a b k ha hb
    have hnew : ∀ c, l.owner c ≠ some l.next := by
      intro c hc
      exact Nat.lt_irrefl _ (h.owned c _ hc).1
    rcases eq_or_ne a i with rfl | hai <;> rcases eq_or_ne b a with rfl | hba
    · rfl
    · simp only [Ledger.adopt, Function.update_self, Function.update_of_ne hba] at ha hb
      rw [← ha] at hb
      exact absurd hb (hnew b)
    · rfl
    · rcases eq_or_ne b i with rfl | hbi
      · simp only [Ledger.adopt, Function.update_self, Function.update_of_ne hai] at ha hb
        rw [← hb] at ha
        exact absurd ha (hnew a)
      · simp only [Ledger.adopt, Function.update_of_ne hai, Function.update_of_ne hbi] at ha hb
        exact h.unique a b k ha hb
  owned := by
    intro a k ha
    rcases eq_or_ne a i with rfl | hai
    · simp only [Ledger.adopt, Function.update_self] at ha
      obtain rfl := Option.some.inj ha
      exact ⟨Nat.lt_succ_self _, h.later _ (Nat.le_refl _)⟩
    · simp only [Ledger.adopt, Function.update_of_ne hai] at ha
      obtain ⟨h1, h2⟩ := h.owned a k ha
      exact ⟨Nat.lt_succ_of_lt h1, h2⟩
  kept := by
    intro k hk hr hc
    rcases Nat.lt_or_ge k l.next with hlt | hge
    · obtain ⟨a, ha⟩ := h.kept k hlt hr hc
      have hai : a ≠ i := by
        rintro rfl
        rw [hi] at ha
        cases ha
      exact ⟨a, (Function.update_of_ne hai ..).trans ha⟩
    · have hk : k < l.next + 1 := hk
      obtain rfl : k = l.next := by omega
      exact ⟨i, Function.update_self ..⟩
  once := h.once
  never := h.never
  later := fun k hk => h.later k (Nat.le_of_succ_le hk)

theorem owner_drop (h : Ok l) {i : ι} {k : ℕ} (hi : l.owner i = some k) {a : ι} {m : ℕ} :
    Function.update l.owner i none a = some m ↔ l.owner a = some m ∧ m ≠ k := by
  rcases eq_or_ne a i with rfl | hai
  · rw [Function.update_self, hi]
    exact ⟨nofun, fun ⟨h1, h2⟩ => absurd (Option.some.inj h1).symm h2⟩
  · rw [Function.update_of_ne hai]
    refine ⟨fun ha => ⟨ha, ?_⟩, And.left⟩
    rintro rfl
    exact hai (h.unique a i m ha hi)

theorem drop (h : Ok l) {i : ι} {k : ℕ} (hi : l.owner i = some k) {closed : ℕ → ℕ}
    {released : ℕ → Bool} (hc : ∀ m, m ≠ k → closed m = l.closed m)
    (hr : ∀ m, m ≠ k → released m = l.released m)
    (hk : closed k = 1 ∧ released k = false ∨ closed k = 0 ∧ released k = true) :
    Ok { l with owner := Function.update l.owner i none, closed := closed, released := released } where
  unique := by
    intro a b m ha hb
    exact h.unique a b m ((h.owner_drop hi).mp ha).1 ((h.owner_drop hi).mp hb).1
  owned := by
    intro a m ha
    obtain ⟨h1, h2⟩ := (h.owner_drop hi).mp ha
    obtain ⟨h3, h4, h5⟩ := h.owned a m h1
    exact ⟨h3, (hc m h2).trans h4, (hr m h2).trans h5⟩
  kept := by
    intro m hm hrm hcm
    have hne : m ≠ k := by
      rintro rfl
      rcases hk with ⟨h1, -⟩ | ⟨-, h1⟩
      · exact absurd (hcm.symm.trans h1) nofun
      · exact absurd (hrm.symm.trans h1) nofun
    obtain ⟨a, ha⟩ := h.kept m hm ((hr m hne).symm.trans hrm) ((hc m hne).symm.trans hcm)
    exact ⟨a, (h.owner_drop hi).mpr ⟨ha, hne⟩⟩
  once := by
    intro m
    show closed m ≤ 1
    rcases eq_or_ne m k with rfl | hne
    · rcases hk with ⟨h1, -⟩ | ⟨h1, -⟩ <;> omega
    · rw [hc m hne]
      exact h.once m
  never := by
    intro m hm
    rcases eq_or_ne m k with rfl | hne
    · rcases hk with ⟨-, h1⟩ | ⟨h1, -⟩
      · exact absurd (h1.symm.trans hm) nofun
      · exact h1
    · exact (hc m hne).trans (h.never m ((hr m hne).symm.trans hm))
  later := by
    intro m hm
    have hlt : k < l.next := (h.owned i k hi).1
    have hm : l.next ≤ m := hm
    have hne : m ≠ k := by omega
    obtain ⟨h1, h2⟩ := h.later m hm
    exact ⟨(hc m hne).trans h1, (hr m hne).trans h2⟩

theorem close (h : Ok l) (i : ι) : Ok (l.close i) := by
  rw [Ledger.close]
  split
  · exact h
  · next k hi =>
    obtain ⟨-, hc, hr⟩ := h.owned i k hi
    refine h.drop hi (fun m hm => Function.update_of_ne hm ..) (fun _ _ => rfl) (.inl ⟨?_, hr⟩)
    rw [Function.update_self, hc]

theorem release (h : Ok l) (i : ι) : Ok (l.release i) := by
  rw [Ledger.release]
  split
  · exact h
  · next k hi =>
    obtain ⟨-, hc, -⟩ := h.owned i k hi
    refine h.drop hi (fun _ _ => rfl) (fun m hm => Function.update_of_ne hm ..) (.inr ⟨hc, ?_⟩)
    rw [Function.update_self]

omit [DecidableEq ι] in
theorem perm (h : Ok l) (σ : Equiv.Perm ι) : Ok { l with owner := fun i => l.owner (σ i) } where
  unique := fun i j k hi hj => σ.injective (h.unique _ _ k hi hj)
  owned := fun i => h.owned (σ i)
  kept := by
    intro k hk hr hc
    obtain ⟨i, hi⟩ := h.kept k hk hr hc
    refine ⟨σ.symm i, ?_⟩
    show l.owner (σ (σ.symm i)) = some k
    rw [σ.apply_symm_apply, hi]
  once := h.once
  never := h.never
  later := h.later

theorem move (h : Ok l) {i j : ι} (hi : l.owner i = none) : Ok (l.move i j) := by
  have hswap : (l.move i j).owner = fun a => l.owner (Equiv.swap i j a) := by
    funext a
    rw [Ledger.move]
    rcases eq_or_ne a j with rfl | haj
    · rw [Equiv.swap_apply_right, hi]
      exact Function.update_self ..
    rcases eq_or_ne a i with rfl | hai
    · rw [Equiv.swap_apply_left]
      exact (Function.update_of_ne haj ..).trans (Function.update_self ..)
    · rw [Equiv.swap_apply_of_ne_of_ne hai haj]
      exact (Function.update_of_ne haj ..).trans (Function.update_of_ne hai ..)
  have := h.perm (Equiv.swap i j)
  rw [← hswap] at this
  exact this

end Ok
end Ledger
end CppCores
