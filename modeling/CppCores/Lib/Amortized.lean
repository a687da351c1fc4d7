import Mathlib.Data.List.Basic
import Mathlib.Algebra.BigOperators.Group.List.Basic
import Mathlib.Algebra.Ring.Nat
import Mathlib.Tactic.Common
import CppCores.Lib.Machine

/-!
# Costs of a run, paid step by step

Every label `l` of a machine costs `cost l` and brings `pay l`; a state is in debt by `debt s`, and has
earned `earned s` on the way to it.

* `exec_amortized`    when each step is paid by what it brings and by what is earned in it, so is a run;
* `exec_mono`         what no step lowers, no run lowers.
-/

namespace CppCores
namespace Machine
variable {σ ℓ : Type*} {M : Machine σ ℓ} {ok : σ → ℓ → Prop} [∀ s l, Decidable (ok s l)]
  {I : σ → Prop} {s s' : σ}

theorem execIf_cons {l : ℓ} {ls : List ℓ} (h : M.execIf ok s (l :: ls) = some s') :
    ok s l ∧ ∃ s1, M.step s l = some s1 ∧ M.execIf ok s1 ls = some s' := by
  rw [execIf] at h
  obtain ⟨hok, h⟩ := Option.ite_none_right_eq_some.mp h
  exact ⟨hok, Option.bind_eq_some_iff.mp h⟩

/-- **A run is paid when its steps are.** -/
theorem exec_amortized {cost pay : ℓ → ℕ} {debt earned : σ → ℕ}
    (hI : ∀ s l s', I s → ok s l → M.step s l = some s' → I s')
    (hpay : ∀ s l s', I s → ok s l → M.step s l = some s' →
      cost l + debt s' + earned s ≤ debt s + pay l + earned s')
    (ls : List ℓ) (hs : I s) (he : M.execIf ok s ls = some s') :
    (ls.map cost).sum + debt s' + earned s ≤ debt s + (ls.map pay).sum + earned s' := by
  induction ls generalizing s with
  | nil =>
    obtain rfl := Option.some.inj he
    simp
  | cons l ls ih =>
    obtain ⟨hok, s1, hst, he⟩ := execIf_cons he
    have h1 := hpay s l s1 hs hok hst
    have h2 := ih (hI s l s1 hs hok hst) he
    rw [List.map_cons, List.map_cons, List.sum_cons, List.sum_cons]
    omega

theorem exec_mono {f : σ → ℕ} (hI : ∀ s l s', I s → ok s l → M.step s l = some s' → I s')
    (hf : ∀ s l s', I s → ok s l → M.step s l = some s' → f s ≤ f s') (ls : List ℓ) (hs : I s)
    (he : M.execIf ok s ls = some s') : f s ≤ f s' := by
  induction ls generalizing s with
  | nil => exact Option.some.inj he ▸ Nat.le_refl _
  | cons l ls ih =>
    obtain ⟨hok, s1, hst, he⟩ := execIf_cons he
    exact Nat.le_trans (hf s l s1 hs hok hst) (ih (hI s l s1 hs hok hst) he)

/-- the sum of a cost that is 1 on some labels and 0 on the others -/
theorem sum_ite (p : ℓ → Bool) (k : ℕ) (ls : List ℓ) :
    (ls.map fun l => if p l then k else 0).sum = k * ls.countP p := by
  induction ls with
  | nil => rfl
  | cons l ls ih =>
    rw [List.map_cons, List.sum_cons, List.countP_cons, ih, Nat.mul_add]
    split
    · rw [Nat.mul_one, Nat.add_comm]
    · rw [Nat.mul_zero, Nat.zero_add, Nat.add_zero]

end Machine
end CppCores
