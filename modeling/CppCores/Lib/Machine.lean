import Mathlib.Logic.Function.Basic
import Mathlib.Data.List.Basic
import Mathlib.Tactic.Common

/-!
# Machines: a start state and labelled partial steps

A `Machine σ ℓ` is a program seen from outside: one start state and a partial step function
`step : σ → ℓ → Option σ`.  Everything that is not decided by the state (which thread moves, an
argument, a clock reading, the answer of a system call) is in the label, so that a run is a list
of labels and `exec` evaluates it.

* `M.Reach ok s`       `s` is reached by a run all of whose steps meet `ok`;
* `M.Reachable s`      the same for every run;
* `Reach.inv`          what holds at the start and is kept by every step holds in every state
                       reached; `Reach.inv_with` lets the step use an invariant proved before;
* `Reach.iff_inv`      when a step keeps `I` iff it meets `ok`, the runs that meet `ok` are those that
                       end in `I`;
* `Reach.of_exec`      a list of labels that evaluates is a run, `Reach.of_execIf` one that meets `ok`;
* `exec_bounded`       a potential bounds the steps that lower it.
-/

namespace CppCores

/-- one start state and labelled partial steps -/
structure Machine (σ ℓ : Type*) where
  init : σ
  step : σ → ℓ → Option σ

namespace Machine
variable {σ ℓ : Type*} {M : Machine σ ℓ}

/-- the states of the runs whose steps all meet `ok` -/
inductive Reach (M : Machine σ ℓ) (ok : σ → ℓ → Prop) : σ → Prop where
  | init : Reach M ok M.init
  | step {s s' : σ} {l : ℓ} : Reach M ok s → ok s l → M.step s l = some s' → Reach M ok s'

/-- the states of all runs -/
abbrev Reachable (M : Machine σ ℓ) : σ → Prop := M.Reach (fun _ _ => True)

/-- evaluate a list of labels -/
def exec (M : Machine σ ℓ) : σ → List ℓ → Option σ
  | s, [] => some s
  | s, l :: ls => (M.step s l).bind fun s' => M.exec s' ls

/-- evaluate a list of labels as long as they meet `ok` -/
def execIf (M : Machine σ ℓ) (ok : σ → ℓ → Prop) [∀ s l, Decidable (ok s l)] :
    σ → List ℓ → Option σ
  | s, [] => some s
  | s, l :: ls => if ok s l then (M.step s l).bind fun s' => M.execIf ok s' ls else none

theorem exec_append (ls ms : List ℓ) (s : σ) :
    M.exec s (ls ++ ms) = (M.exec s ls).bind fun s' => M.exec s' ms := by
  induction ls generalizing s with
  | nil => rfl
  | cons l ls ih =>
    rw [List.cons_append, exec, exec, Option.bind_assoc]
    exact congrArg _ (funext fun s' => ih s')

theorem exec_eq_foldlM (ls : List ℓ) (s : σ) : M.exec s ls = ls.foldlM M.step s := by
  induction ls generalizing s with
  | nil => rfl
  | cons l ls ih =>
    rw [exec, List.foldlM_cons]
    exact congrArg _ (funext fun s' => ih s')

namespace Reach
variable {ok : σ → ℓ → Prop} {s : σ}

/-- **Induction over a run.** -/
theorem inv {I : σ → Prop} (h : M.Reach ok s) (h0 : I M.init)
    (hs : ∀ s l s', I s → ok s l → M.step s l = some s' → I s') : I s := by
  induction h with
  | init => exact h0
  | step _ hok hst ih => exact hs _ _ _ ih hok hst

/-- induction over a run, with an invariant `J` of the run at hand -/
theorem inv_with {I J : σ → Prop} (h : M.Reach ok s) (hJ : ∀ s, M.Reach ok s → J s)
    (h0 : I M.init) (hs : ∀ s l s', J s → I s → ok s l → M.step s l = some s' → I s') : I s := by
  induction h with
  | init => exact h0
  | step hr hok hst ih => exact hs _ _ _ (hJ _ hr) ih hok hst

theorem mono {ok' : σ → ℓ → Prop} (h : M.Reach ok s) (hok : ∀ s l, ok s l → ok' s l) :
    M.Reach ok' s := by
  induction h with
  | init => exact .init
  | step _ ho hst ih => exact .step ih (hok _ _ ho) hst

theorem reachable (h : M.Reach ok s) : M.Reachable s := h.mono fun _ _ _ => trivial

/-- **When a step of a run keeps `I` iff it meets `ok`, the runs that meet `ok` are those that end
in `I`.** -/
theorem iff_inv {I : σ → Prop} (h0 : I M.init)
    (hs : ∀ s l s', M.Reachable s → I s → ok s l → M.step s l = some s' → I s')
    (hb : ∀ s l s', M.Reachable s → M.step s l = some s' → I s' → I s ∧ ok s l) :
    M.Reach ok s ↔ M.Reachable s ∧ I s := by
  constructor
  · intro h
    refine ⟨h.reachable, ?_⟩
    exact h.inv_with (fun _ hr => hr.reachable) h0 hs
  · intro h
    obtain ⟨hr, hi⟩ := h
    induction hr with
    | init => exact .init
    | step hr _ hst ih =>
      obtain ⟨hi, hok⟩ := hb _ _ _ hr hst hi
      exact (ih hi).step hok hst

theorem of_exec {s' : σ} (ls : List ℓ) (h : M.Reachable s) (he : M.exec s ls = some s') :
    M.Reachable s' := by
  induction ls generalizing s with
  | nil => exact Option.some.inj he ▸ h
  | cons l ls ih =>
    obtain ⟨s1, h1, h2⟩ := Option.bind_eq_some_iff.mp he
    exact ih (h.step trivial h1) h2

theorem of_execIf [∀ s l, Decidable (ok s l)] {s' : σ} (ls : List ℓ) (h : M.Reach ok s)
    (he : M.execIf ok s ls = some s') : M.Reach ok s' := by
  induction ls generalizing s with
  | nil => exact Option.some.inj he ▸ h
  | cons l ls ih =>
    by_cases hok : ok s l
    · rw [execIf, if_pos hok] at he
      obtain ⟨s1, h1, h2⟩ := Option.bind_eq_some_iff.mp he
      exact ih (h.step hok h1) h2
    · rw [execIf, if_neg hok] at he
      exact absurd he (by simp)

end Reach

/-- **A potential bounds a run.**  Each step of `own` lowers `μ`, every other step raises it by at
most `k`: the steps of `own` are bounded by `μ` at the start and the number of the others. -/
theorem exec_bounded {I : σ → Prop} {own : ℓ → Bool} {μ : σ → ℕ} {k : ℕ}
    (hI : ∀ s l s', I s → M.step s l = some s' → I s')
    (hown : ∀ s l s', I s → own l = true → M.step s l = some s' → μ s' + 1 ≤ μ s)
    (hother : ∀ s l s', I s → own l = false → M.step s l = some s' → μ s' ≤ μ s + k)
    {s s' : σ} (ls : List ℓ) (hs : I s) (he : M.exec s ls = some s') :
    ls.countP own + μ s' ≤ μ s + k * ls.countP (fun l => !own l) := by
  induction ls generalizing s with
  | nil =>
    obtain rfl := Option.some.inj he
    simp
  | cons l ls ih =>
    obtain ⟨s1, h1, h2⟩ := Option.bind_eq_some_iff.mp he
    have h3 := ih (hI s l s1 hs h1) h2
    rw [List.countP_cons, List.countP_cons, Nat.mul_add]
    cases ho : own l with
    | true =>
      have := hown s l s1 hs ho h1
      simp only [Bool.not_true, Bool.false_eq_true, if_true, if_false]
      omega
    | false =>
      have := hother s l s1 hs ho h1
      simp only [Bool.not_false, Bool.false_eq_true, if_true, if_false, Nat.mul_one]
      omega

end Machine
end CppCores
