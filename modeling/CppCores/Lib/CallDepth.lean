import Mathlib.Data.Nat.Notation
import Mathlib.Tactic.Common

/-!
# Functions that call themselves, by the depth of their calls

`F call a` is the body of a function at the argument `a`; it makes its own calls through `call` and is
`none` where one of them has not returned.  `run F depth a` is what the function returns if its calls
are at most `depth` deep.

* `Returns`, `Diverges`   with some depth the function returns, with none it does;
* `Diverges.of_closed`    arguments that always lead to one of themselves have no result;
* `Returns.unique`        a result does not depend on the depth.
-/

namespace CppCores
namespace CallDepth

variable {α β : Type*} {F : (α → Option β) → α → Option β} {a : α} {b b' : β}

def run (F : (α → Option β) → α → Option β) : ℕ → α → Option β
  | 0, _ => none
  | depth + 1, a => F (run F depth) a

/-- the call `a` returns `b` -/
def Returns (F : (α → Option β) → α → Option β) (a : α) (b : β) : Prop :=
  ∃ depth, run F depth a = some b

/-- the call `a` does not return -/
def Diverges (F : (α → Option β) → α → Option β) (a : α) : Prop := ∀ depth, run F depth a = none

theorem Diverges.not_returns (h : Diverges F a) : ¬ Returns F a b := by
  intro hr
  obtain ⟨depth, hd⟩ := hr
  rw [h depth] at hd
  cases hd

/-- **Arguments whose bodies need the result for another of them have none.** -/
theorem Diverges.of_closed {S : α → Prop}
    (hS : ∀ depth, (∀ a, S a → run F depth a = none) → ∀ a, S a → F (run F depth) a = none)
    (ha : S a) : Diverges F a := by
  intro depth
  induction depth generalizing a with
  | zero => rfl
  | succ depth ih => exact hS depth (fun a ha => ih ha) a ha

/-- a body that uses its calls only for their results -/
def Mono (F : (α → Option β) → α → Option β) : Prop :=
  ∀ call call' : α → Option β, (∀ a b, call a = some b → call' a = some b) →
    ∀ a b, F call a = some b → F call' a = some b

theorem run_succ (hF : Mono F) {depth : ℕ} (h : run F depth a = some b) :
    run F (depth + 1) a = some b := by
  induction depth generalizing a b with
  | zero => cases h
  | succ depth ih => exact hF _ _ (fun a b => ih) a b h

theorem run_le (hF : Mono F) {m n : ℕ} (hmn : m ≤ n) (h : run F m a = some b) :
    run F n a = some b := by
  induction hmn with
  | refl => exact h
  | step _ ih => exact run_succ hF ih

/-- **The result does not depend on the depth that is allowed.** -/
theorem Returns.unique (hF : Mono F) (h : Returns F a b) (h' : Returns F a b') : b = b' := by
  obtain ⟨m, hm⟩ := h
  obtain ⟨n, hn⟩ := h'
  rcases Nat.le_total m n with hmn | hnm
  · exact Option.some.inj ((run_le hF hmn hm).symm.trans hn)
  · exact Option.some.inj (hm.symm.trans (run_le hF hnm hn))

end CallDepth
end CppCores
