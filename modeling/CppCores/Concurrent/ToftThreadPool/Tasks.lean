import Mathlib.Algebra.BigOperators.Group.Finset.Basic
import Mathlib.Algebra.Order.BigOperators.Group.Finset
import Mathlib.Data.List.Count
import CppCores.Concurrent.ToftThreadPool.Inv
import CppCores.Lib.Logs

/-!
# ToftThreadPool: the tasks are run once, in order, and before `Terminate` returns

* `Inv.nodup_started`   no task is started twice;
* `Inv.early_done`      once the wait of `Terminate` is over, the early tasks have finished;
* `inOrder_reach`       a worker starts its tasks in the order in which they were added, each after
  the one before it has finished.
-/

open Finset (range)

namespace CppCores
namespace ToftPool

set_option linter.unusedSectionVars false

variable {Id : Type*} [DecidableEq Id] {n w : ℕ} {s s' : State Id} {a : Act Id}
variable {log : List (Event Id)}

/-! ## the log as a whole and by worker -/

theorem sum_count_single (f : Event Id → Option Id) (id : Id) {e : Event Id}
    (he : e.worker n < n) :
    ∑ w ∈ range n, ((ofWorker n w [e]).filterMap f).count id = ([e].filterMap f).count id := by
  rw [Finset.sum_eq_single (e.worker n)]
  · rw [ofWorker_self fun b hb => by rw [List.mem_singleton.mp hb]]
  · intro w _ hw
    rw [ofWorker_other (v := e.worker n) (fun b hb => by rw [List.mem_singleton.mp hb]) hw]
    rfl
  · intro hw
    exact absurd (Finset.mem_range.mpr he) hw

theorem sum_count (f : Event Id → Option Id) (id : Id) (h : ∀ e ∈ log, e.worker n < n) :
    ∑ w ∈ range n, ((ofWorker n w log).filterMap f).count id = (log.filterMap f).count id := by
  induction log with
  | nil => simp
  | cons e log ih =>
    have hw : ∀ w, ofWorker n w (e :: log) = ofWorker n w [e] ++ ofWorker n w log := fun w =>
      @ofWorker_append _ n w [e] log
    calc ∑ w ∈ range n, ((ofWorker n w (e :: log)).filterMap f).count id
        = ∑ w ∈ range n, (((ofWorker n w [e]).filterMap f).count id
            + ((ofWorker n w log).filterMap f).count id) := by
          apply Finset.sum_congr rfl
          intro w _
          rw [hw, List.filterMap_append, List.count_append]
      _ = ([e].filterMap f).count id + (log.filterMap f).count id := by
          rw [Finset.sum_add_distrib, sum_count_single f id (h e List.mem_cons_self),
            ih fun b hb => h b (List.mem_cons_of_mem e hb)]
      _ = ((e :: log).filterMap f).count id := by
          rw [← List.count_append, ← List.filterMap_append, List.singleton_append]

theorem count_le_of_parts {f g : Event Id → Option Id} (id : Id)
    (h : ∀ e ∈ log, e.worker n < n)
    (hle : ∀ w, ((ofWorker n w log).filterMap f).Sublist ((ofWorker n w log).filterMap g)) :
    (log.filterMap f).count id ≤ (log.filterMap g).count id := by
  rw [← sum_count f id h, ← sum_count g id h]
  exact Finset.sum_le_sum fun w _ => (hle w).count_le id

/-! ## each task once -/

theorem Inv.started_sublist (h : Inv n s) :
    (startedIds (ofWorker n w s.log)).Sublist (addedIds (ofWorker n w s.log)) := by
  rw [(h.working.logged w).added, List.append_assoc]
  exact List.sublist_append_left _ _

theorem Inv.finished_sublist (h : Inv n s) :
    (finishedIds (ofWorker n w s.log)).Sublist (startedIds (ofWorker n w s.log)) := by
  rw [(h.working.logged w).started]
  exact List.sublist_append_left _ _

theorem Inv.nodup_started (h : Inv n s) : (startedIds s.log).Nodup := by
  rw [List.nodup_iff_count_le_one]
  intro id
  calc (startedIds s.log).count id
      ≤ (addedIds s.log).count id :=
        count_le_of_parts id h.adding.owner fun _ => h.started_sublist
    _ ≤ 1 := List.nodup_iff_count_le_one.mp h.adding.nodup id

theorem Inv.nodup_finished (h : Inv n s) : (finishedIds s.log).Nodup := by
  rw [List.nodup_iff_count_le_one]
  intro id
  calc (finishedIds s.log).count id
      ≤ (startedIds s.log).count id :=
        count_le_of_parts id h.adding.owner fun _ => h.finished_sublist
    _ ≤ 1 := List.nodup_iff_count_le_one.mp h.nodup_started id

/-! ## before `Terminate` returns -/

theorem Inv.gone (h : Inv n s) (hj : s.terminator.joins) (hw : w < n) : (s.worker w).pc = .gone := by
  have h0 : inside n s = ∅ := by
    rw [← Finset.card_eq_zero, ← h.terminating.busy, h.terminating.empty hj]
  by_contra hne
  have hm : w ∈ inside n s := Finset.mem_filter.mpr ⟨Finset.mem_range.mpr hw, hne⟩
  rw [h0] at hm
  exact absurd hm (Finset.notMem_empty w)

/-- a worker that has left has run all of its tasks, but for those that stay pending -/
theorem Inv.finished_of_gone (h : Inv n s) {id : Id} (hg : (s.worker w).pc = .gone)
    (hp : id ∉ (s.worker w).pending_tasks) (ha : id ∈ addedIds (ofWorker n w s.log)) :
    id ∈ finishedIds (ofWorker n w s.log) := by
  have ho : (s.worker w).pc.outside := by rw [hg]; rfl
  have hadd := (h.working.logged w).added
  have hst := (h.working.logged w).started
  rw [Worker.left_outside ho, List.append_nil] at hadd
  rw [Worker.current_outside ho, List.append_nil] at hst
  rw [hadd, hst] at ha
  exact (List.mem_append.mp ha).resolve_right hp

theorem mem_ofWorker {e : Event Id} (he : e ∈ log) : e ∈ ofWorker n (e.worker n) log :=
  List.mem_filter.mpr ⟨he, decide_eq_true rfl⟩

theorem Inv.done_of_joins (h : Inv n s) (hj : s.terminator.joins) {id : Id}
    (ha : id ∈ addedIds s.log) (hp : ∀ w < n, id ∉ (s.worker w).pending_tasks) :
    (startedIds s.log).count id = 1 ∧ (finishedIds s.log).count id = 1 := by
  obtain ⟨e, hel, hid⟩ := List.mem_filterMap.mp ha
  have hw := h.adding.owner e hel
  have hfin : id ∈ finishedIds (ofWorker n (e.worker n) s.log) :=
    h.finished_of_gone (h.gone hj hw) (hp _ hw) (List.mem_filterMap.mpr ⟨e, mem_ofWorker hel, hid⟩)
  have hsub : (ofWorker n (e.worker n) s.log).Sublist s.log := List.filter_sublist
  have hst : id ∈ startedIds (ofWorker n (e.worker n) s.log) := h.finished_sublist.subset hfin
  exact
    ⟨List.count_eq_one_of_mem h.nodup_started ((hsub.filterMap _).subset hst),
      List.count_eq_one_of_mem h.nodup_finished ((hsub.filterMap _).subset hfin)⟩

/-- late tasks may stay pending, early ones do not -/
theorem Inv.early_done (h : Inv n s) (hj : s.terminator.joins) {id : Id} (he : id ∈ s.early) :
    (startedIds s.log).count id = 1 ∧ (finishedIds s.log).count id = 1 := by
  refine h.done_of_joins hj (h.adding.early he) fun w hw hm => ?_
  have hlast : (s.worker w).pc.last := by
    rw [h.gone hj hw]
    rfl
  exact ((h.working.ok w).last hlast).2 id hm he

/-! ## the order -/

/-- when a worker starts a task, it has finished those that it started before, and these and the
task are the first ones that were added to it -/
def InOrder (n : ℕ) (log : List (Event Id)) : Prop :=
  ∀ pre id w post, log = pre ++ .started id w :: post →
    startedIds (ofWorker n w pre) = finishedIds (ofWorker n w pre) ∧
    finishedIds (ofWorker n w pre) ++ [id] <+: addedIds (ofWorker n w log)

theorem InOrder.append {e : Event Id} (h : InOrder n log)
    (he : ∀ id w, e = .started id w →
      startedIds (ofWorker n w log) = finishedIds (ofWorker n w log) ∧
      finishedIds (ofWorker n w log) ++ [id] <+: addedIds (ofWorker n w log)) :
    InOrder n (log ++ [e]) := by
  intro pre id w post hlog
  have hpre : addedIds (ofWorker n w log) <+: addedIds (ofWorker n w (log ++ [e])) := by
    rw [ofWorker_append, addedIds_append]
    exact List.prefix_append _ _
  rcases concat_split hlog with ⟨rfl, hb⟩ | ⟨post', hlog'⟩
  · obtain ⟨h1, h2⟩ := he id w hb
    exact ⟨h1, h2.trans hpre⟩
  · obtain ⟨h1, h2⟩ := h pre id w post' hlog'
    exact ⟨h1, h2.trans hpre⟩

/-- the task at `i` is the first one that has not been started -/
theorem Worker.Logged.head {c : Worker Id} {b : Bool} {i : ℕ} {id : Id} (h : c.Logged log)
    (hp : c.pc = .run b i) (hi : c.working_tasks[i]? = some id) :
    startedIds log = finishedIds log ∧ finishedIds log ++ [id] <+: addedIds log := by
  obtain ⟨hlt, hget⟩ := List.getElem?_eq_some_iff.mp hi
  have ha := h.added
  have hs := h.started
  simp only [left, current, hp, List.append_nil] at ha hs
  refine ⟨hs, ?_⟩
  rw [ha, ← hs, ← List.getElem_cons_drop hlt, hget]
  refine ⟨c.working_tasks.drop (i + 1) ++ c.pending_tasks, ?_⟩
  simp

theorem InOrder.step (h : InOrder n s.log) (hi : Inv n s) (hst : Step n s a s') :
    InOrder n s'.log := by
  cases hst with
  | call | index | crash | leave | spurious | flagAll | flag | join | joined | deleted
  | spuriousTerminate => exact h
  | flagged | recheck => exact h
  | push => exact h.append nofun
  | @next w c l hw hn =>
    cases hn with
    | sleep | swap | clear =>
      show InOrder n (s.log ++ [])
      rwa [List.append_nil]
    | start hp hget =>
      apply h.append
      intro id v he
      obtain ⟨rfl, rfl⟩ := Event.started.inj he
      exact (hi.working.logged w).head hp hget
    | finish => exact h.append nofun

theorem inOrder_reach (hn : 0 < n) (h : (pool n).Reachable s) : InOrder n s.log := by
  refine h.inv_with (I := fun s => InOrder n s.log) (J := Inv n) (fun _ => inv_reach hn) ?_ ?_
  · intro pre id w post hlog
    cases pre <;> cases hlog
  · intro s a s' hi ho _ hst
    exact ho.step hi (step_cases hst).2

end ToftPool
end CppCores
