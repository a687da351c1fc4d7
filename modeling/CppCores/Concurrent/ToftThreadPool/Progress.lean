import Mathlib.Tactic.Common
import CppCores.Concurrent.ToftThreadPool.Tasks

/-!
# ToftThreadPool: `Terminate` returns

Every step of a worker or of `Terminate`, but for a spurious wake-up, lowers `weight`, and every
other step raises it by at most 5.  Until `Terminate` returns one of the former can be taken.
-/

open Finset (range)

namespace CppCores
namespace ToftPool

set_option linter.unusedSectionVars false

variable {Id : Type*} [DecidableEq Id] {n w : ℕ} {s s' : State Id} {a : Act Id}
variable {c c' : Worker Id} {early : List Id} {log l : List (Event Id)}

/-- a step of the pool itself -/
def Act.own : Act Id → Bool
  | .worker _ | .terminate => true
  | .addTask .. | .adder _ | .spurious _ | .spuriousTerminate => false

/-- a bound on the steps to the end of the round -/
def WorkerPc.weight (k : ℕ) : WorkerPc → ℕ
  | .ready => 4
  | .asleep => 3
  | .run continued i => 2 * (k - i) + if continued then 5 else 3
  | .running continued i => 2 * (k - i) + if continued then 4 else 2
  | .leave => 2
  | .gone => 0

def Worker.weight (c : Worker Id) : ℕ :=
  4 * c.pending_tasks.length + c.pc.weight c.working_tasks.length

def TermPc.weight (n : ℕ) : TermPc → ℕ
  | .idle => 3 * n + 6
  | .flagging i => 2 * (n - i) + n + 5
  | .recheck => n + 4
  | .waiting => n + 3
  | .joining i => n - i + 2
  | .deleted => 1
  | .returned => 0

def weight (n : ℕ) (s : State Id) : ℕ :=
  s.terminator.weight n + ∑ w ∈ range n, (s.worker w).weight

namespace Worker

theorem weight_notify : c.notify.weight ≤ c.weight + 1 := by
  by_cases hp : c.pc = .asleep
  · rw [notify_of_asleep hp]
    show 4 * c.pending_tasks.length + 4 ≤ 4 * c.pending_tasks.length + c.pc.weight _ + 1
    rw [hp]
    exact le_rfl
  · rw [notify_of_ne hp]
    exact Nat.le_succ _

theorem weight_push (c : Worker Id) (id : Id) : (c.push id).weight = c.weight + 4 := by
  show 4 * (c.pending_tasks ++ [id]).length + _ = 4 * c.pending_tasks.length + _ + 4
  rw [List.length_append, List.length_singleton]
  show 4 * (c.pending_tasks.length + 1) + c.pc.weight c.working_tasks.length = _
  omega

theorem Next.weight_lt (h : Next w c c' l) (ho : c.Ok early) : c'.weight < c.weight := by
  cases h with
  | sleep hp =>
    show 4 * c.pending_tasks.length + 3 < 4 * c.pending_tasks.length + c.pc.weight _
    rw [hp]
    exact Nat.lt_succ_self _
  | swap hp ht =>
    have hw : c.working_tasks = [] := ho.working (by rw [hp]; rfl)
    show 4 * c.working_tasks.length + (2 * (c.pending_tasks.length - 0) + if !c.exit then 5 else 3)
      < 4 * c.pending_tasks.length + c.pc.weight _
    rw [hw, hp]
    show 0 + _ < 4 * c.pending_tasks.length + 4
    rcases ht with ht | ht
    · have : 0 < c.pending_tasks.length := List.length_pos_iff.mpr ht
      split <;> omega
    · simp only [ht, Bool.not_true, Bool.false_eq_true, if_false]
      omega
  | @start b i id hp hi =>
    show 4 * c.pending_tasks.length + (2 * (c.working_tasks.length - i) + if b then 4 else 2)
      < 4 * c.pending_tasks.length + c.pc.weight _
    rw [hp]
    show _ < _ + (2 * (c.working_tasks.length - i) + if b then 5 else 3)
    split <;> omega
  | @clear b i hp hi =>
    show 4 * c.pending_tasks.length + (if b then WorkerPc.ready else .leave).weight 0
      < 4 * c.pending_tasks.length + c.pc.weight _
    rw [hp]
    show _ < _ + (2 * (c.working_tasks.length - i) + if b then 5 else 3)
    cases b with
    | true => show _ + 4 < _ + (_ + 5); omega
    | false => show _ + 2 < _ + (_ + 3); omega
  | @finish b i id hp hi =>
    have hlt : i < c.working_tasks.length := (List.getElem?_eq_some_iff.mp hi).1
    show 4 * c.pending_tasks.length + (2 * (c.working_tasks.length - (i + 1)) + if b then 5 else 3)
      < 4 * c.pending_tasks.length + c.pc.weight _
    rw [hp]
    show _ < _ + (2 * (c.working_tasks.length - i) + if b then 4 else 2)
    split <;> omega

end Worker

/-! ## the weight of the pool -/

theorem sum_weight_setWorker (hw : w < n) :
    ∑ v ∈ range n, ((s.setWorker w c).worker v).weight + (s.worker w).weight
      = ∑ v ∈ range n, (s.worker v).weight + c.weight := by
  have hm : w ∈ range n := Finset.mem_range.mpr hw
  rw [← Finset.add_sum_erase _ _ hm, ← Finset.add_sum_erase _ (fun v => (s.worker v).weight) hm]
  have hrest : ∑ v ∈ (range n).erase w, ((s.setWorker w c).worker v).weight
      = ∑ v ∈ (range n).erase w, (s.worker v).weight := by
    apply Finset.sum_congr rfl
    intro v hv
    rw [setWorker_worker, if_neg (Finset.ne_of_mem_erase hv)]
  rw [hrest, setWorker_worker, if_pos rfl]
  omega

theorem weight_setWorker (hw : w < n) :
    weight n (s.setWorker w c) + (s.worker w).weight = weight n s + c.weight := by
  have := sum_weight_setWorker (s := s) (c := c) hw
  show s.terminator.weight n + _ + _ = s.terminator.weight n + _ + _
  omega

theorem weight_termAt (s : State Id) (pc : TermPc) :
    weight n (s.termAt pc) + s.terminator.weight n = weight n s + pc.weight n := by
  show pc.weight n + ∑ w ∈ range n, (s.worker w).weight + s.terminator.weight n
    = s.terminator.weight n + ∑ w ∈ range n, (s.worker w).weight + pc.weight n
  omega

theorem weight_testIdle : weight n (testIdle s) + s.terminator.weight n ≤ weight n s + (n + 3) := by
  unfold testIdle
  rw [weight_termAt]
  split
  · show _ + (n - 0 + 2) ≤ _
    omega
  · exact le_rfl

theorem weight_unbusy : weight n s.unbusy ≤ weight n s + 1 := by
  show s.unbusy.terminator.weight n + ∑ v ∈ range n, (s.worker v).weight
    ≤ s.terminator.weight n + ∑ v ∈ range n, (s.worker v).weight + 1
  rcases unbusy_terminator s with ⟨ht, -⟩ | ⟨ht, hw⟩
  · rw [ht]
    omega
  · rw [ht, hw]
    show n + 4 + _ ≤ n + 3 + _ + 1
    omega

theorem weight_own (h : Inv n s) (hst : Step n s a s') (ho : a.own = true) :
    weight n s' + 1 ≤ weight n s := by
  cases hst with
  | call | index | push | crash | spurious | spuriousTerminate => cases ho
  | @next w c l hw hn =>
    have h1 : weight n ((s.setWorker w c).record l) = weight n (s.setWorker w c) := rfl
    have h2 := weight_setWorker (s := s) (c := c) hw
    have h3 := hn.weight_lt (h.working.ok w)
    omega
  | @leave w hw hp =>
    have h1 := weight_unbusy (n := n) (s := s.setWorker w ((s.worker w).goto .gone))
    have h2 := weight_setWorker (s := s) (c := (s.worker w).goto .gone) hw
    have h3 : ((s.worker w).goto .gone).weight + 2 = (s.worker w).weight := by
      show _ + 0 + 2 = _ + (s.worker w).pc.weight _
      rw [hp]
      rfl
    omega
  | flagAll hp =>
    have h1 := weight_termAt (n := n) s.setExit (.flagging 0)
    have h2 : weight n s.setExit = weight n s := rfl
    have h3 : s.setExit.terminator.weight n = 3 * n + 6 := congrArg (TermPc.weight n) hp
    have h4 : (TermPc.flagging 0).weight n = 2 * (n - 0) + n + 5 := rfl
    omega
  | @flag i hp hi =>
    have hin : i < n := by
      rwa [h.terminating.threads, hp, if_neg nofun] at hi
    have h1 := weight_termAt (n := n) (s.setWorker i (s.worker i).setExit.notify)
      (.flagging (i + 1))
    have h2 := weight_setWorker (s := s) (c := (s.worker i).setExit.notify) hin
    have h3 : (s.worker i).setExit.notify.weight ≤ (s.worker i).setExit.weight + 1 :=
      Worker.weight_notify
    have h4 : (s.worker i).setExit.weight = (s.worker i).weight := rfl
    have h5 : (s.setWorker i (s.worker i).setExit.notify).terminator.weight n
        = 2 * (n - i) + n + 5 := congrArg (TermPc.weight n) hp
    have h6 : (TermPc.flagging (i + 1)).weight n = 2 * (n - (i + 1)) + n + 5 := rfl
    omega
  | @flagged i hp =>
    have h1 := weight_testIdle (n := n) (s := s)
    have h2 : s.terminator.weight n = 2 * (n - i) + n + 5 := congrArg (TermPc.weight n) hp
    omega
  | recheck hp =>
    have h1 := weight_testIdle (n := n) (s := s)
    have h2 : s.terminator.weight n = n + 4 := congrArg (TermPc.weight n) hp
    omega
  | @join i hp hi =>
    have hin : i < n := by
      rwa [h.terminating.threads, hp, if_neg nofun] at hi
    have h1 := weight_termAt (n := n) s (.joining (i + 1))
    have h2 : s.terminator.weight n = n - i + 2 := congrArg (TermPc.weight n) hp
    have h3 : (TermPc.joining (i + 1)).weight n = n - (i + 1) + 2 := rfl
    omega
  | @joined i hp =>
    have h1 := weight_termAt (n := n) s .deleted
    have h2 : s.terminator.weight n = n - i + 2 := congrArg (TermPc.weight n) hp
    have h3 : TermPc.deleted.weight n = 1 := rfl
    omega
  | deleted hp =>
    have h1 := weight_termAt (n := n) (s.setNumThreads 0) .returned
    have h2 : (s.setNumThreads 0).terminator.weight n = 1 := congrArg (TermPc.weight n) hp
    have h3 : weight n (s.setNumThreads 0) = weight n s := rfl
    have h4 : TermPc.returned.weight n = 0 := rfl
    omega

theorem weight_other (h : Inv n s) (hn : 0 < n) (hst : Step n s a s') (ho : a.own = false) :
    weight n s' ≤ weight n s + 5 := by
  cases hst with
  | next | leave | flagAll | flag | flagged | recheck | join | joined | deleted => cases ho
  | call | index | crash => exact Nat.le_add_right _ 5
  | @push id key w hp =>
    have hw : w < n := h.adding.keyed id key w hp ▸ Nat.mod_lt key hn
    have h1 := weight_setWorker (s := s) (c := ((s.worker w).push id).notify) hw
    have h2 := Worker.weight_notify (c := (s.worker w).push id)
    have h3 := Worker.weight_push (s.worker w) id
    show weight n (s.setWorker w ((s.worker w).push id).notify) ≤ _
    omega
  | @spurious w hw =>
    have h1 := weight_setWorker (s := s) (c := (s.worker w).notify) hw
    have h2 := Worker.weight_notify (c := s.worker w)
    omega
  | spuriousTerminate hp =>
    have h1 := weight_termAt (n := n) s .recheck
    have h2 : s.terminator.weight n = n + 3 := congrArg (TermPc.weight n) hp
    have h3 : TermPc.recheck.weight n = n + 4 := rfl
    omega

theorem weight_run (hn : 0 < n) (h : (pool n).Reachable s) (as : List (Act Id))
    (he : (pool n).exec s as = some s') :
    as.countP Act.own + weight n s' ≤ weight n s + 5 * as.countP fun a => !a.own :=
  Machine.exec_bounded (I := Inv n) (fun _ _ _ hi hst => hi.step hn hst)
    (fun _ _ _ hi ho hst => weight_own hi (step_cases hst).2 ho)
    (fun _ _ _ hi ho hst => weight_other hi hn (step_cases hst).2 ho) as (inv_reach hn h) he

/-! ## some step can be taken -/

theorem Worker.next_isSome (h : c.Ok early) (hl : c.pc ≠ .leave) (hg : c.pc ≠ .gone)
    (ha : c.pc ≠ .asleep) : (c.next w).isSome := by
  unfold next
  split
  · rfl
  · split <;> rfl
  · next b i hp =>
    rw [List.getElem?_eq_getElem (h.running b i hp)]
    rfl
  · next hp => exact absurd hp ha
  · next hp => exact absurd hp hl
  · next hp => exact absurd hp hg

/-- while `Terminate` waits, a worker that has not left can go on -/
theorem Inv.waiting_step (h : Inv n s) (hp : s.terminator = .waiting) :
    ∃ w, (stepWorker n s w).isSome := by
  have hne : (inside n s).Nonempty := by
    rw [← Finset.card_ne_zero, ← h.terminating.busy]
    exact h.terminating.waits hp
  obtain ⟨w, hm⟩ := hne
  obtain ⟨hw, hg⟩ := Finset.mem_filter.mp hm
  have hw : w < n := Finset.mem_range.mp hw
  refine ⟨w, ?_⟩
  unfold stepWorker
  rw [if_pos hw]
  split
  · rw [hp]
    rfl
  · next hl =>
    rw [Option.isSome_map]
    apply Worker.next_isSome (h.working.ok w) hl hg
    intro ha
    -- it would sleep although its `exit` is set
    have hex := h.terminating.flagged w hw (by rw [hp]; trivial)
    rw [((h.working.ok w).asleep ha).2] at hex
    cases hex

theorem Inv.own_step (h : Inv n s) (hc : s.crashed = false) (hr : s.terminator ≠ .returned) :
    ∃ a : Act Id, a.own ∧ ((pool n).step s a).isSome := by
  have hrun : ¬ s.crashed = true := by simp [hc]
  by_cases hw : s.terminator = .waiting
  · obtain ⟨w, hs⟩ := h.waiting_step hw
    have hst : (pool n).step s (.worker w) = stepWorker n s w := if_neg hrun
    exact ⟨.worker w, rfl, hst ▸ hs⟩
  · have hst : (pool n).step s .terminate = stepTerminate s := if_neg hrun
    refine ⟨.terminate, rfl, ?_⟩
    rw [hst]
    unfold stepTerminate
    split
    · rfl
    · split <;> rfl
    · next hp => exact absurd hp hw
    · rfl
    · next i hp =>
      split
      · next hi =>
        have hin : i < n := by
          rwa [h.terminating.threads, hp, if_neg nofun] at hi
        rw [if_pos (h.gone (by rw [hp]; rfl) hin)]
        rfl
      · rfl
    · rfl
    · next hp => exact absurd hp hr

/-! ## the runs of the pool -/

/-- what the users of the pool rely on -/
structure PoolRun (n : ℕ) (s : State Id) : Prop where
  /-- before `Terminate` a call that has returned has added its task -/
  early : s.m_exit = false → ∀ id, s.adder id = .returned ↔ id ∈ s.returned
  once : (startedIds s.log).Nodup ∧ (finishedIds s.log).Nodup
  done : s.terminator = .returned ∨ s.crashed = true →
    ∀ id ∈ s.early, (startedIds s.log).count id = 1 ∧ (finishedIds s.log).count id = 1
  ordered : InOrder n s.log
  /-- `Terminate` and the workers do not get stuck before `Terminate` returns -/
  goesOn : s.crashed = false → s.terminator ≠ .returned →
    ∃ a : Act Id, a.own ∧ ((pool n).step s a).isSome
  /-- and do not go on forever -/
  bounded : ∀ as s', (pool n).exec s as = some s' →
    as.countP Act.own ≤ weight n s + 5 * as.countP fun a => !a.own

theorem poolRun_reach (hn : 0 < n) (h : (pool n).Reachable s) : PoolRun n s := by
  have hi : Inv n s := inv_reach hn h
  exact
    { early := fun hm id => by
        rw [hi.adding.returned]
        exact ⟨hi.adding.accepted hm id, hi.adding.done id⟩
      once := ⟨hi.nodup_started, hi.nodup_finished⟩
      done := fun hr id hid => by
        refine hi.early_done ?_ hid
        rcases hr with hr | hr
        · rw [hr]; rfl
        · exact hi.terminating.crashed hr
      ordered := inOrder_reach hn h
      goesOn := hi.own_step
      bounded := fun as s' he => (Nat.le_add_right _ _).trans (weight_run hn h as he) }

/-- two workers; the tasks 0 and 1 have keys that are congruent modulo 2 -/
theorem poolRun_three : ∃ s : State ℕ, PoolRun 2 s ∧ s.terminator = .returned ∧
    s.early = [0, 1, 2] ∧
    s.log = [.added 0 0, .added 1 2, .added 2 1, .started 0 0, .finished 0 0, .started 1 0,
      .finished 1 0, .started 2 1, .finished 2 1] := by
  have h : (((pool 2).exec (start 2 : State ℕ)
      [.addTask 0 0, .adder 0, .adder 0, .addTask 1 2, .adder 1, .adder 1, .addTask 2 1, .adder 2,
       .adder 2, .worker 0, .worker 0, .terminate, .terminate, .terminate, .terminate, .worker 0,
       .worker 0, .worker 0, .worker 0, .worker 0, .worker 0, .worker 0, .worker 1, .worker 1,
       .worker 1, .worker 1, .worker 1, .terminate, .terminate, .terminate, .terminate,
       .terminate]).map fun s => (s.terminator, s.early, s.log))
      = some (.returned, [0, 1, 2],
        [.added 0 0, .added 1 2, .added 2 1, .started 0 0, .finished 0 0, .started 1 0,
          .finished 1 0, .started 2 1, .finished 2 1]) := by decide
  obtain ⟨s, hs, e⟩ := Option.map_eq_some_iff.mp h
  obtain ⟨h1, h23⟩ := Prod.mk.inj e
  obtain ⟨h2, h3⟩ := Prod.mk.inj h23
  exact ⟨s, poolRun_reach (by decide) (.of_exec _ .init hs), h1, h2, h3⟩

end ToftPool
end CppCores
