import Mathlib.Tactic.Common
import CppCores.Concurrent.ToftThreadPool.Inv

/-!
# ToftThreadPool: `WaitForIdle`

Any number of calls of `WaitForIdle` next to the pool.  Until `Terminate` is called `m_exit` is false,
and `WaitForIdle` returns at once: the test is the wrong way round.

* `stepWaiter`           `WaitForIdle`, and `AnyTaskPending` one context at a time;
* `finished_of_noTasks`    when no worker has a task in its lists, every task added has finished;
* `waitForIdle_iff`      so **the returns before `Terminate` are right iff the lists were empty when
                         `WaitForIdle` was called.**
-/

namespace CppCores
namespace ToftPool
open Machine

set_option linter.unusedSectionVars false

/-- the place of a call of `WaitForIdle` -/
inductive WaiterPc where
  | idle
  /-- in `AnyTaskPending`, about to test `i < m_num_threads` -/
  | test (i : ℕ)
  /-- about to lock the mutex of the context `i` -/
  | lock (i : ℕ)
  /-- in `sleep_for` -/
  | sleeping
  | returned
  deriving DecidableEq, Repr

/-- a return of `WaitForIdle`: the tasks added before the call, and the pool -/
structure Return (Id : Type*) where
  before : List Id
  pool : State Id

/-- the pool and the calls of `WaitForIdle`; no step reads `returns` -/
structure Waiting (Id W : Type*) where
  pool : State Id
  waiter : W → WaiterPc
  /-- what had been added when the call was made -/
  before : W → List Id
  crashed : Bool
  returns : List (Return Id)

inductive WaitAct (Id W : Type*) where
  | pool (a : Act Id)
  | waiter (k : W)

variable {Id W : Type*} [DecidableEq Id] [DecidableEq W] {n : ℕ}

namespace Waiting

def waiterAt (s : Waiting Id W) (k : W) (pc : WaiterPc) : Waiting Id W :=
  { s with waiter := Function.update s.waiter k pc }

def setBefore (s : Waiting Id W) (k : W) (before : List Id) : Waiting Id W :=
  { s with before := Function.update s.before k before }

/-- the call `k` returns -/
def leave (s : Waiting Id W) (k : W) (before : List Id) : Waiting Id W :=
  { s.waiterAt k .returned with returns := s.returns ++ [⟨before, s.pool⟩] }

def crash (s : Waiting Id W) : Waiting Id W := { s with crashed := true }

def setPool (s : Waiting Id W) (p : State Id) : Waiting Id W := { s with pool := p }

end Waiting

/-- `WaitForIdle` with `AnyTaskPending` -/
def stepWaiter (s : Waiting Id W) (k : W) : Option (Waiting Id W) :=
  match s.waiter k with
  | .idle =>
    let before := addedIds s.pool.log
    if !s.pool.m_exit then some (s.leave k before)
    else some ((s.setBefore k before).waiterAt k (.test 0))
  | .test i =>
    if i < s.pool.m_num_threads then some (s.waiterAt k (.lock i))
    else some (s.leave k (s.before k))
  | .lock i =>
    if s.pool.Contexts then
      if !(s.pool.worker i).pending_tasks.isEmpty then some (s.waiterAt k .sleeping)
      else some (s.waiterAt k (.test (i + 1)))
    else some s.crash
  | .sleeping => some (s.waiterAt k (.test 0))
  | .returned => none

def stepWaiting (n : ℕ) (s : Waiting Id W) (l : WaitAct Id W) : Option (Waiting Id W) :=
  if s.crashed || s.pool.crashed then none
  else
    match l with
    | .pool a => (step n s.pool a).map s.setPool
    | .waiter k => stepWaiter s k

/-- the pool after its constructor, with nobody waiting -/
def waiting (n : ℕ) : Machine (Waiting Id W) (WaitAct Id W) where
  init := ⟨start n, fun _ => .idle, fun _ => [], false, []⟩
  step := stepWaiting n

/-- no `AddTask` call is in progress and `Terminate` has not been called -/
def Quiet (s : State Id) : Prop :=
  s.terminator = .idle ∧ ∀ id, s.adder id = .idle ∨ s.adder id = .returned

/-- no worker has a task in its lists -/
def NoTasks (n : ℕ) (s : State Id) : Prop :=
  ∀ w < n, (s.worker w).pending_tasks = [] ∧ (s.worker w).working_tasks = []

/-- every task added before the call has been run to completion -/
def Return.Right (n : ℕ) (r : Return Id) : Prop :=
  (∀ id ∈ r.before, id ∈ finishedIds r.pool.log) ∧ NoTasks n r.pool

/-- `WaitForIdle` is called only when there is nothing to wait for -/
def OnlyIdle (n : ℕ) (s : Waiting Id W) : WaitAct Id W → Prop
  | .pool _ => True
  | .waiter k => s.waiter k = .idle → Quiet s.pool → NoTasks n s.pool

variable {s s' : State Id} {a : Act Id}

/-! ## the pool -/

/-- a pool without threads takes no task -/
theorem log_zero (h : (pool 0).Reachable s) :
    s.m_num_threads = 0 ∧ (∀ id key w, s.adder id ≠ .push key w) ∧ s.log = [] := by
  refine h.inv (I := fun s : State Id =>
    s.m_num_threads = 0 ∧ (∀ id key w, s.adder id ≠ .push key w) ∧ s.log = []) ?_ ?_
  · exact ⟨rfl, fun _ _ _ => nofun, rfl⟩
  · intro s a s' hi _ hst
    obtain ⟨h0, hp, hl⟩ := hi
    cases (step_cases hst).2 with
    | @call id key hid =>
      refine ⟨h0, fun b k w hb => ?_, hl⟩
      rw [adderAt_adder] at hb
      split at hb
      · split at hb <;> cases hb
      · exact hp b k w hb
    | index hid hne => exact absurd h0 hne
    | push hid => exact absurd hid (hp _ _ _)
    | next hw => exact absurd hw (Nat.not_lt_zero _)
    | leave hw => exact absurd hw (Nat.not_lt_zero _)
    | spurious hw => exact absurd hw (Nat.not_lt_zero _)
    | deleted => exact ⟨rfl, hp, hl⟩
    | crash | flagAll | flag | flagged | recheck | join | joined | spuriousTerminate =>
      exact ⟨h0, hp, hl⟩

/-- `m_exit` is set when `Terminate` begins, and is not written again -/
theorem Step.exit (hst : Step n s a s') :
    s'.m_exit = s.m_exit ∧ (s'.terminator = .idle → s.terminator = .idle) ∨
      s'.m_exit = true ∧ s'.terminator ≠ .idle := by
  have htest : (testIdle s).terminator ≠ .idle := by
    show (if s.m_num_busy_threads = 0 then TermPc.joining 0 else .waiting) ≠ .idle
    split <;> exact nofun
  cases hst with
  | call | index | push | crash | next | spurious => exact .inl ⟨rfl, id⟩
  | @leave w hw hp =>
    refine .inl ⟨rfl, fun ht => ?_⟩
    rcases unbusy_terminator (s.setWorker w ((s.worker w).goto .gone)) with ⟨he, -⟩ | ⟨he, -⟩
    · exact he.symm.trans ht
    · cases he.symm.trans ht
  | flagAll => exact .inr ⟨rfl, nofun⟩
  | flagged | recheck => exact .inl ⟨rfl, fun ht => absurd ht htest⟩
  | flag | join | joined | deleted | spuriousTerminate => exact .inl ⟨rfl, nofun⟩

theorem exit_of_idle (h : (pool n).Reachable s) : s.terminator = .idle → s.m_exit = false := by
  refine h.inv (I := fun s : State Id => s.terminator = .idle → s.m_exit = false) (fun _ => rfl) ?_
  intro s a s' hi _ hst ht
  rcases (step_cases hst).2.exit with ⟨he, hidle⟩ | ⟨-, hne⟩
  · exact he.trans (hi (hidle ht))
  · exact absurd ht hne

/-- **When no worker has a task in its lists, every task added has finished.** -/
theorem finished_of_noTasks (h : (pool n).Reachable s) (he : NoTasks n s) {id : Id}
    (hid : id ∈ addedIds s.log) : id ∈ finishedIds s.log := by
  obtain ⟨e, hel, hadd⟩ := List.mem_filterMap.mp hid
  obtain rfl | hn := Nat.eq_zero_or_pos n
  · rw [(log_zero h).2.2] at hel
    exact absurd hel List.not_mem_nil
  · have hi := inv_reach hn h
    have hw := hi.adding.owner e hel
    obtain ⟨hpend, hwork⟩ := he _ hw
    have hlog := hi.working.logged (e.worker n)
    -- nothing is left to start, and nothing runs
    have hleft : (s.worker (e.worker n)).left = [] := by
      unfold Worker.left
      rw [hwork]
      split <;> simp
    have hcur : (s.worker (e.worker n)).current = [] := by
      unfold Worker.current
      rw [hwork]
      split <;> rfl
    have hall : addedIds (ofWorker n (e.worker n) s.log) =
        finishedIds (ofWorker n (e.worker n) s.log) := by
      rw [hlog.added, hlog.started, hleft, hcur, hpend]
      simp
    have hmem : id ∈ addedIds (ofWorker n (e.worker n) s.log) :=
      List.mem_filterMap.mpr ⟨e, List.mem_filter.mpr ⟨hel, decide_eq_true rfl⟩, hadd⟩
    rw [hall] at hmem
    exact (List.filter_sublist.filterMap _).subset hmem

/-! ## the calls of `WaitForIdle` -/

/-- a call that did not return at once has seen `m_exit` -/
structure Seen (n : ℕ) (s : Waiting Id W) : Prop where
  pool : (pool n).Reachable s.pool
  exit : ∀ k, s.waiter k ≠ .idle → s.waiter k ≠ .returned → s.pool.m_exit = true

theorem seen_start : Seen n (waiting n : Machine (Waiting Id W) (WaitAct Id W)).init where
  pool := .init
  exit _ h := absurd rfl h

variable {p p' : Waiting Id W} {k : W} {l : WaitAct Id W}

/-- a step of the pool and of its waiters, one constructor for each kind -/
inductive WaitStep (n : ℕ) (s : Waiting Id W) : WaitAct Id W → Waiting Id W → Prop
  | pool {a : Act Id} {q : State Id} : (pool n).step s.pool a = some q →
      WaitStep n s (.pool a) (s.setPool q)
  /-- it returns at once -/
  | atOnce {k : W} : s.waiter k = .idle → s.pool.m_exit = false →
      WaitStep n s (.waiter k) (s.leave k (addedIds s.pool.log))
  | call {k : W} : s.waiter k = .idle → s.pool.m_exit = true →
      WaitStep n s (.waiter k) ((s.setBefore k (addedIds s.pool.log)).waiterAt k (.test 0))
  /-- `AnyTaskPending` goes on, or sleeps -/
  | move {k : W} {pc : WaiterPc} : s.waiter k ≠ .idle → s.waiter k ≠ .returned →
      WaitStep n s (.waiter k) (s.waiterAt k pc)
  | leave {k : W} : s.waiter k ≠ .idle → s.waiter k ≠ .returned →
      WaitStep n s (.waiter k) (s.leave k (s.before k))
  | crash {k : W} : s.waiter k ≠ .idle → WaitStep n s (.waiter k) s.crash

theorem stepWaiter_cases (h : stepWaiter p k = some p') : WaitStep n p (.waiter k) p' := by
  unfold stepWaiter at h
  split at h
  · next hk =>
    split at h
    · next he =>
      rw [← Option.some.inj h]
      exact .atOnce hk (Bool.not_eq_true' _ ▸ he)
    · next he =>
      rw [← Option.some.inj h]
      exact .call hk (by simpa using he)
  · next i hk =>
    split at h
    · rw [← Option.some.inj h]
      exact .move (by simp [hk]) (by simp [hk])
    · rw [← Option.some.inj h]
      exact .leave (by simp [hk]) (by simp [hk])
  · next i hk =>
    split at h
    · split at h
      · rw [← Option.some.inj h]
        exact .move (by simp [hk]) (by simp [hk])
      · rw [← Option.some.inj h]
        exact .move (by simp [hk]) (by simp [hk])
    · rw [← Option.some.inj h]
      exact .crash (by simp [hk])
  · next hk =>
    rw [← Option.some.inj h]
    exact .move (by simp [hk]) (by simp [hk])
  · cases h

theorem waitStep_cases (h : (waiting n).step p l = some p') : WaitStep n p l p' := by
  have h : stepWaiting n p l = some p' := h
  unfold stepWaiting at h
  split at h
  · cases h
  · cases l with
    | pool a =>
      obtain ⟨q, hq, rfl⟩ := Option.map_eq_some_iff.mp h
      exact .pool hq
    | waiter k => exact stepWaiter_cases h

theorem waiterAt_waiter {j : W} {pc : WaiterPc} :
    (p.waiterAt k pc).waiter j = if j = k then pc else p.waiter j := by
  show Function.update p.waiter k pc j = _
  rw [Function.update_apply]

theorem Seen.waiterAt {pc : WaiterPc} (h : Seen n p)
    (hk : pc ≠ .returned → p.pool.m_exit = true) : Seen n (p.waiterAt k pc) where
  pool := h.pool
  exit j hidle hret := by
    rw [waiterAt_waiter] at hidle hret
    split at hret
    · exact hk hret
    · next hj =>
      rw [if_neg hj] at hidle
      exact h.exit j hidle hret

theorem Seen.step (h : Seen n p) (hst : WaitStep n p l p') : Seen n p' := by
  cases hst with
  | @pool a q hq =>
    refine ⟨h.pool.step trivial hq, fun j hidle hret => ?_⟩
    have he := h.exit j hidle hret
    rcases (step_cases hq).2.exit with ⟨heq, -⟩ | ⟨heq, -⟩
    · exact heq.trans he
    · exact heq
  | @atOnce k =>
    have hw : Seen n (p.waiterAt k .returned) := h.waiterAt fun hne => absurd rfl hne
    exact ⟨hw.pool, hw.exit⟩
  | @call k hk he =>
    have hw : Seen n (p.waiterAt k (.test 0)) := h.waiterAt fun _ => he
    exact ⟨hw.pool, hw.exit⟩
  | move hk hr => exact h.waiterAt fun _ => h.exit _ hk hr
  | @leave k =>
    have hw : Seen n (p.waiterAt k .returned) := h.waiterAt fun hne => absurd rfl hne
    exact ⟨hw.pool, hw.exit⟩
  | crash => exact ⟨h.pool, h.exit⟩

theorem seen_reach {ok : Waiting Id W → WaitAct Id W → Prop} (h : (waiting n).Reach ok p) :
    Seen n p :=
  h.inv seen_start fun _ _ _ hi _ hst => hi.step (waitStep_cases hst)

/-! ## the returns -/

/-- a step adds at most one return; one that is quiet is that of a call that returns at once -/
theorem Seen.returns (h : Seen n p) (hst : WaitStep n p l p') :
    p'.returns = p.returns ∨
      (∃ k, l = .waiter k ∧ p.waiter k = .idle ∧
        p'.returns = p.returns ++ [⟨addedIds p.pool.log, p.pool⟩]) ∨
      ∃ r : Return Id, p'.returns = p.returns ++ [r] ∧ ¬ Quiet r.pool := by
  cases hst with
  | pool | call | move | crash => exact .inl rfl
  | @atOnce k hk => exact .inr (.inl ⟨k, rfl, hk, rfl⟩)
  | @leave k hk hr =>
    refine .inr (.inr ⟨_, rfl, fun hq => ?_⟩)
    have he := h.exit k hk hr
    rw [exit_of_idle h.pool hq.1] at he
    cases he

/-- every return before `Terminate` and while no `AddTask` is in progress is right -/
def Waits (n : ℕ) (p : Waiting Id W) : Prop := ∀ r ∈ p.returns, Quiet r.pool → r.Right n

theorem Waits.step (hp : Waits n p) (h : Seen n p) (hok : OnlyIdle n p l)
    (hst : WaitStep n p l p') : Waits n p' := by
  intro r hr hq
  rcases h.returns hst with he | ⟨k, rfl, hk, he⟩ | ⟨r', he, hnq⟩
  · rw [he] at hr
    exact hp r hr hq
  · rw [he, List.mem_append, List.mem_singleton] at hr
    rcases hr with hr | rfl
    · exact hp r hr hq
    · have hempty := hok hk hq
      exact ⟨fun id hid => finished_of_noTasks h.pool hempty hid, hempty⟩
  · rw [he, List.mem_append, List.mem_singleton] at hr
    rcases hr with hr | rfl
    · exact hp r hr hq
    · exact absurd hq hnq

/-- **A call that finds something to wait for does not wait for it.** -/
theorem Waits.onlyIdle (hp' : Waits n p') (h : Seen n p) (hst : WaitStep n p l p') :
    Waits n p ∧ OnlyIdle n p l := by
  constructor
  · intro r hr
    refine hp' r ?_
    rcases h.returns hst with he | ⟨k, -, -, he⟩ | ⟨r', he, -⟩
    · rwa [he]
    · exact he ▸ List.mem_append_left _ hr
    · exact he ▸ List.mem_append_left _ hr
  · cases l with
    | pool a => exact trivial
    | waiter k =>
      intro hk hq
      have hexit := exit_of_idle h.pool hq.1
      cases hst with
      | atOnce => exact (hp' _ (List.mem_append_right _ (List.mem_singleton_self _)) hq).2
      | call _ he => exact absurd (he.symm.trans hexit) nofun
      | move hne => exact absurd hk hne
      | leave hne => exact absurd hk hne
      | crash hne => exact absurd hk hne

/-- **`WaitForIdle` is right, in every run, iff it was called only when no worker had a task in its
lists.** -/
theorem waitForIdle_iff (h : (waiting n).Reachable p) :
    Waits n p ↔ (waiting n).Reach (OnlyIdle n) p := by
  have hiff : (waiting n).Reach (OnlyIdle n) p ↔ (waiting n).Reachable p ∧ Waits n p := by
    refine Reach.iff_inv (fun _ hm => absurd hm List.not_mem_nil) ?_ ?_
    · intro p l p' hr hp hok hst
      exact hp.step (seen_reach hr) hok (waitStep_cases hst)
    · intro p l p' hr hst hp'
      exact hp'.onlyIdle (seen_reach hr) (waitStep_cases hst)
  rw [hiff]
  exact (and_iff_right h).symm

/-- it is called after two tasks have been run -/
theorem waitForIdle_iff_two : ∃ p : Waiting ℕ ℕ, (waiting 1).Reach (OnlyIdle 1) p ∧
    p.returns.map (·.before) = [[0, 1]] := by
  have h : ((waiting 1).exec (waiting 1 : Machine (Waiting ℕ ℕ) (WaitAct ℕ ℕ)).init
      [.pool (.addTask 0 0), .pool (.adder 0), .pool (.adder 0), .pool (.addTask 1 5),
        .pool (.adder 1), .pool (.adder 1), .pool (.worker 0), .pool (.worker 0), .pool (.worker 0),
        .pool (.worker 0), .pool (.worker 0), .pool (.worker 0), .waiter 0]).map (fun p =>
        p.returns.map fun r => (r.before, finishedIds r.pool.log, (r.pool.worker 0).pending_tasks,
          (r.pool.worker 0).working_tasks)) = some [([0, 1], [0, 1], [], [])] := by decide
  obtain ⟨p, hp, he⟩ := Option.map_eq_some_iff.mp h
  obtain ⟨r, hr, hv⟩ := List.map_eq_singleton_iff.mp he
  simp only [Prod.mk.injEq] at hv
  obtain ⟨hbefore, hfin, hpend, hwork⟩ := hv
  refine ⟨p, (waitForIdle_iff (.of_exec _ .init hp)).mp fun r' hr' _ => ?_, ?_⟩
  · rw [hr, List.mem_singleton] at hr'
    subst hr'
    refine ⟨fun id hid => ?_, fun w hw => ?_⟩
    · rw [hfin, ← hbefore]
      exact hid
    · obtain rfl := Nat.lt_one_iff.mp hw
      exact ⟨hpend, hwork⟩
  · rw [hr, List.map_singleton, hbefore]

/-- it is called while a task is pending, and returns -/
theorem not_waits : ¬ ∀ p : Waiting Unit Unit, (waiting 1).Reachable p → Waits 1 p := by
  intro hall
  have h : ((waiting 1).exec (waiting 1 : Machine (Waiting Unit Unit) (WaitAct Unit Unit)).init
      [.pool (.addTask () 0), .pool (.adder ()), .pool (.adder ()), .waiter ()]).map (fun p =>
        p.returns.map fun r => (r.pool.terminator, r.pool.adder (), (r.pool.worker 0).pending_tasks)) =
      some [(.idle, .returned, [()])] := by decide
  obtain ⟨p, hp, he⟩ := Option.map_eq_some_iff.mp h
  obtain ⟨r, hr, hv⟩ := List.map_eq_singleton_iff.mp he
  simp only [Prod.mk.injEq] at hv
  obtain ⟨hterm, hadder, hpend⟩ := hv
  have hright := hall p (.of_exec _ .init hp) r (hr ▸ List.mem_singleton_self r)
    ⟨hterm, fun id => .inr hadder⟩
  rw [(hright.2 0 Nat.one_pos).1] at hpend
  cases hpend

end ToftPool
end CppCores
