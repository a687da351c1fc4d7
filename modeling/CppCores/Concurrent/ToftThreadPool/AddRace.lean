import Mathlib.Tactic.Common
import CppCores.Concurrent.ToftThreadPool.Tasks
import CppCores.Concurrent.ToftThreadPool.WaitForIdle

/-!
# ToftThreadPool: `AddTask` while `Terminate` runs

`AddTask` tests `m_exit` once and then goes on to a context.  In `racing n` it locks the mutex of the
context and pushes its task in two steps; a worker and `Terminate` have to wait for the mutex, `delete[]`
does not.

* `OnWay n w pc`        the call has passed the test, and is on its way to the context `w`;
* `Ahead`               no call is on its way to a worker that has looked at its `pending_tasks` for the
                        last time;
* `Good.step`, `Good.back`   a step keeps what is good iff it is `Clear`: no worker looks for the last
                        time while a call is on its way to it;
* `addTask_race_iff`    **so the calls are safe in the runs whose steps are all `Clear`, and in no other
                        once they have returned.**
-/

set_option linter.unusedSectionVars false

namespace CppCores
namespace ToftPool
open Machine

/-! ## locking and pushing -/

/-- the pool, and the `AddTask` call that holds the mutex of each context -/
structure Racing (Id : Type*) where
  pool : State Id
  holder : ℕ → Option Id

inductive RaceAct (Id : Type*) where
  /-- a call locks the mutex of its context -/
  | lock (id : Id)
  | pool (a : Act Id)

section
variable {Id : Type*} [DecidableEq Id]

namespace Racing

def holderAt (r : Racing Id) (w : ℕ) (id : Option Id) : Racing Id :=
  { r with holder := Function.update r.holder w id }

def setPool (r : Racing Id) (s : State Id) : Racing Id := { r with pool := s }

/-- a call pushes only with the mutex of its context, and no section of that context is entered
while a call has it -/
def mayStep (r : Racing Id) : Act Id → Bool
  | .adder id =>
    match r.pool.adder id with
    | .push _ w => r.holder w = some id
    | .idle | .index _ | .returned => true
  | .worker w => (r.pool.worker w).pc ≠ .ready || r.holder w = none
  | .terminate =>
    match r.pool.terminator with
    | .flagging i => !decide (i < r.pool.m_num_threads) || r.holder i = none
    | _ => true
  | _ => true

/-- the mutex is unlocked after the push -/
def release (r : Racing Id) : Act Id → Racing Id
  | .adder id =>
    match r.pool.adder id with
    | .push _ w => r.holderAt w none
    | .idle | .index _ | .returned => r
  | _ => r

end Racing

/-- the call locks the mutex of its context -/
def stepLock (r : Racing Id) (id : Id) : Option (Racing Id) :=
  match r.pool.adder id with
  | .push _ w =>
    if r.pool.crashed then none
    else if r.pool.Contexts then
      if r.holder w = none then some (r.holderAt w (some id)) else none
    else some (r.setPool r.pool.crash)
  | .idle | .index _ | .returned => none

def stepRacing (n : ℕ) (r : Racing Id) : RaceAct Id → Option (Racing Id)
  | .lock id => stepLock r id
  | .pool a => if r.mayStep a then (step n r.pool a).map (r.release a).setPool else none

/-- the pool of `n` threads after its constructor -/
def racing (n : ℕ) : Machine (Racing Id) (RaceAct Id) := ⟨⟨start n, fun _ => none⟩, stepRacing n⟩

variable {n w : ℕ} {s s' : State Id} {a : Act Id} {r r' : Racing Id} {l : RaceAct Id}

theorem stepLock_cases {id : Id} (h : stepLock r id = some r') :
    r'.pool = r.pool ∨ (pool n).step r.pool (.adder id) = some r'.pool := by
  unfold stepLock at h
  split at h
  · next key w hp =>
    obtain ⟨hc, h⟩ := Option.ite_none_left_eq_some.mp h
    split at h
    · obtain ⟨-, h⟩ := Option.ite_none_right_eq_some.mp h
      obtain rfl := Option.some.inj h
      exact .inl rfl
    · next hctx =>
      obtain rfl := Option.some.inj h
      refine .inr ((if_neg hc).trans ?_)
      show stepAdder r.pool id = some r.pool.crash
      rw [stepAdder, hp]
      exact if_neg hctx
  all_goals cases h

theorem stepRacing_cases (h : stepRacing n r l = some r') :
    (∃ id, l = .lock id ∧ (r'.pool = r.pool ∨ (pool n).step r.pool (.adder id) = some r'.pool)) ∨
      ∃ a, l = .pool a ∧ (pool n).step r.pool a = some r'.pool := by
  cases l with
  | lock id => exact .inl ⟨id, rfl, stepLock_cases h⟩
  | pool a =>
    have hif : (if r.mayStep a then (step n r.pool a).map (r.release a).setPool else none) = some r' := h
    obtain ⟨-, h⟩ := Option.ite_none_right_eq_some.mp hif
    obtain ⟨s, hs, rfl⟩ := Option.map_eq_some_iff.mp h
    exact .inr ⟨a, rfl, hs⟩

theorem reachable_pool (h : (racing n).Reachable r) : (pool n).Reachable r.pool := by
  induction h with
  | init => exact .init
  | step _ _ hst ih =>
    rcases stepRacing_cases hst with ⟨id, -, he | hst⟩ | ⟨a, -, hst⟩
    · rwa [he]
    · exact ih.step trivial hst
    · exact ih.step trivial hst

/-! ## what the calls rely on -/

/-- the call has passed its test of `m_exit` and goes to the context `w` -/
def AdderPc.OnWay (n w : ℕ) : AdderPc → Prop
  | .index key => key % n = w
  | .push _ v => v = w
  | .idle | .returned => False

/-- a call goes on to the pool only if that has a thread, and no worker looks at its `pending_tasks`
for the last time while a call is on its way to it -/
def Clear (n : ℕ) (s : State Id) : Act Id → Prop
  | .addTask _ _ => s.m_exit = false → 0 < n
  | .worker w => (s.worker w).pc = .ready → (s.worker w).exit = true → ∀ id, ¬ (s.adder id).OnWay n w
  | _ => True

def ClearRace (n : ℕ) (r : Racing Id) : RaceAct Id → Prop
  | .lock _ => True
  | .pool a => Clear n r.pool a

/-- no remainder by 0, no context after `delete[]`, no task where no worker looks again -/
structure Safe (n : ℕ) (s : State Id) : Prop where
  crashed : s.crashed = false
  looked : ∀ w < n, (s.worker w).pc.last → (s.worker w).pending_tasks = []

/-- `AddTask` is safe; and once the wait of `Terminate` is over every task added has been run once -/
structure AddTaskRight (n : ℕ) (s : State Id) : Prop where
  safe : Safe n s
  run : s.terminator.joins → ∀ id ∈ addedIds s.log,
    (startedIds s.log).count id = 1 ∧ (finishedIds s.log).count id = 1

def Ahead (n : ℕ) (s : State Id) : Prop :=
  ∀ id w, (s.adder id).OnWay n w → w < n ∧ (s.worker w).pc.last = false

structure Good (n : ℕ) (s : State Id) : Prop where
  safe : Safe n s
  ahead : Ahead n s

/-! ## a worker in its last round -/

namespace Worker
variable {c c' : Worker Id} {ev : List (Event Id)}

@[simp] theorem notify_last : c.notify.pc.last = c.pc.last := by
  unfold Worker.notify
  split
  · next h => rw [h]; rfl
  · rfl

@[simp] theorem notify_pending : c.notify.pending_tasks = c.pending_tasks := by
  unfold Worker.notify
  split <;> rfl

theorem Next.stays (h : Next w c c' ev) (hl : c.pc.last) :
    c'.pc.last ∧ c'.pending_tasks = c.pending_tasks := by
  cases h with
  | sleep hp | swap hp => rw [hp] at hl; cases hl
  | start hp => rw [hp] at hl; exact ⟨hl, rfl⟩
  | @clear b i hp =>
    rw [hp] at hl
    cases b with
    | true => cases hl
    | false => exact ⟨rfl, rfl⟩
  | finish hp => rw [hp] at hl; exact ⟨hl, rfl⟩

/-- it begins when the worker finds `exit` set, and then with no task pending -/
theorem Next.begins (h : Next w c c' ev) (hw : c.pc.outside → c.working_tasks = [])
    (hl : ¬ c.pc.last) (hl' : c'.pc.last) :
    c.pc = .ready ∧ c.exit = true ∧ c'.pending_tasks = [] := by
  cases h with
  | sleep => cases hl'
  | swap hp => exact ⟨hp, Bool.not_not c.exit ▸ hl', hw (by rw [hp]; rfl)⟩
  | start hp => rw [hp] at hl; exact absurd hl' hl
  | @clear b i hp =>
    rw [hp] at hl
    cases b with
    | true => cases hl'
    | false => exact absurd rfl hl
  | finish hp => rw [hp] at hl; exact absurd hl' hl

end Worker

/-! ## what a step of the pool does -/

theorem pos_of_push (hr : (pool n).Reachable s) {id : Id} {key : ℕ} (hp : s.adder id = .push key w) :
    0 < n := by
  rcases Nat.eq_zero_or_pos n with rfl | hn
  · exact absurd hp ((log_zero hr).2.1 id key w)
  · exact hn

theorem keyed (hr : (pool n).Reachable s) {id : Id} {key : ℕ} (hp : s.adder id = .push key w) :
    w = key % n :=
  (inv_reach (pos_of_push hr hp) hr).adding.keyed id key w hp

theorem threads_of_ne (hr : (pool n).Reachable s) (h0 : s.m_num_threads ≠ 0) : s.m_num_threads = n := by
  rcases Nat.eq_zero_or_pos n with rfl | hn
  · exact (log_zero hr).1
  · have ht := (inv_reach hn hr).terminating.threads
    split at ht
    · exact absurd ht h0
    · exact ht

/-- the worker `w`, which is `c` by now, does not look again, and has in its `pending_tasks` what it had
in `s`, but for a task whose call was on its way to it -/
def Stays (n : ℕ) (s : State Id) (w : ℕ) (c : Worker Id) : Prop :=
  c.pc.last ∧ (c.pending_tasks = (s.worker w).pending_tasks ∨
    ∃ id, (s.adder id).OnWay n w ∧ c.pending_tasks = (s.worker w).pending_tasks ++ [id])

theorem Stays.setWorker {v : ℕ} {c : Worker Id} (hl : (s.worker w).pc.last)
    (hc : (s.worker v).pc.last → Stays n s v c) : Stays n s w ((s.setWorker v c).worker w) := by
  rw [setWorker_worker]
  split
  · next hv =>
    subst hv
    exact hc hl
  · exact ⟨hl, .inl rfl⟩

theorem Step.stays (hst : Step n s a s') (hl : (s.worker w).pc.last) :
    Stays n s w (s'.worker w) := by
  cases hst with
  | call | index | crash | flagAll | flagged | recheck | join | joined | deleted
  | spuriousTerminate => exact ⟨hl, .inl rfl⟩
  | @push id key v hp =>
    refine Stays.setWorker hl fun hlv => ⟨?_, .inr ⟨id, ?_, ?_⟩⟩
    · rwa [Worker.notify_last]
    · rw [hp]
      rfl
    · rw [Worker.notify_pending]
      rfl
  | next _ hn => exact Stays.setWorker hl fun hlv => ⟨(hn.stays hlv).1, .inl (hn.stays hlv).2⟩
  | leave => exact Stays.setWorker hl fun _ => ⟨rfl, .inl rfl⟩
  | spurious | flag =>
    refine Stays.setWorker hl fun hlv => ⟨?_, .inl Worker.notify_pending⟩
    rwa [Worker.notify_last]

theorem not_last_setWorker {v : ℕ} {c : Worker Id} (hl : ¬ (s.worker w).pc.last)
    (hc : c.pc.last = (s.worker v).pc.last) : ¬ ((s.setWorker v c).worker w).pc.last := by
  rw [setWorker_worker]
  split
  · next hv =>
    subst hv
    rwa [hc]
  · exact hl

theorem Step.begins (hr : (pool n).Reachable s) (hst : Step n s a s') (hl : ¬ (s.worker w).pc.last)
    (hl' : (s'.worker w).pc.last) :
    a = .worker w ∧ (s.worker w).pc = .ready ∧ (s.worker w).exit = true ∧
      (s'.worker w).pending_tasks = [] := by
  cases hst with
  | call | index | crash | flagAll | flagged | recheck | join | joined | deleted
  | spuriousTerminate => exact absurd hl' hl
  | push | spurious | flag => exact absurd hl' (not_last_setWorker hl Worker.notify_last)
  | @leave v _ hp => exact absurd hl' (not_last_setWorker hl (by rw [hp]; rfl))
  | @next v c ev hv hn =>
    have hw : w = v := by
      by_contra hne
      refine hl ?_
      have hl' : ((s.setWorker v c).worker w).pc.last := hl'
      rwa [setWorker_worker, if_neg hne] at hl'
    subst hw
    have hself : ((s.setWorker w c).record ev).worker w = c := Function.update_self ..
    rw [hself] at hl' ⊢
    have hok := (inv_reach (Nat.zero_lt_of_lt hv) hr).working.ok w
    exact ⟨rfl, hn.begins hok.working hl hl'⟩

theorem Step.onWay (hr : (pool n).Reachable s) (hst : Step n s a s') {id : Id}
    (h : (s.adder id).OnWay n w) :
    (s'.adder id).OnWay n w ∨ s'.crashed = true ∨ (w < n ∧ (s'.worker w).pending_tasks ≠ []) := by
  cases hst with
  | @call b key hp =>
    refine .inl ?_
    rw [adderAt_adder, if_neg]
    · exact h
    · rintro rfl
      rw [hp] at h
      exact h
  | @index b key hp h0 =>
    refine .inl ?_
    rw [adderAt_adder]
    split
    · next hb =>
      subst hb
      rw [hp] at h
      show key % s.m_num_threads = w
      rw [threads_of_ne hr h0]
      exact h
    · exact h
  | @push b key v hp =>
    by_cases hb : id = b
    · subst hb
      rw [hp] at h
      obtain rfl : v = w := h
      refine .inr (.inr ⟨?_, ?_⟩)
      · rw [keyed hr hp]
        exact Nat.mod_lt key (pos_of_push hr hp)
      · show ((s.setWorker v _).worker v).pending_tasks ≠ []
        rw [setWorker_worker, if_pos rfl, Worker.notify_pending]
        exact List.append_ne_nil_of_right_ne_nil _ (List.cons_ne_nil _ _)
    · refine .inl ?_
      rw [adderAt_adder, if_neg hb]
      exact h
  | crash => exact .inr (.inl rfl)
  | next | leave | spurious | flagAll | flag | flagged | recheck | join | joined | deleted
  | spuriousTerminate => exact .inl h

theorem Step.onWay_back (hr : (pool n).Reachable s) (hst : Step n s a s') {id : Id}
    (h : (s'.adder id).OnWay n w) :
    (s.adder id).OnWay n w ∨ ∃ key, a = .addTask id key ∧ s.m_exit = false ∧ key % n = w := by
  cases hst with
  | @call b key hp =>
    rw [adderAt_adder] at h
    split at h
    · next hb =>
      subst hb
      split at h
      · cases h
      · next he => exact .inr ⟨key, rfl, eq_false_of_ne_true he, h⟩
    · exact .inl h
  | @index b key hp h0 =>
    rw [adderAt_adder] at h
    split at h
    · next hb =>
      subst hb
      refine .inl ?_
      rw [hp, ← threads_of_ne hr h0]
      exact h
    · exact .inl h
  | @push b key v hp =>
    rw [adderAt_adder] at h
    split at h
    · cases h
    · exact .inl h
  | crash | next | leave | spurious | flagAll | flag | flagged | recheck | join | joined | deleted
  | spuriousTerminate => exact .inl h

/-- the end of the program comes from a call on its way, when every worker has left -/
theorem crash_onWay (hr : (pool n).Reachable s) (hst : (pool n).step s a = some s')
    (hc : s'.crashed = true) :
    ∃ id w, a = .adder id ∧ (s.adder id).OnWay n w ∧ (w < n → (s'.worker w).pc.last) := by
  have hlast : ∀ w < n, (s'.worker w).pc.last := by
    intro w hw
    have hi := (inv_reach (Nat.zero_lt_of_lt hw) hr).step (Nat.zero_lt_of_lt hw) hst
    rw [hi.gone (hi.terminating.crashed hc) hw]
    rfl
  obtain ⟨hcr, hs⟩ := step_cases hst
  cases hs with
  | crash id =>
    have hadd : stepAdder s id = some s.crash := (if_neg (by rw [hcr]; nofun)).symm.trans hst
    unfold stepAdder at hadd
    split at hadd
    · cases hadd
    · next key hp => exact ⟨id, key % n, rfl, by rw [hp]; rfl, hlast _⟩
    · next key w hp => exact ⟨id, w, rfl, by rw [hp]; rfl, hlast _⟩
    · cases hadd
  | call | index | push | next | leave | spurious | flagAll | flag | flagged | recheck | join | joined
  | deleted | spuriousTerminate => exact absurd (hcr.symm.trans hc) nofun

/-! ## a step keeps what is good iff it is clear -/

theorem exit_of_last (hr : (pool n).Reachable s) (hw : w < n) (hl : (s.worker w).pc.last) :
    s.m_exit = true := by
  have hi := inv_reach (Nat.zero_lt_of_lt hw) hr
  exact hi.terminating.exits w ((hi.working.ok w).last hl).1

namespace Good

theorem start : Good n (ToftPool.start n : State Id) where
  safe := ⟨rfl, nofun⟩
  ahead := nofun

theorem ahead_step (h : Good n s) (hr : (pool n).Reachable s) (hst : Step n s a s')
    (hok : Clear n s a) : Ahead n s' := by
  intro id w hon
  rcases hst.onWay_back hr hon with hon | ⟨key, rfl, hexit, rfl⟩
  · obtain ⟨hw, hl⟩ := h.ahead id w hon
    refine ⟨hw, eq_false_of_ne_true fun hl' => ?_⟩
    -- the worker has just looked, while the call is on its way
    obtain ⟨rfl, hp, he, -⟩ := hst.begins hr (by rw [hl]; nofun) hl'
    exact hok hp he id hon
  · have hw : key % n < n := Nat.mod_lt key (hok hexit)
    refine ⟨hw, eq_false_of_ne_true fun hl' => ?_⟩
    by_cases hl : (s.worker (key % n)).pc.last
    · exact absurd (hexit.symm.trans (exit_of_last hr hw hl)) nofun
    · exact absurd (hst.begins hr hl hl').1 nofun

theorem step (h : Good n s) (hr : (pool n).Reachable s) (hok : Clear n s a)
    (hst : (pool n).step s a = some s') : Good n s' := by
  have hs := (step_cases hst).2
  refine ⟨⟨eq_false_of_ne_true fun hc => ?_, fun w hw hl' => ?_⟩, h.ahead_step hr hs hok⟩
  · obtain ⟨id, w, rfl, hon, hl'⟩ := crash_onWay hr hst hc
    obtain ⟨hw, hl⟩ := h.ahead id w hon
    exact absurd (hs.begins hr (by rw [hl]; nofun) (hl' hw)).1 nofun
  · by_cases hl : (s.worker w).pc.last
    · rcases (hs.stays hl).2 with hpend | ⟨id, hon, -⟩
      · rw [hpend, h.safe.looked w hw hl]
      · exact absurd ((h.ahead id w hon).2.symm.trans hl) nofun
    · exact (hs.begins hr hl hl').2.2.2

/-- nothing that is broken is mended -/
theorem safe_back (h : Good n s') (hst : (pool n).step s a = some s') : Safe n s := by
  obtain ⟨hc, hs⟩ := step_cases hst
  refine ⟨hc, fun w hw hl => ?_⟩
  obtain ⟨hl', hpend⟩ := hs.stays hl
  have hnil := h.safe.looked w hw hl'
  rcases hpend with hpend | ⟨id, -, hpend⟩
  · rw [← hpend, hnil]
  · rw [hpend] at hnil
    exact absurd hnil (List.append_ne_nil_of_right_ne_nil _ (List.cons_ne_nil _ _))

theorem ahead_back (h : Good n s') (hr : (pool n).Reachable s) (hs : Step n s a s') : Ahead n s := by
  intro id w hon
  have hback : (s'.worker w).pc.last = false → (s.worker w).pc.last = false := fun hl' =>
    eq_false_of_ne_true fun hl => absurd (hl'.symm.trans (hs.stays hl).1) nofun
  rcases hs.onWay hr hon with hon' | hc | ⟨hw, hpend⟩
  · obtain ⟨hw, hl'⟩ := h.ahead id w hon'
    exact ⟨hw, hback hl'⟩
  · exact absurd (h.safe.crashed.symm.trans hc) nofun
  · exact ⟨hw, hback (eq_false_of_ne_true fun hl' => hpend (h.safe.looked w hw hl'))⟩

theorem clear (h : Good n s') (hs : Step n s a s') : Clear n s a := by
  cases hs with
  | @call id key _ =>
    intro hexit
    have hon : ((s.adderAt id (if s.m_exit then .returned else .index key)).adder id).OnWay n
        (key % n) := by
      rw [adderAt_adder, if_pos rfl, hexit]
      rfl
    exact Nat.zero_lt_of_lt (h.ahead id _ hon).1
  | @next w c ev hw hn =>
    intro hp he id hon
    have hl' := (h.ahead id w hon).2
    have hself : ((s.setWorker w c).record ev).worker w = c := Function.update_self ..
    rw [hself] at hl'
    cases hn with
    | sleep _ _ he' => exact absurd (he'.symm.trans he) nofun
    | swap => exact absurd (hl'.symm.trans (congrArg (!!·) he)) nofun
    | start hp' | clear hp' | finish hp' => exact absurd (hp.symm.trans hp') nofun
  | leave _ hp' => exact fun hp => absurd (hp.symm.trans hp') nofun
  | _ => trivial

end Good

theorem reach_clear_iff :
    (racing n).Reach (ClearRace n) r ↔ (racing n).Reachable r ∧ Good n r.pool := by
  refine Reach.iff_inv (I := fun r : Racing Id => Good n r.pool) Good.start ?_ ?_
  · intro r l r' hr hg hok hst
    have hrp := reachable_pool hr
    rcases stepRacing_cases hst with ⟨id, -, he | hpool⟩ | ⟨a, rfl, hpool⟩
    · rwa [he]
    · exact hg.step (a := .adder id) hrp trivial hpool
    · exact hg.step hrp hok hpool
  · intro r l r' hr hst hg
    have hrp := reachable_pool hr
    rcases stepRacing_cases hst with ⟨id, rfl, he | hpool⟩ | ⟨a, rfl, hpool⟩
    · rw [he] at hg
      exact ⟨hg, trivial⟩
    · have hs : Step n r.pool (.adder id) r'.pool := (step_cases (a := .adder id) hpool).2
      exact ⟨⟨hg.safe_back hpool, hg.ahead_back hrp hs⟩, trivial⟩
    · have hs : Step n r.pool a r'.pool := (step_cases hpool).2
      exact ⟨⟨hg.safe_back hpool, hg.ahead_back hrp hs⟩, hg.clear hs⟩

/-- in a state without tasks that nobody looks at, the tasks have been run when `Terminate` has
waited for the workers -/
theorem Safe.right (h : Safe n s) (hr : (pool n).Reachable s) : AddTaskRight n s where
  safe := h
  run := fun hj id hid => by
    rcases Nat.eq_zero_or_pos n with rfl | hn
    · rw [(log_zero hr).2.2] at hid
      cases hid
    · have hi := inv_reach hn hr
      refine hi.done_of_joins hj hid fun w hw => ?_
      have hlast : (s.worker w).pc.last := by
        rw [hi.gone hj hw]
        rfl
      rw [h.looked w hw hlast]
      exact List.not_mem_nil

/-- no call has passed its test and not returned -/
def Settled (s : State Id) : Prop := ∀ id, s.adder id = .idle ∨ s.adder id = .returned

theorem Settled.ahead (h : Settled s) : Ahead n s := by
  intro id w hon
  rcases h id with hp | hp <;> rw [hp] at hon <;> exact hon.elim

/-- **`AddTask` is safe in the runs whose steps are all clear, and a run after which all calls have
returned is safe only if they are.** -/
theorem addTask_race_iff (n : ℕ) :
    (∀ r : Racing Id, (racing n).Reach (ClearRace n) r → AddTaskRight n r.pool) ∧
      ∀ r : Racing Id, (racing n).Reachable r → Settled r.pool →
        (AddTaskRight n r.pool ↔ (racing n).Reach (ClearRace n) r) := by
  have hright : ∀ r : Racing Id, (racing n).Reach (ClearRace n) r → AddTaskRight n r.pool :=
    fun r h => (reach_clear_iff.mp h).2.safe.right (reachable_pool h.reachable)
  refine ⟨hright, fun r hr hset => ⟨fun h => ?_, hright r⟩⟩
  exact reach_clear_iff.mpr ⟨hr, h.safe, hset.ahead⟩

end

/-- one call has its task run, one comes after `m_exit` was set -/
theorem addTask_race_iff_two : ∃ r : Racing Bool, (racing 1).Reach (ClearRace 1) r ∧
    r.pool.terminator = .returned ∧ finishedIds r.pool.log = [false] ∧
      r.pool.adder true = .returned := by
  have h : ((racing 1).exec (racing 1 : Machine (Racing Bool) (RaceAct Bool)).init
      [.pool (.addTask false 5), .pool (.adder false), .lock false, .pool (.adder false),
        .pool (.worker 0), .pool (.worker 0), .pool (.worker 0), .pool (.worker 0), .pool .terminate,
        .pool .terminate, .pool (.addTask true 3), .pool (.worker 0), .pool (.worker 0),
        .pool .terminate, .pool (.worker 0), .pool .terminate, .pool .terminate, .pool .terminate,
        .pool .terminate]).map (fun r => ((r.pool.crashed, (r.pool.worker 0).pending_tasks),
          (r.pool.adder false, r.pool.adder true), r.pool.terminator, r.pool.log)) =
      some ((false, []), (.returned, .returned), .returned,
        [.added false 5, .started false 0, .finished false 0]) := by decide
  obtain ⟨r, hr, hv⟩ := Option.map_eq_some_iff.mp h
  simp only [Prod.mk.injEq] at hv
  obtain ⟨⟨hcrashed, hpend⟩, ⟨hfalse, htrue⟩, hterm, hlog⟩ := hv
  have hsettled : Settled r.pool := fun id => by
    cases id with
    | false => exact .inr hfalse
    | true => exact .inr htrue
  refine ⟨r, ((addTask_race_iff 1).2 r (.of_exec _ .init hr) hsettled).mp ?_, hterm, ?_, htrue⟩
  · refine ⟨⟨hcrashed, fun w hw _ => ?_⟩, fun _ => ?_⟩
    · obtain rfl := Nat.lt_one_iff.mp hw
      exact hpend
    · rw [hlog]
      decide
  · rw [hlog]
    rfl

/-- the call passes its test, the worker looks for the last time, and the task is pushed -/
theorem not_addTaskRight :
    ¬ ∀ r : Racing Unit, (racing 1).Reachable r → AddTaskRight 1 r.pool := by
  intro hall
  have h : ((racing 1).exec (racing 1 : Machine (Racing Unit) (RaceAct Unit)).init
      [.pool (.addTask () 0), .pool (.adder ()), .pool .terminate, .pool .terminate,
        .pool (.worker 0), .lock (), .pool (.adder ())]).map (fun r =>
          ((r.pool.worker 0).pc.last, (r.pool.worker 0).pending_tasks)) = some (true, [()]) := by
    decide
  obtain ⟨r, hr, hv⟩ := Option.map_eq_some_iff.mp h
  obtain ⟨hlast, hpend⟩ := Prod.mk.inj hv
  have hnil := (hall r (.of_exec _ .init hr)).safe.looked 0 Nat.one_pos hlast
  rw [hpend] at hnil
  cases hnil

end ToftPool
end CppCores
