import Mathlib.Data.List.Nodup
import Mathlib.Tactic.Common
import CppCores.Lib.Logs
import CppCores.Concurrent.SimpleThreadPool.Model

/-!
# SimpleThreadPool: the discipline of the queue

* `lookForTask_cases`   what a worker does with the lock: it waits only when there is nothing to do, and
                        the `wait_for` is never entered;
* `Inv`                 what was pushed is what was taken and then what is queued, in this order, and
                        each task once;
* `Served`              a queued task has somebody to look after it, as long as `stop` is not set;
* `queue_discipline`    **both hold in every state reached, with a worker at least.**
-/

set_option linter.unusedSectionVars false

namespace CppCores
namespace SimpleThreadPool
variable {Id : Type*} {n w : ℕ} {s s' : State Id} {a : Act Id} {pc : WorkerPc Id}

/-! ## what a step does -/

/-- not in the `wait_for` -/
def WorkerPc.FirstWait (pc : WorkerPc Id) : Prop := pc ≠ .waitingFor ∧ ∀ timedOut, pc ≠ .woken timedOut

theorem WorkerPc.FirstWait.blocked_iff (h : pc.FirstWait) : pc.Blocked ↔ pc = .waiting :=
  or_iff_left h.1

theorem lookForTask_cases (s : State Id) (w : ℕ) :
    (s.stop = false ∧ s.tasks = [] ∧ s.lookForTask w = s.goto w .waiting) ∨
      (s.stop = true ∧ s.lookForTask w = s.goto w .gone) ∨
        s.stop = false ∧ s.tasks ≠ [] ∧ s.lookForTask w = s.take w := by
  unfold State.lookForTask State.wanted
  cases hs : s.stop with
  | true => exact .inr (.inl ⟨rfl, rfl⟩)
  | false =>
    cases ht : s.tasks with
    | nil => exact .inl ⟨rfl, rfl, rfl⟩
    | cons task tasks => exact .inr (.inr ⟨rfl, nofun, rfl⟩)

/-- the queue without its first task, which the worker `w` took -/
def State.pop (s : State Id) (w : ℕ) (task : Id) (tasks : List Id) : State Id :=
  { s with tasks := tasks, taken := s.taken ++ [(task, w)] }

theorem take_eq {task : Id} {tasks : List Id} (h : s.tasks = task :: tasks) (w : ℕ) :
    s.take w = (s.pop w task tasks).goto w (.running task) := by
  rw [State.take, h]
  rfl

variable [DecidableEq Id]

/-- the steps of the pool, as long as nobody is in the `wait_for` -/
inductive Step (n : ℕ) (s : State Id) : Act Id → State Id → Prop
  | enqueue {task : Id} : s.enqueuer task = .idle →
      Step n s (.enqueue task) ((s.push task).enqueuerAt task .notify)
  | notify {task : Id} {w : ℕ} : s.enqueuer task = .notify → w < n → s.worker w = .waiting →
      Step n s (.notifyOne task (some w)) ((s.goto w .ready).enqueuerAt task .returned)
  | nobody {task : Id} : s.enqueuer task = .notify → (∀ w < n, s.worker w ≠ .waiting) →
      Step n s (.notifyOne task none) (s.enqueuerAt task .returned)
  | sleep {w : ℕ} : w < n → s.worker w = .ready → s.stop = false → s.tasks = [] →
      Step n s (.worker w) (s.goto w .waiting)
  | leave {w : ℕ} : w < n → s.worker w = .ready → s.stop = true →
      Step n s (.worker w) (s.goto w .gone)
  | take {w : ℕ} {task : Id} {tasks : List Id} : w < n → s.worker w = .ready → s.stop = false →
      s.tasks = task :: tasks →
      Step n s (.worker w) ((s.pop w task tasks).goto w (.running task))
  | finish {w : ℕ} {task : Id} : w < n → s.worker w = .running task →
      Step n s (.worker w) (s.goto w .ready)
  | spurious {w : ℕ} : w < n → s.worker w = .waiting → Step n s (.spurious w) (s.goto w .ready)
  | setStop : s.destructor = .idle → Step n s .destructor (s.setStop.destructorAt .notify)
  | notifyAll : s.destructor = .notify →
      Step n s .destructor (s.notify_all.destructorAt (.joining 0))
  | joining (pc : DestructorPc) : s.destructor ≠ .idle → Step n s .destructor (s.destructorAt pc)

theorem stepWorker_cases (h2 : ∀ w, (s.worker w).FirstWait) (hw : w < n)
    (h : stepWorker s w = some s') : Step n s (.worker w) s' := by
  unfold stepWorker at h
  split at h
  · next hp =>
    obtain rfl := Option.some.inj h
    rcases lookForTask_cases s w with ⟨hs, ht, he⟩ | ⟨hs, he⟩ | ⟨hs, ht, he⟩
    · rw [he]
      exact .sleep hw hp hs ht
    · rw [he]
      exact .leave hw hp hs
    · obtain ⟨task, tasks, ht⟩ := List.exists_cons_of_ne_nil ht
      rw [he, take_eq ht]
      exact .take hw hp hs ht
  · next b hp => exact absurd hp ((h2 w).2 b)
  · next task hp =>
    obtain rfl := Option.some.inj h
    exact .finish hw hp
  all_goals cases h

theorem stepDestructor_cases (h : stepDestructor n s = some s') : Step n s .destructor s' := by
  unfold stepDestructor at h
  split at h
  · next hp =>
    obtain rfl := Option.some.inj h
    exact .setStop hp
  · next hp =>
    obtain rfl := Option.some.inj h
    exact .notifyAll hp
  · next i hp =>
    have hne : s.destructor ≠ .idle := hp ▸ nofun
    split at h
    · split at h
      · obtain rfl := Option.some.inj h
        exact .joining _ hne
      · cases h
    · obtain rfl := Option.some.inj h
      exact .joining _ hne
  · cases h

theorem step_cases (h2 : ∀ w, (s.worker w).FirstWait) (h : step n s a = some s') :
    s.emptyFront = false ∧ Step n s a s' := by
  obtain ⟨hf, h⟩ := Option.ite_none_left_eq_some.mp h
  refine ⟨eq_false_of_ne_true hf, ?_⟩
  cases a with
  | enqueue task =>
    obtain ⟨hp, h⟩ := Option.ite_none_right_eq_some.mp h
    obtain rfl := Option.some.inj h
    exact .enqueue hp
  | notifyOne task w =>
    obtain ⟨hp, h⟩ := Option.ite_none_right_eq_some.mp h
    obtain ⟨s1, h1, rfl⟩ := Option.map_eq_some_iff.mp h
    cases w with
    | none =>
      obtain ⟨hall, h1⟩ := Option.ite_none_right_eq_some.mp h1
      obtain rfl := Option.some.inj h1
      exact .nobody hp fun w hw => fun hwait => hall w hw (.inl hwait)
    | some w =>
      obtain ⟨⟨hw, hb⟩, h1⟩ := Option.ite_none_right_eq_some.mp h1
      obtain rfl := Option.some.inj h1
      have hwait := (h2 w).blocked_iff.mp hb
      rw [hwait]
      exact .notify hp hw hwait
  | worker w =>
    obtain ⟨hw, h⟩ := Option.ite_none_right_eq_some.mp h
    exact stepWorker_cases h2 hw h
  | spurious w =>
    obtain ⟨⟨hw, hb⟩, h⟩ := Option.ite_none_right_eq_some.mp h
    obtain rfl := Option.some.inj h
    have hwait := (h2 w).blocked_iff.mp hb
    rw [hwait]
    exact .spurious hw hwait
  | timeout w =>
    obtain ⟨⟨-, hwait⟩, -⟩ := Option.ite_none_right_eq_some.mp h
    exact absurd hwait (h2 w).1
  | destructor => exact stepDestructor_cases h

/-! ## each task once, and in order -/

/-- what the place of the worker `w` says -/
structure Placed (stop : Bool) (taken : List (Id × ℕ)) (w : ℕ) (pc : WorkerPc Id) : Prop where
  firstWait : pc.FirstWait
  gone : pc = .gone → stop = true
  running : ∀ task, pc = .running task → (task, w) ∈ taken

theorem Placed.notified {stop : Bool} {taken : List (Id × ℕ)} (h : Placed stop taken w pc) :
    Placed stop taken w pc.notified := by
  cases pc with
  | waiting => exact ⟨⟨nofun, nofun⟩, nofun, nofun⟩
  | waitingFor => exact absurd rfl h.firstWait.1
  | ready => exact h
  | woken timedOut => exact h
  | running task => exact h
  | gone => exact h

structure Inv (s : State Id) : Prop where
  order : s.pushed = s.taken.map Prod.fst ++ s.tasks
  once : s.pushed.Nodup
  called : ∀ task ∈ s.pushed, s.enqueuer task ≠ .idle
  front : s.emptyFront = false
  stopped : s.destructor ≠ .idle → s.stop = true
  place : ∀ w, Placed s.stop s.taken w (s.worker w)

theorem inv_start : Inv (start : State Id) where
  order := rfl
  once := List.nodup_nil
  called := nofun
  front := rfl
  stopped := fun h => absurd rfl h
  place := fun _ => ⟨⟨nofun, nofun⟩, nofun, nofun⟩

namespace Inv

theorem firstWait (h : Inv s) (w : ℕ) : (s.worker w).FirstWait := (h.place w).firstWait

theorem goto (h : Inv s) (hp : Placed s.stop s.taken w pc) : Inv (s.goto w pc) where
  order := h.order
  once := h.once
  called := h.called
  front := h.front
  stopped := h.stopped
  place := (Function.forall_update_iff s.worker fun w pc => Placed s.stop s.taken w pc).mpr
    ⟨hp, fun w _ => h.place w⟩

theorem ready (h : Inv s) (w : ℕ) : Inv (s.goto w .ready) :=
  h.goto ⟨⟨nofun, nofun⟩, nofun, nofun⟩

theorem enqueuerAt (h : Inv s) (task : Id) {pc : EnqueuePc} (hpc : pc ≠ .idle) :
    Inv (s.enqueuerAt task pc) where
  order := h.order
  once := h.once
  called := (Function.forall_update_iff s.enqueuer fun task pc => task ∈ s.pushed → pc ≠ .idle).mpr
    ⟨fun _ => hpc, fun task _ => h.called task⟩
  front := h.front
  stopped := h.stopped
  place := h.place

theorem push (h : Inv s) {task : Id} (ht : s.enqueuer task = .idle) :
    Inv ((s.push task).enqueuerAt task .notify) where
  order := by
    show s.pushed ++ [task] = _ ++ (s.tasks ++ [task])
    rw [h.order, List.append_assoc]
    rfl
  once := nodup_concat h.once fun hm => h.called task hm ht
  called := (Function.forall_update_iff s.enqueuer fun t pc =>
    t ∈ s.pushed ++ [task] → pc ≠ .idle).mpr ⟨nofun, fun t hne hm => by
      rcases List.mem_append.mp hm with hm | hm
      · exact h.called t hm
      · exact absurd (List.mem_singleton.mp hm) hne⟩
  front := h.front
  stopped := h.stopped
  place := h.place

theorem pop (h : Inv s) {task : Id} {tasks : List Id} (ht : s.tasks = task :: tasks) (w : ℕ) :
    Inv (s.pop w task tasks) where
  order := by
    show s.pushed = (s.taken ++ [(task, w)]).map Prod.fst ++ tasks
    rw [h.order, ht, List.map_append, List.append_assoc]
    rfl
  once := h.once
  called := h.called
  front := h.front
  stopped := h.stopped
  place := fun v =>
    { h.place v with running := fun t hv => List.mem_append_left _ ((h.place v).running t hv) }

theorem setStop (h : Inv s) : Inv s.setStop where
  order := h.order
  once := h.once
  called := h.called
  front := h.front
  stopped := fun _ => rfl
  place := fun w => { h.place w with gone := fun _ => rfl }

theorem destructorAt (h : Inv s) (hs : s.stop = true) (pc : DestructorPc) :
    Inv (s.destructorAt pc) where
  order := h.order
  once := h.once
  called := h.called
  front := h.front
  stopped := fun _ => hs
  place := h.place

theorem notify_all (h : Inv s) : Inv s.notify_all where
  order := h.order
  once := h.once
  called := h.called
  front := h.front
  stopped := h.stopped
  place := fun w => (h.place w).notified

theorem step (h : Inv s) (hst : step n s a = some s') : Inv s' := by
  cases (step_cases h.firstWait hst).2 with
  | enqueue ht => exact h.push ht
  | notify _ _ _ => exact (h.ready _).enqueuerAt _ nofun
  | nobody _ _ => exact h.enqueuerAt _ nofun
  | sleep _ _ _ _ => exact h.goto ⟨⟨nofun, nofun⟩, nofun, nofun⟩
  | leave _ _ hs => exact h.goto ⟨⟨nofun, nofun⟩, fun _ => hs, nofun⟩
  | @take w task tasks _ _ _ ht =>
    refine (h.pop ht w).goto ⟨⟨nofun, nofun⟩, nofun, fun t he => ?_⟩
    rw [← WorkerPc.running.inj he]
    exact List.mem_append_right _ (List.mem_singleton_self _)
  | finish _ _ | spurious _ _ => exact h.ready _
  | setStop _ => exact h.setStop.destructorAt rfl _
  | notifyAll hd => exact h.notify_all.destructorAt (h.stopped (hd ▸ nofun)) _
  | joining pc hd => exact h.destructorAt (h.stopped hd) pc

theorem taken_of_stop (h : Inv s) (hs : s.stop = true) (hst : SimpleThreadPool.step n s a = some s') :
    s'.taken = s.taken := by
  cases (step_cases h.firstWait hst).2 with
  | take _ _ hs' _ => exact absurd (hs'.symm.trans hs) nofun
  | _ => rfl

end Inv

theorem inv_reach (h : (threadPool n).Reachable s) : Inv s :=
  h.inv inv_start fun _ _ _ hi _ hst => hi.step hst

theorem Inv.nodup_taken (h : Inv s) : (s.taken.map Prod.fst).Nodup := by
  have honce := h.once
  rw [h.order] at honce
  exact honce.of_append_left

theorem running_unique (h : (threadPool n).Reachable s) {v w : ℕ} {task : Id}
    (hv : s.worker v = .running task) (hw : s.worker w = .running task) : v = w := by
  have hi := inv_reach h
  have hvt := (hi.place v).running task hv
  have hwt := (hi.place w).running task hw
  exact congrArg Prod.snd (List.inj_on_of_nodup_map hi.nodup_taken hvt hwt rfl)

/-! ## nobody is stranded -/

/-- a worker is neither in a wait on `condition` nor gone -/
def Going (n : ℕ) (s : State Id) : Prop :=
  ∃ w < n, ¬ (s.worker w).Blocked ∧ s.worker w ≠ .gone

/-- a queued task has a worker that goes on, or an `enqueue` with its notification to do -/
def Served (n : ℕ) (s : State Id) : Prop :=
  s.stop = false → s.tasks ≠ [] → Going n s ∨ ∃ task, s.enqueuer task = .notify

theorem going_goto (hw : w < n) (hb : ¬ pc.Blocked) (hg : pc ≠ .gone) : Going n (s.goto w pc) := by
  refine ⟨w, hw, ?_⟩
  show ¬ (Function.update s.worker w pc w).Blocked ∧ Function.update s.worker w pc w ≠ .gone
  rw [Function.update_self]
  exact ⟨hb, hg⟩

theorem going_ready (hw : w < n) : Going n (s.goto w .ready) :=
  going_goto hw (by rintro (h | h) <;> cases h) nofun

/-- nobody to notify: all of them go on -/
theorem Inv.going_of_nobody (h : Inv s) (hn : 1 ≤ n) (hs : s.stop = false)
    (hall : ∀ w < n, s.worker w ≠ .waiting) : Going n s := by
  refine ⟨0, hn, fun hb => hall 0 hn ((h.firstWait 0).blocked_iff.mp hb), fun hg => ?_⟩
  exact absurd (hs.symm.trans ((h.place 0).gone hg)) nofun

/-- whoever moves goes on, or leaves an empty queue behind -/
theorem Inv.served (hi : Inv s) (hn : 1 ≤ n) (hst : SimpleThreadPool.step n s a = some s') :
    Served n s' := by
  intro hs ht
  cases (step_cases hi.firstWait hst).2 with
  | @enqueue task _ => exact .inr ⟨task, Function.update_self ..⟩
  | notify _ hw _ => exact .inl (going_ready hw)
  | nobody _ hall => exact .inl (hi.going_of_nobody hn hs hall)
  | sleep _ _ _ hnil => exact absurd hnil ht
  | leave _ _ hs' => exact absurd (hs.symm.trans hs') nofun
  | take hw _ _ _ => exact .inl (going_goto hw (by rintro (h | h) <;> cases h) nofun)
  | finish hw _ | spurious hw _ => exact .inl (going_ready hw)
  | setStop _ => cases hs
  | notifyAll hd => exact absurd (hs.symm.trans (hi.stopped (hd ▸ nofun))) nofun
  | joining _ hd => exact absurd (hs.symm.trans (hi.stopped hd)) nofun

theorem served_reach (hn : 1 ≤ n) (h : (threadPool n).Reachable s) : Served n s := by
  cases h with
  | init => exact fun _ ht => absurd rfl ht
  | step hr _ hst => exact (inv_reach hr).served hn hst

/-- **The discipline of the queue**: tasks are taken in the order in which they were pushed and each
by one worker, never from an empty queue and never once `stop` is set, and none is stranded. -/
theorem queue_discipline (hn : 1 ≤ n) (h : (threadPool n).Reachable s) :
    s.pushed = s.taken.map Prod.fst ++ s.tasks ∧ (s.taken.map Prod.fst).Nodup ∧
      s.emptyFront = false ∧
      (s.stop = true → ∀ a s', (threadPool n).step s a = some s' → s'.taken = s.taken) ∧
      Served n s := by
  have hi := inv_reach h
  exact ⟨hi.order, hi.nodup_taken, hi.front, fun hs _ _ hst => hi.taken_of_stop hs hst,
    served_reach hn h⟩

/-- two workers and two tasks: the first is run, the second is queued when `stop` is set -/
theorem queue_discipline_run : ∃ s : State ℕ, (threadPool 2).Reachable s ∧
    s.taken = [(0, 1)] ∧ s.tasks = [1] ∧ s.stop = true ∧ s.worker 1 = .gone ∧
      s.pushed = s.taken.map Prod.fst ++ s.tasks ∧ (s.taken.map Prod.fst).Nodup ∧
        s.emptyFront = false ∧
        (s.stop = true → ∀ a s', (threadPool 2).step s a = some s' → s'.taken = s.taken) ∧
        Served 2 s := by
  have h : ((threadPool 2).exec (threadPool 2 : Machine (State ℕ) (Act ℕ)).init
      [.worker 0, .worker 1, .enqueue 0, .notifyOne 0 (some 1), .worker 1, .enqueue 1, .destructor,
        .worker 1, .worker 1]).map (fun s => (s.taken, s.tasks, s.stop, s.worker 1)) =
      some ([(0, 1)], [1], true, .gone) := by decide
  obtain ⟨s, hs, hv⟩ := Option.map_eq_some_iff.mp h
  simp only [Prod.mk.injEq] at hv
  obtain ⟨htaken, htasks, hstop, hgone⟩ := hv
  have hr : (threadPool 2).Reachable s := .of_exec _ .init hs
  exact ⟨s, hr, htaken, htasks, hstop, hgone, queue_discipline (by decide) hr⟩

end SimpleThreadPool
end CppCores
