import Mathlib.Tactic.Common
import CppCores.Concurrent.ToftThreadPool.Model

/-!
# ToftThreadPool: one worker and its part of the log

* `Worker.Ok early c`   what holds of the context by itself.  A worker in its last round has `exit`
  set, and no task of `early` is left to be swapped in;
* `Worker.Logged`       the tasks added to a worker are those it has started, those of its
  `working_tasks` that wait for their turn, and its `pending_tasks`, in this order.

Every operation on a context keeps both.
-/

namespace CppCores
namespace ToftPool

variable {Id : Type*} {n w : ℕ} {early : List Id} {c c' : Worker Id} {log l : List (Event Id)}

/-! ## readings of an extended log -/

@[simp] theorem addedIds_append : addedIds (log ++ l) = addedIds log ++ addedIds l :=
  List.filterMap_append

@[simp] theorem startedIds_append : startedIds (log ++ l) = startedIds log ++ startedIds l :=
  List.filterMap_append

@[simp] theorem finishedIds_append : finishedIds (log ++ l) = finishedIds log ++ finishedIds l :=
  List.filterMap_append

@[simp] theorem ofWorker_append : ofWorker n w (log ++ l) = ofWorker n w log ++ ofWorker n w l :=
  List.filter_append ..

@[simp] theorem ofWorker_nil : ofWorker n w ([] : List (Event Id)) = [] := rfl

theorem ofWorker_self (h : ∀ e ∈ l, e.worker n = w) : ofWorker n w l = l :=
  List.filter_eq_self.mpr fun e he => decide_eq_true (h e he)

theorem ofWorker_other {v : ℕ} (h : ∀ e ∈ l, e.worker n = v) (hv : w ≠ v) : ofWorker n w l = [] :=
  List.filter_eq_nil_iff.mpr fun e he => by simpa [h e he] using Ne.symm hv

namespace Worker

/-- the tasks taken off `pending_tasks` and not started -/
def left (c : Worker Id) : List Id :=
  match c.pc with
  | .run _ i => c.working_tasks.drop i
  | .running _ i => c.working_tasks.drop (i + 1)
  | .ready | .asleep | .leave | .gone => []

/-- the task that runs -/
def current (c : Worker Id) : List Id :=
  match c.pc with
  | .running _ i => c.working_tasks[i]?.toList
  | .ready | .asleep | .run .. | .leave | .gone => []

end Worker

namespace WorkerPc

/-- the worker has seen `exit` -/
def last : WorkerPc → Bool
  | .run continued _ | .running continued _ => !continued
  | .leave | .gone => true
  | .ready | .asleep => false

/-- outside of the loop over `working_tasks` -/
def outside : WorkerPc → Bool
  | .run .. | .running .. => false
  | .ready | .asleep | .leave | .gone => true

end WorkerPc

namespace Worker

structure Ok (early : List Id) (c : Worker Id) : Prop where
  working : c.pc.outside → c.working_tasks = []
  running : ∀ b i, c.pc = .running b i → i < c.working_tasks.length
  asleep : c.pc = .asleep → c.pending_tasks = [] ∧ c.exit = false
  last : c.pc.last → c.exit = true ∧ ∀ id ∈ c.pending_tasks, id ∉ early

structure Logged (c : Worker Id) (log : List (Event Id)) : Prop where
  added : addedIds log = startedIds log ++ c.left ++ c.pending_tasks
  started : startedIds log = finishedIds log ++ c.current

/-! ## the operations -/

theorem notify_of_asleep (h : c.pc = .asleep) : c.notify = c.goto .ready := if_pos h

theorem notify_of_ne (h : c.pc ≠ .asleep) : c.notify = c := if_neg h

theorem left_outside (h : c.pc.outside) : c.left = [] := by
  unfold left
  cases hp : c.pc <;> simp_all [WorkerPc.outside]

theorem current_outside (h : c.pc.outside) : c.current = [] := by
  unfold current
  cases hp : c.pc <;> simp_all [WorkerPc.outside]

theorem Logged.goto {pc : WorkerPc} (h : c.Logged log) (hc : c.pc.outside) (hp : pc.outside) :
    (c.goto pc).Logged log where
  added := by
    have := h.added
    rw [left_outside hc] at this
    rw [left_outside (c := c.goto pc) hp]
    exact this
  started := by
    have := h.started
    rw [current_outside hc] at this
    rw [current_outside (c := c.goto pc) hp]
    exact this

theorem Ok.ready (hw : c.working_tasks = []) : (c.goto .ready).Ok early where
  working := fun _ => hw
  running := nofun
  asleep := nofun
  last := nofun

theorem Ok.notify (h : c.Ok early) : c.notify.Ok early := by
  by_cases hp : c.pc = .asleep
  · rw [notify_of_asleep hp]
    exact .ready (h.working (by rw [hp]; rfl))
  · rwa [notify_of_ne hp]

theorem Logged.notify (h : c.Logged log) : c.notify.Logged log := by
  by_cases hp : c.pc = .asleep
  · rw [notify_of_asleep hp]
    exact h.goto (by rw [hp]; rfl) rfl
  · rwa [notify_of_ne hp]

@[simp] theorem notify_exit : c.notify.exit = c.exit := by
  unfold Worker.notify
  split <;> rfl

@[simp] theorem notify_gone : c.notify.pc = .gone ↔ c.pc = .gone := by
  unfold Worker.notify
  split
  · next h => simp [h]
  · rfl

/-- a worker in its last round does not look at its `pending_tasks` again -/
theorem Ok.push {id : Id} (h : c.Ok early) (hid : id ∉ early) : (c.push id).notify.Ok early := by
  by_cases hp : c.pc = .asleep
  · rw [notify_of_asleep (c := c.push id) hp]
    exact .ready (h.working (by rw [hp]; rfl))
  · rw [notify_of_ne (c := c.push id) hp]
    refine { working := h.working, running := h.running, asleep := fun ha => absurd ha hp, last := ?_ }
    intro hl
    obtain ⟨he, hpend⟩ := h.last hl
    refine ⟨he, fun b hb => ?_⟩
    rcases List.mem_append.mp hb with hb | hb
    · exact hpend b hb
    · rwa [List.mem_singleton.mp hb]

theorem Logged.push {id : Id} {key : ℕ} (h : c.Logged log) :
    (c.push id).notify.Logged (log ++ [.added id key]) := by
  refine Logged.notify ⟨?_, ?_⟩
  · rw [addedIds_append, startedIds_append, h.added]
    show _ ++ [id] = (startedIds log ++ []) ++ c.left ++ (c.pending_tasks ++ [id])
    rw [List.append_nil, List.append_assoc _ c.pending_tasks]
  · rw [finishedIds_append, startedIds_append, h.started]
    show _ ++ [] = (finishedIds log ++ []) ++ c.current
    rw [List.append_nil, List.append_nil]

theorem Ok.setExit (h : c.Ok early) : c.setExit.notify.Ok early := by
  by_cases hp : c.pc = .asleep
  · rw [notify_of_asleep (c := c.setExit) hp]
    exact .ready (h.working (by rw [hp]; rfl))
  · rw [notify_of_ne (c := c.setExit) hp]
    exact
      { working := h.working
        running := h.running
        asleep := fun ha => absurd ha hp
        last := fun hl => ⟨rfl, (h.last hl).2⟩ }

theorem Logged.setExit (h : c.Logged log) : c.setExit.notify.Logged log :=
  Logged.notify ⟨h.added, h.started⟩

theorem Ok.gone (h : c.Ok early) (hp : c.pc = .leave) : (c.goto .gone).Ok early where
  working := fun _ => h.working (by rw [hp]; rfl)
  running := nofun
  asleep := nofun
  last := fun _ => h.last (by rw [hp]; rfl)

/-- before `exit` no task is early -/
theorem Ok.of_not_exit {early' : List Id} (h : c.Ok early) (he : c.exit = false) : c.Ok early' where
  working := h.working
  running := h.running
  asleep := h.asleep
  last := fun hl => absurd (h.last hl).1 (by simp [he])

/-! ## the worker's own steps -/

/-- `pending_tasks` becomes the new `working_tasks`; the old ones are empty by then -/
def swapped (c : Worker Id) : Worker Id :=
  { c with pc := .run (!c.exit) 0, pending_tasks := c.working_tasks, working_tasks := c.pending_tasks }

/-- the loop over `working_tasks` ends -/
def cleared (c : Worker Id) (continued : Bool) : Worker Id :=
  { c with pc := if continued then .ready else .leave, working_tasks := [] }

/-- the steps of `next`, one constructor for each kind -/
inductive Next (w : ℕ) (c : Worker Id) : Worker Id → List (Event Id) → Prop
  | sleep : c.pc = .ready → c.pending_tasks = [] → c.exit = false → Next w c (c.goto .asleep) []
  | swap : c.pc = .ready → (c.pending_tasks ≠ [] ∨ c.exit = true) → Next w c c.swapped []
  | start {b : Bool} {i : ℕ} {id : Id} : c.pc = .run b i → c.working_tasks[i]? = some id →
      Next w c (c.goto (.running b i)) [.started id w]
  | clear {b : Bool} {i : ℕ} : c.pc = .run b i → c.working_tasks.length ≤ i →
      Next w c (c.cleared b) []
  | finish {b : Bool} {i : ℕ} {id : Id} : c.pc = .running b i → c.working_tasks[i]? = some id →
      Next w c (c.goto (.run b (i + 1))) [.finished id w]

theorem next_cases (h : c.next w = some (c', l)) : Next w c c' l := by
  unfold next at h
  split at h
  · next hp =>
    obtain ⟨rfl, rfl⟩ := Prod.mk.inj (Option.some.inj h)
    unfold GetPendingTask
    split
    · next ht =>
      rw [Bool.and_eq_true, List.isEmpty_iff, Bool.not_eq_true'] at ht
      exact .sleep hp ht.1 ht.2
    · next ht =>
      refine .swap hp ?_
      rw [Bool.and_eq_true, List.isEmpty_iff, Bool.not_eq_true', not_and_or] at ht
      exact ht.imp_right eq_true_of_ne_false
  · next b i hp =>
    split at h
    · next id hi =>
      obtain ⟨rfl, rfl⟩ := Prod.mk.inj (Option.some.inj h)
      exact .start hp hi
    · next hi =>
      obtain ⟨rfl, rfl⟩ := Prod.mk.inj (Option.some.inj h)
      exact .clear hp (List.getElem?_eq_none_iff.mp hi)
  · next b i hp =>
    split at h
    · next id hi =>
      obtain ⟨rfl, rfl⟩ := Prod.mk.inj (Option.some.inj h)
      exact .finish hp hi
    · cases h
  all_goals cases h

theorem Next.own (h : Next w c c' l) :
    (∀ e ∈ l, e.worker n = w) ∧ addedIds l = [] ∧ c'.exit = c.exit := by
  cases h with
  | sleep | swap | clear => exact ⟨nofun, rfl, rfl⟩
  | start | finish => exact ⟨fun e he => by rw [List.mem_singleton.mp he]; rfl, rfl, rfl⟩

theorem Next.ne_gone (h : Next w c c' l) : c.pc ≠ .gone ∧ c'.pc ≠ .gone := by
  cases h with
  | sleep hp | swap hp | start hp | finish hp => exact ⟨by simp [hp], nofun⟩
  | @clear b _ hp => exact ⟨by simp [hp], by cases b <;> nofun⟩

theorem Ok.next (h : c.Ok early) (hn : Next w c c' l) : c'.Ok early := by
  cases hn with
  | sleep hp ht he =>
    exact
      { working := fun _ => h.working (by rw [hp]; rfl)
        running := nofun
        asleep := fun _ => ⟨ht, he⟩
        last := nofun }
  | swap hp ht =>
    -- what is swapped into `pending_tasks` is empty
    have hw : c.working_tasks = [] := h.working (by rw [hp]; rfl)
    refine { working := nofun, running := nofun, asleep := nofun, last := fun hl => ?_ }
    refine ⟨Bool.not_not c.exit ▸ hl, ?_⟩
    show ∀ id ∈ c.working_tasks, id ∉ early
    rw [hw]
    exact nofun
  | @start b i id hp hi =>
    refine { working := nofun, running := ?_, asleep := nofun, last := fun hl => h.last ?_ }
    · intro b' i' hb
      obtain ⟨rfl, rfl⟩ := WorkerPc.running.inj hb
      exact (List.getElem?_eq_some_iff.mp hi).1
    · rw [hp]
      exact hl
  | @clear b i hp hi =>
    have hl : (c.cleared b).pc.last → c.pc.last := by
      rw [hp]
      cases b <;> intro hb <;> exact hb
    refine { working := fun _ => rfl, running := ?_, asleep := ?_, last := fun hb => h.last (hl hb) }
    · cases b <;> nofun
    · cases b <;> nofun
  | @finish b i id hp hi =>
    refine { working := nofun, running := nofun, asleep := nofun, last := fun hl => h.last ?_ }
    rw [hp]
    exact hl

theorem Logged.next (h : c.Logged log) (ho : c.Ok early) (hn : Next w c c' l) :
    c'.Logged (log ++ l) := by
  cases hn with
  | sleep hp ht he =>
    rw [List.append_nil]
    exact h.goto (by rw [hp]; rfl) rfl
  | swap hp ht =>
    have hw : c.working_tasks = [] := ho.working (by rw [hp]; rfl)
    have ha := h.added
    have hs := h.started
    rw [left_outside (by rw [hp]; rfl), List.append_nil] at ha
    rw [current_outside (by rw [hp]; rfl)] at hs
    rw [List.append_nil]
    refine ⟨?_, hs⟩
    show _ = _ ++ c.pending_tasks.drop 0 ++ c.working_tasks
    rw [hw, List.append_nil]
    exact ha
  | @start b i id hp hi =>
    obtain ⟨hlt, hget⟩ := List.getElem?_eq_some_iff.mp hi
    have ha := h.added
    have hs := h.started
    simp only [left, current, hp] at ha hs
    constructor
    · rw [addedIds_append, startedIds_append, ha, ← List.getElem_cons_drop hlt, hget]
      show _ ++ [] = (startedIds log ++ [id]) ++ c.working_tasks.drop (i + 1) ++ c.pending_tasks
      simp
    · rw [finishedIds_append, startedIds_append, hs]
      show (_ ++ []) ++ [id] = (_ ++ []) ++ c.working_tasks[i]?.toList
      rw [hi, List.append_nil]
      rfl
  | @clear b i hp hi =>
    have ha := h.added
    have hs := h.started
    simp only [left, current, hp] at ha hs
    have ho : (c.cleared b).pc.outside := by cases b <;> rfl
    rw [List.append_nil]
    constructor
    · rw [left_outside ho, ha, List.drop_eq_nil_of_le hi]
      rfl
    · rw [current_outside ho, hs]
  | @finish b i id hp hi =>
    have ha := h.added
    have hs := h.started
    simp only [left, current, hp, hi, Option.toList_some] at ha hs
    constructor
    · rw [addedIds_append, startedIds_append, ha]
      show _ ++ [] = (startedIds log ++ []) ++ c.working_tasks.drop (i + 1) ++ c.pending_tasks
      rw [List.append_nil, List.append_nil]
    · rw [finishedIds_append, startedIds_append, hs]
      show _ ++ [id] ++ [] = (finishedIds log ++ [id]) ++ []
      rfl

end Worker
end ToftPool
end CppCores
