import Mathlib.Data.List.Basic
import Mathlib.Logic.Function.Basic
import Mathlib.Tactic.Common
import CppCores.Lib.Machine

/-!
# SimpleThreadPool: the pool of `concurrent/thread_pool.cc`

`n` workers in the loop of the constructor, any number of `enqueue` calls, and the destructor.  A
section under `queueMutex` is one step, and so are a notification, the end of a task and a `join`.  A
task is named by the `enqueue` call that brought it.

A thread that waits is woken by a notification, spuriously, or in `wait_for` by the clock; it locks
`queueMutex` again in a step of its own and tests the predicate there.  `tasks.front()` of an empty
queue ends the program (`emptyFront`).

No step reads `pushed` and `taken`:

* `pushed`   the tasks in the order in which they were pushed;
* `taken`    the tasks in the order in which they were popped, with the worker that popped them.
-/

set_option linter.unusedSectionVars false

namespace CppCores
namespace SimpleThreadPool

/-- the place of a worker in its loop -/
inductive WorkerPc (Id : Type*) where
  /-- about to lock `queueMutex`, at the start of the loop or woken in `condition.wait` -/
  | ready
  /-- in `condition.wait` -/
  | waiting
  /-- in `condition.wait_for` -/
  | waitingFor
  /-- woken in `condition.wait_for`, about to lock `queueMutex` -/
  | woken (timedOut : Bool)
  /-- in `std::invoke(task)` -/
  | running (task : Id)
  | gone
  deriving DecidableEq, Repr

/-- the place of an `enqueue` call -/
inductive EnqueuePc where
  | idle
  /-- about to call `condition.notify_one()` -/
  | notify
  | returned
  deriving DecidableEq, Repr

/-- the place of the destructor -/
inductive DestructorPc where
  | idle
  /-- about to call `condition.notify_all()` -/
  | notify
  | joining (i : ℕ)
  | returned
  deriving DecidableEq, Repr

structure State (Id : Type*) where
  worker : ℕ → WorkerPc Id
  tasks : List Id
  stop : Bool
  enqueuer : Id → EnqueuePc
  destructor : DestructorPc
  emptyFront : Bool
  pushed : List Id
  taken : List (Id × ℕ)

/-- who moves: the call `enqueue` of a task pushes it, or notifies a worker that waits, if there is
one; a worker goes on, or wakes up by itself or by the clock; the destructor goes on -/
inductive Act (Id : Type*) where
  | enqueue (task : Id)
  | notifyOne (task : Id) (w : Option ℕ)
  | worker (w : ℕ)
  | spurious (w : ℕ)
  | timeout (w : ℕ)
  | destructor

section
variable {Id : Type*}

namespace WorkerPc

/-- in a wait on `condition` -/
def Blocked (pc : WorkerPc Id) : Prop := pc = .waiting ∨ pc = .waitingFor

/-- where a notification brings a worker -/
def notified : WorkerPc Id → WorkerPc Id
  | .waiting => .ready
  | .waitingFor => .woken false
  | pc => pc

instance (pc : WorkerPc Id) : Decidable pc.Blocked :=
  match pc with
  | .waiting => .isTrue (.inl rfl)
  | .waitingFor => .isTrue (.inr rfl)
  | .ready | .woken _ | .running _ | .gone => .isFalse (by rintro (h | h) <;> cases h)

end WorkerPc

namespace State

def goto (s : State Id) (w : ℕ) (pc : WorkerPc Id) : State Id :=
  { s with worker := Function.update s.worker w pc }

/-- the predicate of both waits -/
def wanted (s : State Id) : Bool := s.stop || !s.tasks.isEmpty

/-- `tasks.front()` and `tasks.pop()` -/
def take (s : State Id) (w : ℕ) : State Id :=
  match s.tasks with
  | [] => { s with emptyFront := true }
  | task :: tasks => { s with tasks := tasks, taken := s.taken ++ [(task, w)] }.goto w (.running task)

/-- the loop of `wait_for`, with the lock held, and what follows it -/
def wait_for (s : State Id) (w : ℕ) (timedOut : Bool) : State Id :=
  if s.wanted || timedOut then s.take w else s.goto w .waitingFor

/-- the section of a worker from the test of `condition.wait` on -/
def lookForTask (s : State Id) (w : ℕ) : State Id :=
  if s.wanted then
    if s.stop then s.goto w .gone
    else if s.tasks.isEmpty then s.wait_for w false
    else s.take w
  else s.goto w .waiting

def setStop (s : State Id) : State Id := { s with stop := true }

def destructorAt (s : State Id) (pc : DestructorPc) : State Id := { s with destructor := pc }

def notify_all (s : State Id) : State Id := { s with worker := fun w => (s.worker w).notified }

variable [DecidableEq Id]

def enqueuerAt (s : State Id) (task : Id) (pc : EnqueuePc) : State Id :=
  { s with enqueuer := Function.update s.enqueuer task pc }

/-- `tasks.emplace` -/
def push (s : State Id) (task : Id) : State Id :=
  { s with tasks := s.tasks ++ [task], pushed := s.pushed ++ [task] }

end State

def stepWorker (s : State Id) (w : ℕ) : Option (State Id) :=
  match s.worker w with
  | .ready => some (s.lookForTask w)
  | .woken timedOut => some (s.wait_for w timedOut)
  | .running _ => some (s.goto w .ready)
  | .waiting | .waitingFor | .gone => none

def stepDestructor (n : ℕ) (s : State Id) : Option (State Id) :=
  match s.destructor with
  | .idle => some (s.setStop.destructorAt .notify)
  | .notify => some (s.notify_all.destructorAt (.joining 0))
  | .joining i =>
    if i < n then
      match s.worker i with
      | .gone => some (s.destructorAt (.joining (i + 1)))
      | _ => none
    else some (s.destructorAt .returned)
  | .returned => none

variable [DecidableEq Id]

/-- `notify_one` wakes one of the workers that wait -/
def notifyOne (n : ℕ) (s : State Id) : Option ℕ → Option (State Id)
  | some w => if w < n ∧ (s.worker w).Blocked then some (s.goto w (s.worker w).notified) else none
  | none => if ∀ w < n, ¬ (s.worker w).Blocked then some s else none

def step (n : ℕ) (s : State Id) (a : Act Id) : Option (State Id) :=
  if s.emptyFront then none
  else
    match a with
    | .enqueue task =>
      if s.enqueuer task = .idle then some ((s.push task).enqueuerAt task .notify) else none
    | .notifyOne task w =>
      if s.enqueuer task = .notify then
        (notifyOne n s w).map fun s => s.enqueuerAt task .returned
      else none
    | .worker w => if w < n then stepWorker s w else none
    | .spurious w =>
      if w < n ∧ (s.worker w).Blocked then some (s.goto w (s.worker w).notified) else none
    | .timeout w =>
      if w < n ∧ s.worker w = .waitingFor then some (s.goto w (.woken true)) else none
    | .destructor => stepDestructor n s

/-- the pool after its constructor -/
def start : State Id where
  worker := fun _ => .ready
  tasks := []
  stop := false
  enqueuer := fun _ => .idle
  destructor := .idle
  emptyFront := false
  pushed := []
  taken := []

/-- the pool of `n` threads -/
def threadPool (n : ℕ) : Machine (State Id) (Act Id) := ⟨start, step n⟩

end
end SimpleThreadPool
end CppCores
