import Mathlib.Data.List.Basic
import Mathlib.Logic.Function.Basic
import Mathlib.Tactic.Common
import CppCores.Lib.Machine

/-!
# ToftThreadPool: the pool of `concurrent/thread_pool.cc`

`n` workers, each with a context of its own, any number of threads that call `AddTask(callback, key)`,
and one that calls `Terminate`.  A section under a mutex is one step, and so are the start and the
end of a task, a `join`, and every access outside of a mutex.  A task is named by the `AddTask` call
that brought it.

The predicate of a `wait` is tested under the lock; a thread that waits leaves by a notification or
spuriously, and tests it again.  `Terminate` holds `m_exit_lock` from its call on but for its wait.
A call that goes on with a context after `delete[]`, or takes its key modulo a `m_num_threads` that
is 0, ends the program (`crashed`).

No step reads `returned`, `early` and `log`:

* `returned`   the `AddTask` calls that have added their task and returned;
* `early`      those of them that had returned when `Terminate` was called;
* `log`        the tasks added, started and finished.
-/

set_option linter.unusedSectionVars false

namespace CppCores
namespace ToftPool

inductive Event (Id : Type*) where
  | added (id : Id) (dispatch_key : ℕ)
  | started (id : Id) (w : ℕ)
  | finished (id : Id) (w : ℕ)
  deriving DecidableEq, Repr

/-- the place of a worker in `WorkRoutine` -/
inductive WorkerPc where
  /-- about to lock `mutex` in `GetPendingTask` and look at `pending_tasks` and `exit` -/
  | ready
  /-- in `cond.wait` -/
  | asleep
  /-- in the loop over `working_tasks`, before the task at `i`; `continued` is what `GetPendingTask`
  returned -/
  | run (continued : Bool) (i : ℕ)
  /-- inside the task at `i` -/
  | running (continued : Bool) (i : ℕ)
  /-- about to lock `m_exit_lock` -/
  | leave
  | gone
  deriving DecidableEq, Repr

/-- a `ThreadContext` and its thread -/
structure Worker (Id : Type*) where
  pc : WorkerPc
  pending_tasks : List Id
  working_tasks : List Id
  exit : Bool

/-- the place of `Terminate` -/
inductive TermPc where
  | idle
  /-- in the first loop, before the context `i`, or before the wait if there is none -/
  | flagging (i : ℕ)
  /-- in `m_exit_cond.wait` -/
  | waiting
  /-- woken, about to lock `m_exit_lock` again and test `m_num_busy_threads == 0` -/
  | recheck
  | joining (i : ℕ)
  /-- after `delete[]` -/
  | deleted
  | returned
  deriving DecidableEq, Repr

/-- `Terminate` holds `m_exit_lock` -/
def TermPc.locked : TermPc → Bool
  | .flagging _ | .joining _ | .deleted => true
  | .idle | .waiting | .recheck | .returned => false

/-- the place of an `AddTask` call -/
inductive AdderPc where
  | idle
  /-- `m_exit` was false -/
  | index (dispatch_key : ℕ)
  /-- about to lock the mutex of the context `w` -/
  | push (dispatch_key w : ℕ)
  | returned
  deriving DecidableEq, Repr

structure State (Id : Type*) where
  worker : ℕ → Worker Id
  m_num_threads : ℕ
  m_num_busy_threads : ℕ
  m_exit : Bool
  terminator : TermPc
  adder : Id → AdderPc
  crashed : Bool
  returned : List Id
  early : List Id
  log : List (Event Id)

/-- who moves: a call `AddTask(id, key)` begins or goes on, a worker, `Terminate`, or a thread that
waits wakes up by itself -/
inductive Act (Id : Type*) where
  | addTask (id : Id) (dispatch_key : ℕ)
  | adder (id : Id)
  | worker (w : ℕ)
  | spurious (w : ℕ)
  | terminate
  | spuriousTerminate

section
variable {Id : Type*}

namespace Worker

/-- the section of `GetPendingTask` up to its `wait` or its return -/
def GetPendingTask (c : Worker Id) : Worker Id :=
  if c.pending_tasks.isEmpty && !c.exit then { c with pc := .asleep }
  else
    { c with
      pc := .run (!c.exit) 0
      pending_tasks := c.working_tasks
      working_tasks := c.pending_tasks }

/-- the next step of the worker `w` on its own context -/
def next (w : ℕ) (c : Worker Id) : Option (Worker Id × List (Event Id)) :=
  match c.pc with
  | .ready => some (c.GetPendingTask, [])
  | .run continued i =>
    match c.working_tasks[i]? with
    | some id => some ({ c with pc := .running continued i }, [.started id w])
    | none =>
      some ({ c with pc := if continued then .ready else .leave, working_tasks := [] }, [])
  | .running continued i =>
    match c.working_tasks[i]? with
    | some id => some ({ c with pc := .run continued (i + 1) }, [.finished id w])
    | none => none
  | .asleep | .leave | .gone => none

/-- `cond.notify_one()` and `cond.notify_all()` -/
def notify (c : Worker Id) : Worker Id := if c.pc = .asleep then { c with pc := .ready } else c

def push (c : Worker Id) (id : Id) : Worker Id :=
  { c with pending_tasks := c.pending_tasks ++ [id] }

def setExit (c : Worker Id) : Worker Id := { c with exit := true }

def goto (c : Worker Id) (pc : WorkerPc) : Worker Id := { c with pc := pc }

end Worker

namespace State

def setWorker (s : State Id) (w : ℕ) (c : Worker Id) : State Id :=
  { s with worker := Function.update s.worker w c }

def termAt (s : State Id) (pc : TermPc) : State Id := { s with terminator := pc }

def record (s : State Id) (l : List (Event Id)) : State Id := { s with log := s.log ++ l }

def crash (s : State Id) : State Id := { s with crashed := true }

/-- `--m_num_busy_threads`, and a notification if it is 0 -/
def unbusy (s : State Id) : State Id :=
  let busy := s.m_num_busy_threads - 1
  { s with
    m_num_busy_threads := busy
    terminator := if busy = 0 ∧ s.terminator = .waiting then .recheck else s.terminator }

/-- `m_exit` is set; the calls that have returned are the early ones -/
def setExit (s : State Id) : State Id := { s with m_exit := true, early := s.returned }

def setNumThreads (s : State Id) (k : ℕ) : State Id := { s with m_num_threads := k }

variable [DecidableEq Id]

def adderAt (s : State Id) (id : Id) (pc : AdderPc) : State Id :=
  { s with adder := Function.update s.adder id pc }

def addReturned (s : State Id) (id : Id) : State Id := { s with returned := s.returned ++ [id] }

end State

/-- the test of `m_exit_cond.wait`, with the lock held -/
def testIdle (s : State Id) : State Id :=
  s.termAt (if s.m_num_busy_threads = 0 then .joining 0 else .waiting)

def stepTerminate (s : State Id) : Option (State Id) :=
  match s.terminator with
  | .idle => some (s.setExit.termAt (.flagging 0))
  | .flagging i =>
    if i < s.m_num_threads then
      some ((s.setWorker i (s.worker i).setExit.notify).termAt (.flagging (i + 1)))
    else some (testIdle s)
  | .waiting => none
  | .recheck => some (testIdle s)
  | .joining i =>
    if i < s.m_num_threads then
      if (s.worker i).pc = .gone then some (s.termAt (.joining (i + 1))) else none
    else some (s.termAt .deleted)
  | .deleted => some ((s.setNumThreads 0).termAt .returned)
  | .returned => none

/-- the contexts are there -/
def State.Contexts (s : State Id) : Prop := s.terminator ≠ .deleted ∧ s.terminator ≠ .returned

instance (s : State Id) : Decidable s.Contexts := inferInstanceAs (Decidable (_ ∧ _))

def stepWorker (n : ℕ) (s : State Id) (w : ℕ) : Option (State Id) :=
  if w < n then
    if (s.worker w).pc = .leave then
      if s.terminator.locked then none
      else some (s.setWorker w ((s.worker w).goto .gone)).unbusy
    else ((s.worker w).next w).map fun x => (s.setWorker w x.1).record x.2
  else none

variable [DecidableEq Id]

def stepAdder (s : State Id) (id : Id) : Option (State Id) :=
  match s.adder id with
  | .idle => none
  | .index key =>
    if s.m_num_threads = 0 then some s.crash
    else some (s.adderAt id (.push key (key % s.m_num_threads)))
  | .push key w =>
    if s.Contexts then
      some ((((s.setWorker w ((s.worker w).push id).notify).record [.added id key]).addReturned
        id).adderAt id .returned)
    else some s.crash
  | .returned => none

def step (n : ℕ) (s : State Id) (a : Act Id) : Option (State Id) :=
  if s.crashed then none
  else
    match a with
    | .addTask id key =>
      if s.adder id = .idle then
        some (s.adderAt id (if s.m_exit then .returned else .index key))
      else none
    | .adder id => stepAdder s id
    | .worker w => stepWorker n s w
    | .spurious w =>
      if w < n ∧ (s.worker w).pc = .asleep then some (s.setWorker w (s.worker w).notify) else none
    | .terminate => stepTerminate s
    | .spuriousTerminate =>
      if s.terminator = .waiting then some (s.termAt .recheck) else none

/-- the pool after its constructor with `n` threads -/
def start (n : ℕ) : State Id where
  worker := fun _ => ⟨.ready, [], [], false⟩
  m_num_threads := n
  m_num_busy_threads := n
  m_exit := false
  terminator := .idle
  adder := fun _ => .idle
  crashed := false
  returned := []
  early := []
  log := []

def pool (n : ℕ) : Machine (State Id) (Act Id) := ⟨start n, step n⟩

end

/-! ## readings of the log -/

section
variable {Id : Type*}

namespace Event

/-- the worker it is about; a task goes to the worker of its key modulo `n` -/
def worker (n : ℕ) : Event Id → ℕ
  | .added _ key => key % n
  | .started _ w | .finished _ w => w

def addedId : Event Id → Option Id
  | .added id _ => some id
  | .started .. | .finished .. => none

def startedId : Event Id → Option Id
  | .started id _ => some id
  | .added .. | .finished .. => none

def finishedId : Event Id → Option Id
  | .finished id _ => some id
  | .added .. | .started .. => none

end Event

/-- the part of the log about the worker `w` -/
def ofWorker (n w : ℕ) (log : List (Event Id)) : List (Event Id) :=
  log.filter fun e => e.worker n = w

def addedIds (log : List (Event Id)) : List Id := log.filterMap Event.addedId

def startedIds (log : List (Event Id)) : List Id := log.filterMap Event.startedId

def finishedIds (log : List (Event Id)) : List Id := log.filterMap Event.finishedId

end
end ToftPool
end CppCores
