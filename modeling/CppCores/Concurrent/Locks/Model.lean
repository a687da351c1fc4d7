import CppCores.Lib.Machine

/-!
# The lock classes: `concurrent/spinlock.h`, `concurrent/rwlock.h`, `concurrent/mutex.h`

Five classes that implement `Lock` over a primitive of the platform: a word that is exchanged
(`SimpleSpinLock`, `AtomicSpinLock`) or an object of the pthread library (`MutexBase`,
`PosixSpinLock`, `PosixRWLock`).  The primitive knows its holders: `writers` hold it alone, `readers`
share it.  Each access to the primitive is one step.  The pthread functions do what POSIX and glibc
say: the blocking ones return 0 when they acquire, the `try` ones return 0 if they acquire and `EBUSY`
if not, `pthread_rwlock_tryrdlock` also while a thread waits in `lock`.  A thread that locks a mutex or
a spin lock that it holds waits forever, and so does a reader in `pthread_rwlock_wrlock`; to the writer
`pthread_rwlock_wrlock` and `pthread_rwlock_rdlock` return `EDEADLK`.  `pthread_rwlock_rdlock` may also
return `EAGAIN`, for too many readers.  `PosixRWLock` looks at neither.

`exclusive t` and `shared t` count what the calls told thread `t`: the returns from `lock` and `true`
from `try_lock`, less the calls of `unlock`.  A thread calls `unlock` only after one of these.
-/

namespace CppCores
namespace Locks
variable {Tid : Type*} [DecidableEq Tid]

inductive Class where
  | MutexBase
  | SimpleSpinLock
  | AtomicSpinLock
  | PosixSpinLock
  | PosixRWLock
  deriving DecidableEq, Repr

/-! ## the primitives -/

/-- the word and the holders -/
structure Prim (Tid : Type*) where
  flag : Bool
  writers : List Tid
  readers : List Tid
  deriving DecidableEq, Repr

def EBUSY : ℕ := 16
def EDEADLK : ℕ := 35

namespace Prim

/-- `flag.test_and_set()`, `lockState.exchange(true)`: the old value -/
def exchange (p : Prim Tid) (t : Tid) : Bool × Prim Tid :=
  (p.flag, { p with flag := true, writers := if p.flag then p.writers else t :: p.writers })

/-- `flag.clear()`, `lockState.store(false)` -/
def clear (p : Prim Tid) (t : Tid) : Prim Tid :=
  { p with flag := false, writers := p.writers.erase t }

/-- nobody holds it -/
def Free (p : Prim Tid) : Prop := p.writers = [] ∧ p.readers = []

instance (p : Prim Tid) : Decidable p.Free := inferInstanceAs (Decidable (_ ∧ _))

/-- `pthread_mutex_lock`, `pthread_spin_lock`, if it returns -/
def wrlock (p : Prim Tid) (t : Tid) : Option (Prim Tid) :=
  if p.Free then some { p with writers := [t] } else none

/-- `pthread_rwlock_wrlock`, if it returns -/
def rwlock_wrlock (p : Prim Tid) (t : Tid) : Option (ℕ × Prim Tid) :=
  if t ∈ p.writers then some (EDEADLK, p) else (p.wrlock t).map fun p => (0, p)

/-- `pthread_mutex_trylock`, `pthread_spin_trylock`, `pthread_rwlock_trywrlock` -/
def trywrlock (p : Prim Tid) (t : Tid) : ℕ × Prim Tid :=
  if p.Free then (0, { p with writers := [t] }) else (EBUSY, p)

/-- `pthread_rwlock_rdlock`, if it returns and not with `EAGAIN` -/
def rwlock_rdlock (p : Prim Tid) (t : Tid) : Option (ℕ × Prim Tid) :=
  if t ∈ p.writers then some (EDEADLK, p)
  else if p.writers = [] then some (0, { p with readers := t :: p.readers }) else none

/-- `pthread_rwlock_tryrdlock`; `waiting` is a thread in `lock`, if one stands in its way -/
def tryrdlock (p : Prim Tid) (t : Tid) (waiting : Option Tid) : ℕ × Prim Tid :=
  if p.writers = [] ∧ waiting = none then (0, { p with readers := t :: p.readers }) else (EBUSY, p)

/-- `pthread_mutex_unlock`, `pthread_spin_unlock`, `pthread_rwlock_unlock` by a holder -/
def unlock (p : Prim Tid) (t : Tid) : Option (Prim Tid) :=
  if t ∈ p.writers then some { p with writers := p.writers.erase t }
  else if t ∈ p.readers then some { p with readers := p.readers.erase t }
  else none

end Prim

/-! ## the classes -/

/-- the place of a thread -/
inductive Pc where
  /-- outside the lock's code -/
  | idle
  /-- in `lock`, at the exchange or in the pthread function -/
  | locking
  /-- in the inner loop of `AtomicSpinLock::lock` -/
  | loading
  /-- in `lock_shared` -/
  | lockingShared
  deriving DecidableEq, Repr

/-- one step in `lock`: it goes on at a place, or returns -/
inductive Outcome (Tid : Type*) where
  | goOn (p : Prim Tid) (pc : Pc)
  | returned (p : Prim Tid)

/-- `lock`, one access to the primitive; `none` while the pthread function blocks -/
def lock (p : Prim Tid) (t : Tid) : Class → Option (Outcome Tid)
  | .MutexBase => (p.wrlock t).map .returned
  | .SimpleSpinLock =>
    -- while (flag.test_and_set()) {}
    if (p.exchange t).1 then some (.goOn (p.exchange t).2 .locking)
    else some (.returned (p.exchange t).2)
  | .AtomicSpinLock =>
    if !(p.exchange t).1 then some (.returned (p.exchange t).2)
    else some (.goOn (p.exchange t).2 .loading)
  | .PosixSpinLock => (p.wrlock t).map .returned
  | .PosixRWLock =>
    -- pthread_rwlock_wrlock(&m_rwlock); the answer is dropped
    (p.rwlock_wrlock t).map fun r => .returned r.2

/-- `try_lock` -/
def try_lock (p : Prim Tid) (t : Tid) : Class → Bool × Prim Tid
  | .MutexBase => (decide ((p.trywrlock t).1 = 0), (p.trywrlock t).2)
  | .SimpleSpinLock => (!(p.exchange t).1, (p.exchange t).2)
  | .AtomicSpinLock => (!(p.exchange t).1, (p.exchange t).2)
  | .PosixSpinLock =>
    -- if (pthread_spin_trylock(&m_lock)) { ... return true; } return false;
    if (p.trywrlock t).1 ≠ 0 then (true, (p.trywrlock t).2) else (false, (p.trywrlock t).2)
  | .PosixRWLock =>
    if (p.trywrlock t).1 = EBUSY then (false, (p.trywrlock t).2) else (true, (p.trywrlock t).2)

/-- `unlock` -/
def unlock (p : Prim Tid) (t : Tid) : Class → Option (Prim Tid)
  | .MutexBase => p.unlock t
  | .SimpleSpinLock => some (p.clear t)
  | .AtomicSpinLock => some (p.clear t)
  | .PosixSpinLock => p.unlock t
  | .PosixRWLock => p.unlock t

/-- `PosixRWLock::lock_shared`, if it returns; the answer is dropped -/
def lock_shared (p : Prim Tid) (t : Tid) : Option (Prim Tid) := (p.rwlock_rdlock t).map Prod.snd

/-- `PosixRWLock::try_lock_shared`: an `int` returned as a `bool` -/
def try_lock_shared (p : Prim Tid) (t : Tid) (waiting : Option Tid) : Bool × Prim Tid :=
  (decide ((p.tryrdlock t waiting).1 ≠ 0), (p.tryrdlock t waiting).2)

/-- `PosixRWLock::unlock_shared` -/
def unlock_shared (p : Prim Tid) (t : Tid) : Option (Prim Tid) := p.unlock t

/-! ## the threads -/

structure State (Tid : Type*) where
  prim : Prim Tid
  pc : Tid → Pc
  exclusive : Tid → ℕ
  shared : Tid → ℕ

namespace State
variable (s : State Tid)

def goto (t : Tid) (pc : Pc) (p : Prim Tid) : State Tid :=
  { s with prim := p, pc := Function.update s.pc t pc }

/-- a call told `t` that it has the lock -/
def told (t : Tid) (b : Bool) : State Tid :=
  if b then { s with exclusive := Function.update s.exclusive t (s.exclusive t + 1) } else s

def toldShared (t : Tid) (b : Bool) : State Tid :=
  if b then { s with shared := Function.update s.shared t (s.shared t + 1) } else s

end State

inductive Act (Tid : Type*) where
  | lock (t : Tid)
  | lock_shared (t : Tid)
  /-- the next step of a call of `lock` or `lock_shared` -/
  | run (t : Tid)
  /-- `pthread_rwlock_rdlock` returns `EAGAIN` -/
  | EAGAIN (t : Tid)
  | try_lock (t : Tid)
  | try_lock_shared (t : Tid) (waiting : Option Tid)
  | unlock (t : Tid)
  | unlock_shared (t : Tid)
  deriving DecidableEq, Repr

def start : State Tid where
  prim := ⟨false, [], []⟩
  pc := fun _ => .idle
  exclusive := fun _ => 0
  shared := fun _ => 0

/-- the next step of a call -/
def run (c : Class) (s : State Tid) (t : Tid) : Option (State Tid) :=
  match s.pc t with
  | .idle => none
  | .locking =>
    (Locks.lock s.prim t c).map fun
      | .goOn p pc => s.goto t pc p
      | .returned p => (s.goto t .idle p).told t true
  | .loading => some (s.goto t (if s.prim.flag then .loading else .locking) s.prim)
  | .lockingShared =>
    (Locks.lock_shared s.prim t).map fun p => (s.goto t .idle p).toldShared t true

def step (c : Class) (s : State Tid) : Act Tid → Option (State Tid)
  | .lock t => if s.pc t = .idle then some (s.goto t .locking s.prim) else none
  | .lock_shared t =>
    if c = .PosixRWLock ∧ s.pc t = .idle then some (s.goto t .lockingShared s.prim) else none
  | .run t => run c s t
  | .EAGAIN t =>
    if s.pc t = .lockingShared then some ((s.goto t .idle s.prim).toldShared t true) else none
  | .try_lock t =>
    if s.pc t = .idle then
      some ((s.goto t .idle (try_lock s.prim t c).2).told t (try_lock s.prim t c).1)
    else none
  | .try_lock_shared t waiting =>
    if c = .PosixRWLock ∧ s.pc t = .idle ∧ ∀ u ∈ waiting, s.pc u = .locking then
      some ((s.goto t .idle (try_lock_shared s.prim t waiting).2).toldShared t
        (try_lock_shared s.prim t waiting).1)
    else none
  | .unlock t =>
    if s.pc t = .idle ∧ 0 < s.exclusive t then
      (unlock s.prim t c).map fun p =>
        { s with prim := p, exclusive := Function.update s.exclusive t (s.exclusive t - 1) }
    else none
  | .unlock_shared t =>
    if c = .PosixRWLock ∧ s.pc t = .idle ∧ 0 < s.shared t then
      (unlock_shared s.prim t).map fun p =>
        { s with prim := p, shared := Function.update s.shared t (s.shared t - 1) }
    else none

def machine (c : Class) : Machine (State Tid) (Act Tid) := ⟨start, step c⟩

end Locks
end CppCores
