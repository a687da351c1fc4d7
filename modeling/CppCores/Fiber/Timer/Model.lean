import Mathlib.Data.Prod.Lex
import Mathlib.Logic.Function.Basic
import CppCores.Lib.Machine
import CppCores.Lib.OrderedSet

/-!
# FiberTimer and FiberTimerManager: the timers of `fiber/fiber_timer.cc`

Timers are numbered in the order in which they are made; a number stands for the pointer to the
timer.  A timer lives at an address as long as a client holds a pointer to it or it is in
`m_timers`, and an address is used again only after that.  `m_timers` is an ordered set that
compares by `m_next`, then by address (`Comparator_eq`).  A clock reading is an argument of the
operation that uses it, times are 64-bit words and wrap as `uint64_t` does.  A callback that is `none`
is an empty `std::function`: a client may pass one, and what `addConditionTimer` binds is never empty,
though the function in it may be.

`moved` is there for the statements only: it is set when an `m_next` is written while the timer is
in `m_timers`.  The template `addTimer`, which ends the critical section of its caller, returns
`at_front`: whether the caller is to call `onTimerInsertedAtFront` after it has released the lock.
-/

set_option linter.unusedSectionVars false

namespace CppCores
namespace Fiber
open OrderedSet

/-- a callback of a client, alone or bound to a condition by `addConditionTimer` -/
inductive Callback (W F : Type*) where
  | fn (cb : F)
  | onTimer (weak_cond : W) (cb : Option F)
  deriving DecidableEq, Repr

structure Timer (W F : Type*) where
  m_recurring : Bool
  m_ms : UInt64
  m_next : UInt64
  m_cb : Option (Callback W F)
  /-- where the object is -/
  addr : ℕ
  /-- a client has a pointer to it -/
  held : Bool

namespace Timer
variable {W F : Type*}

/-- `FiberTimer::Comparator` on two pointers -/
def Comparator (lhs rhs : Option (Timer W F)) : Bool :=
  match lhs, rhs with
  | none, none => false
  | none, some _ => true
  | some _, none => false
  | some lhs, some rhs =>
    if lhs.m_next < rhs.m_next then true
    else if lhs.m_next > rhs.m_next then false
    else decide (lhs.addr < rhs.addr)

/-- the key by which a set of timers is ordered -/
def key (t : Timer W F) : ℕ ×ₗ ℕ := toLex (t.m_next.toNat, t.addr)

theorem Comparator_eq (l r : Timer W F) :
    Comparator (some l) (some r) = true ↔ l.key < r.key := by
  unfold key
  rw [Prod.Lex.toLex_lt_toLex]
  show (if l.m_next < r.m_next then true
    else if l.m_next > r.m_next then false else decide (l.addr < r.addr)) = true ↔ _
  by_cases h1 : l.m_next < r.m_next
  · rw [if_pos h1]
    exact iff_of_true rfl (.inl (UInt64.lt_iff_toNat_lt.mp h1))
  · rw [if_neg h1]
    have hle : r.m_next.toNat ≤ l.m_next.toNat := UInt64.le_iff_toNat_le.mp (UInt64.not_lt.mp h1)
    by_cases h2 : l.m_next > r.m_next
    · rw [if_pos h2]
      have hlt : r.m_next.toNat < l.m_next.toNat := UInt64.lt_iff_toNat_lt.mp h2
      refine iff_of_false (by simp) ?_
      rintro (h | ⟨h, -⟩) <;> simp only at h <;> omega
    · rw [if_neg h2, decide_eq_true_eq]
      have hge : l.m_next.toNat ≤ r.m_next.toNat :=
        UInt64.le_iff_toNat_le.mp (UInt64.not_lt.mp h2)
      have heq : l.m_next.toNat = r.m_next.toNat := Nat.le_antisymm hge hle
      refine ⟨fun h => .inr ⟨heq, h⟩, fun h => ?_⟩
      rcases h with h | h
      · exact absurd h (by simp only [heq]; exact Nat.lt_irrefl _)
      · exact h.2

/-- the timer of `FiberTimer(ms, cb, recurring, manager)`, made at the reading `now` -/
def new (ms : UInt64) (cb : Option (Callback W F)) (recurring : Bool) (now : UInt64) (addr : ℕ) :
    Timer W F where
  m_recurring := recurring
  m_ms := ms
  m_next := now + ms
  m_cb := cb
  addr := addr
  held := true

/-- what stands for a timer that is not yet made -/
def unmade : Timer W F := ⟨false, 0, 0, none, 0, false⟩

end Timer

structure Manager (W F : Type*) where
  heap : ℕ → Timer W F
  /-- how many timers were made -/
  count : ℕ
  m_timers : List ℕ
  m_tickled : Bool
  m_last_execute_time : UInt64
  moved : Bool

namespace Manager
variable {W F : Type*}

def key (m : Manager W F) (i : ℕ) : ℕ ×ₗ ℕ := (m.heap i).key

def setTimers (m : Manager W F) (l : List ℕ) : Manager W F := { m with m_timers := l }

def setTickled (m : Manager W F) (b : Bool) : Manager W F := { m with m_tickled := b }

def modify (m : Manager W F) (i : ℕ) (f : Timer W F → Timer W F) : Manager W F :=
  { m with heap := Function.update m.heap i (f (m.heap i)) }

def setCb (m : Manager W F) (i : ℕ) (cb : Option (Callback W F)) : Manager W F :=
  m.modify i fun t => { t with m_cb := cb }

def setMs (m : Manager W F) (i : ℕ) (ms : UInt64) : Manager W F :=
  m.modify i fun t => { t with m_ms := ms }

/-- write `m_next`, and remember if the timer is in `m_timers` -/
def setNext (m : Manager W F) (i : ℕ) (next : UInt64) : Manager W F :=
  { m.modify i fun t => { t with m_next := next } with
    moved := m.moved || decide (i ∈ m.m_timers) }

/-- a client gives its pointer up -/
def release (m : Manager W F) (i : ℕ) : Manager W F := m.modify i fun t => { t with held := false }

/-- `m_timers.find(timer)` -/
def find (m : Manager W F) (i : ℕ) : Iter ℕ := OrderedSet.find m.key (m.key i) m.m_timers

/-- `m_timers.insert(timer)` -/
def insert (m : Manager W F) (i : ℕ) : Iter ℕ := OrderedSet.insert m.key i m.m_timers

def cancel (m : Manager W F) (i : ℕ) : Bool × Manager W F :=
  if (m.heap i).m_cb.isSome then
    let m := m.setCb i none
    let it := m.find i
    let m := if it.2 ≠ [] then m.setTimers (erase it) else m
    (true, m)
  else (false, m)

def refresh (m : Manager W F) (i : ℕ) (now : UInt64) : Bool × Manager W F :=
  if (m.heap i).m_cb.isNone then (false, m)
  else
    let it := m.find i
    if it.2 = [] then (false, m)
    else
      let m := m.setTimers (erase it)
      let m := m.setNext i (now + (m.heap i).m_ms)
      (true, m.setTimers (m.insert i).toList)

/-- the template `addTimer(timer, lock)`: `at_front`, and the manager -/
def addTimer (m : Manager W F) (i : ℕ) : Bool × Manager W F :=
  let it := m.insert i
  let m := m.setTimers it.toList
  let at_front := decide (it.1 = []) && !m.m_tickled
  (at_front, if at_front then m.setTickled true else m)

/-- the answer of `reset`, `at_front` of the `addTimer` at its end, and the manager -/
def reset (m : Manager W F) (i : ℕ) (ms : UInt64) (from_now : Bool) (now : UInt64) :
    Bool × Bool × Manager W F :=
  if ms = (m.heap i).m_ms ∧ ¬ from_now then (true, false, m)
  else if (m.heap i).m_cb.isNone then (false, false, m)
  else
    let it := m.find i
    if it.2 = [] then (false, false, m)
    else
      let m := m.setTimers (erase it)
      let start := if from_now then now else (m.heap i).m_next - (m.heap i).m_ms
      let m := m.setMs i ms
      let m := m.setNext i (start + (m.heap i).m_ms)
      (true, m.addTimer i)

/-- make a timer at the address `addr` -/
def make (m : Manager W F) (t : Timer W F) : Manager W F :=
  { m with heap := Function.update m.heap m.count t, count := m.count + 1 }

/-- `addTimer(ms, cb, recurring)`; the new timer has the number `m.count` -/
def addNew (m : Manager W F) (ms : UInt64) (cb : Option (Callback W F)) (recurring : Bool)
    (now : UInt64) (addr : ℕ) : Bool × Manager W F :=
  (m.make (.new ms cb recurring now addr)).addTimer m.count

def addConditionTimer (m : Manager W F) (ms : UInt64) (cb : Option F) (weak_cond : W)
    (recurring : Bool) (now : UInt64) (addr : ℕ) : Bool × Manager W F :=
  m.addNew ms (some (.onTimer weak_cond cb)) recurring now addr

def getNextTimer (m : Manager W F) (now_ms : UInt64) : UInt64 × Manager W F :=
  let m := m.setTickled false
  match m.m_timers with
  | [] => (0xFFFFFFFFFFFFFFFF, m)
  | next :: _ =>
    if now_ms ≥ (m.heap next).m_next then (0, m) else ((m.heap next).m_next - now_ms, m)

def detectClockRollover (m : Manager W F) (now_ms : UInt64) : Bool × Manager W F :=
  let rollover := decide (now_ms < m.m_last_execute_time) &&
    decide (now_ms < m.m_last_execute_time - 60 * 60 * 1000)
  (rollover, { m with m_last_execute_time := now_ms })

/-- the body of the last loop of `listExpiredCb`; a delivered callback goes with the number of its
timer -/
def deliver (now_ms : UInt64) (x : List (ℕ × Option (Callback W F)) × Manager W F) (i : ℕ) :
    List (ℕ × Option (Callback W F)) × Manager W F :=
  let m := x.2
  let cbs := x.1 ++ [(i, (m.heap i).m_cb)]
  if (m.heap i).m_recurring then
    let m := m.setNext i (now_ms + (m.heap i).m_ms)
    (cbs, m.setTimers (m.insert i).toList)
  else (cbs, m.setCb i none)

/-- the end of the expired timers: everything at a rollover, else what is not after `now_timer`, which
is at the address `addr` -/
def expiredEnd (m : Manager W F) (rollover : Bool) (now_ms : UInt64) (addr : ℕ) : Iter ℕ :=
  let it := if rollover then (m.m_timers, [])
    else lower_bound m.key (toLex (now_ms.toNat, addr)) m.m_timers
  let same := fun i => decide ((m.heap i).m_next = now_ms)
  (it.1 ++ it.2.takeWhile same, it.2.dropWhile same)

/-- the delivered callbacks and the manager -/
def listExpiredCb (m : Manager W F) (now_ms : UInt64) (addr : ℕ) :
    List (ℕ × Option (Callback W F)) × Manager W F :=
  match m.m_timers with
  | [] => ([], m)
  | first :: _ =>
    let (rollover, m) := m.detectClockRollover now_ms
    if !rollover && decide ((m.heap first).m_next > now_ms) then ([], m)
    else
      let it := m.expiredEnd rollover now_ms addr
      it.1.foldl (deliver now_ms) ([], m.setTimers it.2)

/-- a new manager, made at the reading `now` -/
def start (now : UInt64) : Manager W F where
  heap := fun _ => .unmade
  count := 0
  m_timers := []
  m_tickled := false
  m_last_execute_time := now
  moved := false

/-- no object is at the address -/
def Free (m : Manager W F) (addr : ℕ) : Prop :=
  ∀ i < m.count, (m.heap i).held = true ∨ i ∈ m.m_timers → (m.heap i).addr ≠ addr

instance (m : Manager W F) (addr : ℕ) : Decidable (m.Free addr) :=
  inferInstanceAs (Decidable (∀ i < m.count, _))

end Manager
end Fiber
end CppCores
