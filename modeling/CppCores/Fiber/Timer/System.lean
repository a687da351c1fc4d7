import CppCores.Fiber.Timer.Model

/-!
# FiberTimerManager: threads that share a manager

A step is one critical section under `m_rw_lock`, or the call of `onTimerInsertedAtFront` that a thread
owes after it has released the lock.  `refresh`, `reset` and `getNextTimer` read the clock inside their
section.  `addTimer`, in the constructor of the timer, and `listExpiredCb` read it before they take the
lock: that is a step of its own, and other threads may go on in between.  A client may also give up a
pointer to a timer.  A new timer, and the `now_timer` of `listExpiredCb`, gets any address at which
nothing is.

No step reads the fields that stand after `thread`; they say what has happened:

* `polls`      the number of `getNextTimer` calls;
* `earliest`   the earliest deadline at the last of them, `none` if there was no timer or no call;
* `notified`   `onTimerInsertedAtFront` was called since then;
* `clock`      the last clock reading;
* `log`        the callbacks delivered and the answers of `cancel`.
-/

set_option linter.unusedSectionVars false

namespace CppCores
namespace Fiber

inductive Event (W F : Type*) where
  /-- `cancel` on the timer `i` answered `answer`; `scheduled` says if `i` was in `m_timers` -/
  | cancelled (i : ℕ) (answer scheduled : Bool)
  /-- `listExpiredCb` put `cb`, the callback of the timer `i`, into `cbs` -/
  | delivered (i : ℕ) (cb : Option (Callback W F))
  deriving DecidableEq, Repr

/-- where a thread is -/
inductive Pc where
  | outside
  /-- it is in `addTimer` or `listExpiredCb`, has read the clock and waits for the lock -/
  | waiting (now : UInt64)
  /-- it owes a call of `onTimerInsertedAtFront`; there were `polls` calls of `getNextTimer` when it
  released the lock -/
  | owing (polls : ℕ)
  deriving DecidableEq, Repr

structure State (Tid W F : Type*) where
  mgr : Manager W F
  thread : Tid → Pc
  polls : ℕ
  earliest : Option UInt64
  notified : Bool
  clock : UInt64
  log : List (Event W F)

inductive Act (Tid W F : Type*) where
  | FiberGetCurrentTimeMs (tid : Tid) (now : UInt64)
  | addTimer (tid : Tid) (ms : UInt64) (cb : Option F) (recurring : Bool) (addr : ℕ)
  | addConditionTimer (tid : Tid) (ms : UInt64) (cb : Option F) (weak_cond : W) (recurring : Bool)
      (addr : ℕ)
  | cancel (tid : Tid) (i : ℕ)
  | refresh (tid : Tid) (i : ℕ) (now : UInt64)
  | reset (tid : Tid) (i : ℕ) (ms : UInt64) (from_now : Bool) (now : UInt64)
  | listExpiredCb (tid : Tid) (addr : ℕ)
  | getNextTimer (tid : Tid) (now : UInt64)
  | onTimerInsertedAtFront (tid : Tid)
  | release (i : ℕ)

section
variable {Tid W F : Type*} [DecidableEq Tid]

namespace State

def read (s : State Tid W F) (now : UInt64) : State Tid W F := { s with clock := now }

def goto (s : State Tid W F) (tid : Tid) (p : Pc) : State Tid W F :=
  { s with thread := Function.update s.thread tid p }

def record (s : State Tid W F) (l : List (Event W F)) : State Tid W F :=
  { s with log := s.log ++ l }

def setMgr (s : State Tid W F) (m : Manager W F) : State Tid W F := { s with mgr := m }

/-- `tid` releases the lock after an insertion -/
def unlock (s : State Tid W F) (tid : Tid) (r : Bool × Manager W F) : State Tid W F :=
  (s.setMgr r.2).goto tid (if r.1 then .owing s.polls else .outside)

/-- `getNextTimer` was called -/
def poll (s : State Tid W F) : State Tid W F :=
  { s with
    polls := s.polls + 1
    earliest := s.mgr.m_timers.head?.map fun i => (s.mgr.heap i).m_next
    notified := false }

def notify (s : State Tid W F) (tid : Tid) : State Tid W F :=
  { s.goto tid .outside with notified := true }

/-- `tid` is outside and has a pointer to the timer -/
def Can (s : State Tid W F) (tid : Tid) (i : ℕ) : Prop :=
  s.thread tid = .outside ∧ (s.mgr.heap i).held = true

instance (s : State Tid W F) (tid : Tid) (i : ℕ) : Decidable (s.Can tid i) :=
  inferInstanceAs (Decidable (_ ∧ _))

/-- the reading with which `tid` waits for the lock -/
def reading? (s : State Tid W F) (tid : Tid) : Option UInt64 :=
  match s.thread tid with
  | .waiting now => some now
  | .outside | .owing _ => none

/-- `tid` waits for the lock with the reading `now`, and a new object fits at the address -/
def CanMake (s : State Tid W F) (tid : Tid) (now : UInt64) (addr : ℕ) : Prop :=
  s.thread tid = .waiting now ∧ s.mgr.Free addr

instance (s : State Tid W F) (tid : Tid) (now : UInt64) (addr : ℕ) :
    Decidable (s.CanMake tid now addr) :=
  inferInstanceAs (Decidable (_ ∧ _))

theorem reading?_eq_some {s : State Tid W F} {tid : Tid} {now : UInt64} :
    s.reading? tid = some now ↔ s.thread tid = .waiting now := by
  unfold reading?
  cases s.thread tid <;> simp

end State

def step (s : State Tid W F) : Act Tid W F → Option (State Tid W F)
  | .FiberGetCurrentTimeMs tid now =>
    if s.thread tid = .outside then some ((s.read now).goto tid (.waiting now)) else none
  | .addTimer tid ms cb recurring addr =>
    (s.reading? tid).bind fun now =>
      if s.mgr.Free addr then
        some (s.unlock tid (s.mgr.addNew ms (cb.map .fn) recurring now addr))
      else none
  | .addConditionTimer tid ms cb weak_cond recurring addr =>
    (s.reading? tid).bind fun now =>
      if s.mgr.Free addr then
        some (s.unlock tid (s.mgr.addConditionTimer ms cb weak_cond recurring now addr))
      else none
  | .cancel tid i =>
    if s.Can tid i then
      let r := s.mgr.cancel i
      some ((s.setMgr r.2).record [.cancelled i r.1 (decide (i ∈ s.mgr.m_timers))])
    else none
  | .refresh tid i now =>
    if s.Can tid i then some ((s.read now).setMgr (s.mgr.refresh i now).2) else none
  | .reset tid i ms from_now now =>
    if s.Can tid i then some ((s.read now).unlock tid (s.mgr.reset i ms from_now now).2) else none
  | .listExpiredCb tid addr =>
    (s.reading? tid).bind fun now =>
      if s.mgr.Free addr then
        let r := s.mgr.listExpiredCb now addr
        some (((s.setMgr r.2).goto tid .outside).record (r.1.map fun x => .delivered x.1 x.2))
      else none
  | .getNextTimer tid now =>
    if s.thread tid = .outside then
      some (((s.read now).poll).setMgr (s.mgr.getNextTimer now).2)
    else none
  | .onTimerInsertedAtFront tid =>
    match s.thread tid with
    | .owing _ => some (s.notify tid)
    | .outside | .waiting _ => none
  | .release i => some (s.setMgr (s.mgr.release i))

def start (now : UInt64) : State Tid W F where
  mgr := .start now
  thread := fun _ => .outside
  polls := 0
  earliest := none
  notified := false
  clock := now
  log := []

/-- any number of threads on one manager that was made at the reading `now` -/
def timers (now : UInt64) : Machine (State Tid W F) (Act Tid W F) := ⟨start now, step⟩

/-- no client passes an empty callback to `addTimer` -/
def NonEmpty (_ : State Tid W F) : Act Tid W F → Prop
  | .addTimer _ _ cb _ _ => cb ≠ none
  | .FiberGetCurrentTimeMs .. | .addConditionTimer .. | .cancel .. | .refresh .. | .reset ..
  | .listExpiredCb .. | .getNextTimer .. | .onTimerInsertedAtFront _ | .release _ => True

instance (s : State Tid W F) (a : Act Tid W F) : Decidable (NonEmpty s a) :=
  match a with
  | .addTimer _ _ cb _ _ =>
    match cb with
    | none => .isFalse fun h => h rfl
    | some f => .isTrue (Option.some_ne_none f)
  | .FiberGetCurrentTimeMs .. | .addConditionTimer .. | .cancel .. | .refresh .. | .reset ..
  | .listExpiredCb .. | .getNextTimer .. | .onTimerInsertedAtFront _ | .release _ => .isTrue trivial

/-- the steps, one constructor for each kind -/
inductive Step (s : State Tid W F) : Act Tid W F → State Tid W F → Prop
  | FiberGetCurrentTimeMs (tid : Tid) (now : UInt64) : s.thread tid = .outside →
      Step s (.FiberGetCurrentTimeMs tid now) ((s.read now).goto tid (.waiting now))
  | addTimer (tid : Tid) (ms : UInt64) (cb : Option F) (recurring : Bool) (now : UInt64) (addr : ℕ) :
      s.CanMake tid now addr → Step s (.addTimer tid ms cb recurring addr)
        (s.unlock tid (s.mgr.addNew ms (cb.map .fn) recurring now addr))
  | addConditionTimer (tid : Tid) (ms : UInt64) (cb : Option F) (weak_cond : W) (recurring : Bool)
      (now : UInt64) (addr : ℕ) :
      s.CanMake tid now addr → Step s (.addConditionTimer tid ms cb weak_cond recurring addr)
        (s.unlock tid (s.mgr.addConditionTimer ms cb weak_cond recurring now addr))
  | cancel (tid : Tid) (i : ℕ) : s.Can tid i → Step s (.cancel tid i)
      ((s.setMgr (s.mgr.cancel i).2).record
        [.cancelled i (s.mgr.cancel i).1 (decide (i ∈ s.mgr.m_timers))])
  | refresh (tid : Tid) (i : ℕ) (now : UInt64) : s.Can tid i → Step s (.refresh tid i now)
      ((s.read now).setMgr (s.mgr.refresh i now).2)
  | reset (tid : Tid) (i : ℕ) (ms : UInt64) (from_now : Bool) (now : UInt64) : s.Can tid i →
      Step s (.reset tid i ms from_now now)
        ((s.read now).unlock tid (s.mgr.reset i ms from_now now).2)
  | listExpiredCb (tid : Tid) (now : UInt64) (addr : ℕ) : s.CanMake tid now addr →
      Step s (.listExpiredCb tid addr)
        (((s.setMgr (s.mgr.listExpiredCb now addr).2).goto tid .outside).record
          ((s.mgr.listExpiredCb now addr).1.map fun x => .delivered x.1 x.2))
  | getNextTimer (tid : Tid) (now : UInt64) : s.thread tid = .outside →
      Step s (.getNextTimer tid now) (((s.read now).poll).setMgr (s.mgr.getNextTimer now).2)
  | onTimerInsertedAtFront (tid : Tid) : Step s (.onTimerInsertedAtFront tid) (s.notify tid)
  | release (i : ℕ) : Step s (.release i) (s.setMgr (s.mgr.release i))

theorem step_canMake {s s' : State Tid W F} {tid : Tid} {addr : ℕ} {f : UInt64 → State Tid W F}
    (h : ((s.reading? tid).bind fun now => if s.mgr.Free addr then some (f now) else none) = some s') :
    ∃ now, s.CanMake tid now addr ∧ s' = f now := by
  obtain ⟨now, hnow, h⟩ := Option.bind_eq_some_iff.mp h
  obtain ⟨hfree, h⟩ := Option.ite_none_right_eq_some.mp h
  exact ⟨now, ⟨State.reading?_eq_some.mp hnow, hfree⟩, (Option.some.inj h).symm⟩

theorem step_cases {s s' : State Tid W F} {a : Act Tid W F} (h : step s a = some s') :
    Step s a s' := by
  cases a with
  | release i =>
    obtain rfl := Option.some.inj h
    exact .release i
  | addTimer tid ms cb recurring addr =>
    obtain ⟨now, hc, rfl⟩ := step_canMake h
    exact .addTimer tid ms cb recurring now addr hc
  | addConditionTimer tid ms cb weak_cond recurring addr =>
    obtain ⟨now, hc, rfl⟩ := step_canMake h
    exact .addConditionTimer tid ms cb weak_cond recurring now addr hc
  | listExpiredCb tid addr =>
    obtain ⟨now, hc, rfl⟩ := step_canMake h
    exact .listExpiredCb tid now addr hc
  | onTimerInsertedAtFront tid =>
    rw [step] at h
    split at h
    · obtain rfl := Option.some.inj h
      exact .onTimerInsertedAtFront tid
    · cases h
    · cases h
  | FiberGetCurrentTimeMs | cancel | refresh | reset | getNextTimer =>
    obtain ⟨hc, h⟩ := Option.ite_none_right_eq_some.mp h
    obtain rfl := Option.some.inj h
    constructor
    exact hc

end

/-- the timers whose callbacks were delivered, in order -/
def deliveries {W F : Type*} (l : List (Event W F)) : List ℕ :=
  l.filterMap fun e => match e with
    | .delivered i _ => some i
    | .cancelled .. => none

end Fiber
end CppCores
