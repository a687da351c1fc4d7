import Mathlib.Data.List.Basic
import Mathlib.Data.Int.Notation
import Mathlib.Tactic.Common
import CppCores.Lib.Machine

/-!
# FiberThread: a thread that hands itself over, `fiber/fiber_thread.cc`

One thread constructs a `FiberThread`, uses it and destroys it; `pthread_create` starts another in
`run`.  An access of either to the object is one step, the steps of the two interleave, and
`pthread_create` may store the handle before or after the new thread moves.

A failed `pthread_create` (`LOG(FATAL)`) and an empty callback (`std::bad_function_call`) end the
program.  `sem_wait` may be interrupted by a signal; the constructor throws then, and the object ends
without its destructor.  An access of `run` to an object that has ended is `touched`, and no step
follows it.

* `Inv`             where each of the two threads is, by what the fields hold;
* `handedOver`      **what the constructor, `join` and the destructor leave behind, over every run;**
* `harmless_iff`    **the runs in which no access comes too late, and none is still to come.**
-/

namespace CppCores
namespace FiberThread
open Machine

abbrev Text := List UInt8

/-- `"UNKNOWN"` -/
def UNKNOWN : Text := [85, 78, 75, 78, 79, 87, 78]

/-- what a callback does: something else, or a call of `FiberThread::SetName` -/
inductive Call where
  | other
  | SetName (name : Text)
  deriving DecidableEq, Repr

abbrev Callback := List Call

/-- the fields; an empty `std::function` is `none` -/
structure Object where
  m_id : ℤ
  m_thread : ℕ
  m_cb : Option Callback
  m_name : Text
  m_semaphore : ℕ
  deriving DecidableEq, Repr

/-- the place of the thread that constructs the object -/
inductive OwnerPc where
  /-- about to call `pthread_create` -/
  | constructing
  /-- in `pthread_create`, which has yet to store the handle -/
  | creating
  /-- in `m_semaphore.wait()` -/
  | waiting
  | constructed
  | destroyed
  /-- the constructor has thrown -/
  | threw
  deriving DecidableEq, Repr

/-- the place of the new thread: the statement of `run` that comes next -/
inductive RunPc where
  | unborn
  /-- `t_thread_name = thread->m_name` -/
  | name
  /-- `thread->m_id = syscall(SYS_gettid)` -/
  | id
  /-- `pthread_setname_np` of `thread->m_name` -/
  | setname
  /-- `cb.swap(t_thread->m_cb)` -/
  | swap
  /-- `t_thread->m_semaphore.notify()` -/
  | notify
  /-- `std::invoke(cb)` -/
  | invoke
  | running (rest : Callback)
  | returned
  deriving DecidableEq, Repr

/-- the object, the two threads, and in `done`, `invoked` and `released` what no step reads: the calls
of the callback so far, how often it was invoked, and how often the thread was joined or detached -/
structure State where
  object : Object
  owner : OwnerPc
  run : RunPc
  tid : ℤ
  cb : Option Callback
  t_thread_name : Text
  aborted : Bool
  touched : Bool
  done : Callback
  invoked : ℕ
  released : ℕ
  deriving DecidableEq, Repr

/-- who moves, with the answers of the system -/
inductive Act where
  | create (tid : ℤ)
  | createFails
  /-- `pthread_create` stores the handle and returns -/
  | store (thread : ℕ)
  | wait
  /-- `sem_wait` fails with `EINTR` -/
  | interrupt
  | join
  | destroy
  | run
  deriving DecidableEq, Repr

namespace OwnerPc

/-- the constructor has returned -/
def built : OwnerPc → Bool
  | .constructed | .destroyed => true
  | .constructing | .creating | .waiting | .threw => false

def gone : OwnerPc → Bool
  | .destroyed | .threw => true
  | .constructing | .creating | .waiting | .constructed => false

end OwnerPc

/-- the statements of `run` done so far -/
def RunPc.rank : RunPc → ℕ
  | .unborn => 0
  | .name => 1
  | .id => 2
  | .setname => 3
  | .swap => 4
  | .notify => 5
  | .invoke => 6
  | .running _ => 7
  | .returned => 8

/-- `run` has notified the constructor -/
def RunPc.Told (pc : RunPc) : Prop := 6 ≤ pc.rank

instance (pc : RunPc) : Decidable pc.Told := inferInstanceAs (Decidable (6 ≤ pc.rank))

namespace State

/-- the object has not ended -/
def alive (s : State) : Bool := !s.owner.gone

def ownerAt (s : State) (pc : OwnerPc) : State := { s with owner := pc }

def runAt (s : State) (pc : RunPc) : State := { s with run := pc }

def setObject (s : State) (o : Object) : State := { s with object := o }

def touch (s : State) : State := { s with touched := true }

/-- `run` accesses the object, and goes on to `s'` if it is still there -/
def access (s s' : State) : State := if s.alive then s' else s.touch

/-- one more call of the callback is done -/
def ran (s : State) (call : Call) (rest : Callback) : State :=
  { s.runAt (.running rest) with done := s.done ++ [call] }

def rename (s : State) (name : Text) : State :=
  { s.setObject { s.object with m_name := name } with t_thread_name := name }

/-- `FiberThread::SetName` in the new thread, whose `t_thread` is the object, and then `s'` -/
def SetName (s s' : State) (name : Text) : State :=
  if name.isEmpty then s' else s.access (s'.rename name)

end State

/-- a statement of `run` -/
def stepRun (s : State) : Option State :=
  match s.run with
  | .unborn | .returned => none
  | .name => some (s.access { s.runAt .id with t_thread_name := s.object.m_name })
  | .id => some (s.access ((s.setObject { s.object with m_id := s.tid }).runAt .setname))
  | .setname => some (s.access (s.runAt .swap))
  | .swap =>
    some (s.access
      { (s.setObject { s.object with m_cb := s.cb }).runAt .notify with cb := s.object.m_cb })
  | .notify =>
    some (s.access
      ((s.setObject { s.object with m_semaphore := s.object.m_semaphore + 1 }).runAt .invoke))
  | .invoke =>
    match s.cb with
    | none => some { s with aborted := true }
    | some body => some { s.runAt (.running body) with invoked := s.invoked + 1 }
  | .running [] => some (s.runAt .returned)
  | .running (call :: rest) =>
    match call with
    | .other => some (s.ran call rest)
    | .SetName name => some (s.SetName (s.ran call rest) name)

/-- the constructor, `join` and the destructor -/
def stepOwner (s : State) : Act → Option State
  | .create tid =>
    if s.owner = .constructing ∧ 0 < tid then
      some { (s.ownerAt .creating).runAt .name with tid := tid }
    else none
  | .createFails => if s.owner = .constructing then some { s with aborted := true } else none
  | .store thread =>
    if s.owner = .creating ∧ thread ≠ 0 then
      some ((s.setObject { s.object with m_thread := thread }).ownerAt .waiting)
    else none
  | .wait =>
    if s.owner = .waiting ∧ 0 < s.object.m_semaphore then
      some ((s.setObject { s.object with m_semaphore := s.object.m_semaphore - 1 }).ownerAt
        .constructed)
    else none
  | .interrupt => if s.owner = .waiting then some (s.ownerAt .threw) else none
  | .join =>
    if s.owner = .constructed then
      if s.object.m_thread = 0 then some s
      else if s.run = .returned then
        some { s.setObject { s.object with m_thread := 0 } with released := s.released + 1 }
      else none
    else none
  | .destroy =>
    if s.owner = .constructed then
      if s.object.m_thread = 0 then some (s.ownerAt .destroyed)
      else some { s.ownerAt .destroyed with released := s.released + 1 }
    else none
  | .run => none

def step (s : State) (a : Act) : Option State :=
  if s.aborted || s.touched then none
  else
    match a with
    | .run => stepRun s
    | a => stepOwner s a

/-- `FiberThread(cb, name)` before the call of `pthread_create` -/
def start (cb : Option Callback) (name : Text) : State where
  object :=
    { m_id := -1, m_thread := 0, m_cb := cb, m_semaphore := 0
      m_name := if name.isEmpty then UNKNOWN else name }
  owner := .constructing
  run := .unborn
  tid := 0
  cb := none
  t_thread_name := UNKNOWN
  aborted := false
  touched := false
  done := []
  invoked := 0
  released := 0

def fiberThread (cb : Option Callback) (name : Text) : Machine State Act := ⟨start cb name, step⟩

variable {cb : Option Callback} {name : Text} {s s' : State} {a : Act}

/-! ## what a step does -/

/-- the statement of `run` that comes next accesses the object -/
def RunPc.Uses : RunPc → Prop
  | .name | .id | .setname | .swap | .notify => True
  | .running (.SetName name :: _) => name ≠ []
  | .unborn | .invoke | .running _ | .returned => False

/-- what a call of the callback does to an object that is there -/
def State.renamed (s : State) : Call → State
  | .other => s
  | .SetName name => if name.isEmpty then s else s.rename name

inductive Step (s : State) : Act → State → Prop
  | create {tid : ℤ} : s.owner = .constructing → 0 < tid →
      Step s (.create tid) { (s.ownerAt .creating).runAt .name with tid := tid }
  | abort (a : Act) : a = .createFails ∨ a = .run ∧ s.run = .invoke ∧ s.cb = none →
      Step s a { s with aborted := true }
  | store {thread : ℕ} : s.owner = .creating → thread ≠ 0 →
      Step s (.store thread)
        ((s.setObject { s.object with m_thread := thread }).ownerAt .waiting)
  | wait : s.owner = .waiting → 0 < s.object.m_semaphore →
      Step s .wait
        ((s.setObject { s.object with m_semaphore := s.object.m_semaphore - 1 }).ownerAt
          .constructed)
  | interrupt : s.owner = .waiting → Step s .interrupt (s.ownerAt .threw)
  | joined : s.owner = .constructed → s.object.m_thread = 0 → Step s .join s
  | join : s.owner = .constructed → s.object.m_thread ≠ 0 → s.run = .returned →
      Step s .join
        { s.setObject { s.object with m_thread := 0 } with released := s.released + 1 }
  | destroy : s.owner = .constructed → s.object.m_thread = 0 →
      Step s .destroy (s.ownerAt .destroyed)
  | detach : s.owner = .constructed → s.object.m_thread ≠ 0 →
      Step s .destroy { s.ownerAt .destroyed with released := s.released + 1 }
  | touch : s.run.Uses → s.alive = false → Step s .run s.touch
  | name : s.run = .name → s.alive = true →
      Step s .run { s.runAt .id with t_thread_name := s.object.m_name }
  | id : s.run = .id → s.alive = true →
      Step s .run ((s.setObject { s.object with m_id := s.tid }).runAt .setname)
  | setname : s.run = .setname → s.alive = true → Step s .run (s.runAt .swap)
  | swap : s.run = .swap → s.alive = true →
      Step s .run
        { (s.setObject { s.object with m_cb := s.cb }).runAt .notify with cb := s.object.m_cb }
  | notify : s.run = .notify → s.alive = true →
      Step s .run
        ((s.setObject { s.object with m_semaphore := s.object.m_semaphore + 1 }).runAt .invoke)
  | invoke {body : Callback} : s.run = .invoke → s.cb = some body →
      Step s .run { s.runAt (.running body) with invoked := s.invoked + 1 }
  | call {call : Call} {rest : Callback} : s.run = .running (call :: rest) →
      (s.run.Uses → s.alive = true) → Step s .run ((s.ran call rest).renamed call)
  | leave : s.run = .running [] → Step s .run (s.runAt .returned)

/-- an access is an access of an object that is there, or comes too late -/
theorem access_cases {t : State} (hu : s.run.Uses) (h : s.alive = true → Step s .run t) :
    Step s .run (s.access t) := by
  unfold State.access
  split
  · next ha => exact h ha
  · next ha => exact .touch hu (eq_false_of_ne_true ha)

theorem stepRun_cases (h : stepRun s = some s') : Step s .run s' := by
  unfold stepRun at h
  split at h
  · cases h
  · cases h
  · next hp =>
    obtain rfl := Option.some.inj h
    exact access_cases (hp ▸ trivial) (.name hp)
  · next hp =>
    obtain rfl := Option.some.inj h
    exact access_cases (hp ▸ trivial) (.id hp)
  · next hp =>
    obtain rfl := Option.some.inj h
    exact access_cases (hp ▸ trivial) (.setname hp)
  · next hp =>
    obtain rfl := Option.some.inj h
    exact access_cases (hp ▸ trivial) (.swap hp)
  · next hp =>
    obtain rfl := Option.some.inj h
    exact access_cases (hp ▸ trivial) (.notify hp)
  · next hp =>
    split at h
    · next hc =>
      obtain rfl := Option.some.inj h
      exact .abort _ (.inr ⟨rfl, hp, hc⟩)
    · next body hc =>
      obtain rfl := Option.some.inj h
      exact .invoke hp hc
  · next hp =>
    obtain rfl := Option.some.inj h
    exact .leave hp
  · next call rest hp =>
    cases call with
    | other =>
      obtain rfl := Option.some.inj h
      refine .call hp fun hu => ?_
      rw [hp] at hu
      exact hu.elim
    | SetName name =>
      obtain rfl := Option.some.inj h
      unfold State.SetName
      split
      · next he =>
        have hn : name = [] := List.isEmpty_iff.mp he
        have hu : ¬ s.run.Uses := by
          rw [hp]
          exact fun hu => hu hn
        have hc := Step.call hp fun h => absurd h hu
        rwa [State.renamed, if_pos he] at hc
      · next he =>
        have hu : s.run.Uses := by
          rw [hp]
          exact fun hn => he (List.isEmpty_iff.mpr hn)
        refine access_cases hu fun ha => ?_
        have hc := Step.call hp fun _ => ha
        rwa [State.renamed, if_neg he] at hc

theorem stepOwner_cases (h : stepOwner s a = some s') : Step s a s' := by
  cases a with
  | create tid =>
    obtain ⟨⟨ho, ht⟩, h⟩ := Option.ite_none_right_eq_some.mp h
    obtain rfl := Option.some.inj h
    exact .create ho ht
  | createFails =>
    obtain ⟨-, h⟩ := Option.ite_none_right_eq_some.mp h
    obtain rfl := Option.some.inj h
    exact .abort _ (.inl rfl)
  | store thread =>
    obtain ⟨⟨ho, ht⟩, h⟩ := Option.ite_none_right_eq_some.mp h
    obtain rfl := Option.some.inj h
    exact .store ho ht
  | wait =>
    obtain ⟨⟨ho, hp⟩, h⟩ := Option.ite_none_right_eq_some.mp h
    obtain rfl := Option.some.inj h
    exact .wait ho hp
  | interrupt =>
    obtain ⟨ho, h⟩ := Option.ite_none_right_eq_some.mp h
    obtain rfl := Option.some.inj h
    exact .interrupt ho
  | join =>
    obtain ⟨ho, h⟩ := Option.ite_none_right_eq_some.mp h
    split at h
    · next h0 =>
      obtain rfl := Option.some.inj h
      exact .joined ho h0
    · next h0 =>
      obtain ⟨hr, h⟩ := Option.ite_none_right_eq_some.mp h
      obtain rfl := Option.some.inj h
      exact .join ho h0 hr
  | destroy =>
    obtain ⟨ho, h⟩ := Option.ite_none_right_eq_some.mp h
    split at h
    · next h0 =>
      obtain rfl := Option.some.inj h
      exact .destroy ho h0
    · next h0 =>
      obtain rfl := Option.some.inj h
      exact .detach ho h0
  | run => cases h

theorem step_cases (h : step s a = some s') :
    s.aborted = false ∧ s.touched = false ∧ Step s a s' := by
  obtain ⟨hf, h⟩ := Option.ite_none_left_eq_some.mp h
  have hf : s.aborted = false ∧ s.touched = false := by simpa using hf
  refine ⟨hf.1, hf.2, ?_⟩
  cases a with
  | run => exact stepRun_cases h
  | _ => exact stepOwner_cases h

/-! ## where the two threads are -/

/-- the calls of the callback, done and to come -/
def Body (cb : Option Callback) (s : State) : RunPc → Prop
  | .running rest => cb = some (s.done ++ rest) ∧ s.invoked = 1
  | .returned => cb = some s.done ∧ s.invoked = 1
  | _ => s.done = [] ∧ s.invoked = 0

/-- the thread is joined or detached once -/
def Handle (s : State) : OwnerPc → Prop
  | .constructing | .creating => s.object.m_thread = 0 ∧ s.released = 0
  | .waiting | .threw => s.object.m_thread ≠ 0 ∧ s.released = 0
  | .constructed => s.object.m_thread ≠ 0 ∧ s.released = 0 ∨
      s.object.m_thread = 0 ∧ s.run = .returned ∧ s.released = 1
  | .destroyed => s.released = 1

/-- what holds when `k` statements of `run` are done -/
structure Filled (cb : Option Callback) (s : State) (k : ℕ) : Prop where
  tid : 1 ≤ k → 0 < s.tid
  name : 2 ≤ k → s.t_thread_name = s.object.m_name
  id : 3 ≤ k → s.object.m_id = s.tid
  before : k ≤ 4 → s.object.m_cb = cb ∧ s.cb = none
  after : 5 ≤ k → s.object.m_cb = none ∧ s.cb = cb

structure Inv (cb : Option Callback) (s : State) : Prop where
  unborn : s.owner = .constructing ↔ s.run = .unborn
  filled : Filled cb s s.run.rank
  semaphore : s.object.m_semaphore + (if s.owner.built then 1 else 0) =
    if s.run.Told then 1 else 0
  body : Body cb s s.run
  handle : Handle s s.owner

theorem inv_start : Inv cb (start cb name) where
  unborn := ⟨fun _ => rfl, fun _ => rfl⟩
  filled := ⟨nofun, nofun, nofun, fun _ => ⟨rfl, rfl⟩, nofun⟩
  semaphore := rfl
  body := ⟨rfl, rfl⟩
  handle := ⟨rfl, rfl⟩

theorem Inv.next {t : State} (hi : Inv cb s) (hr : 1 ≤ s.run.rank ∧ s.run.rank ≤ 7)
    (ht : t.run ≠ .unborn) (ho : t.owner = s.owner) (hm : t.object.m_thread = s.object.m_thread)
    (hl : t.released = s.released) (hf : Filled cb t t.run.rank)
    (hs : t.object.m_semaphore + (if s.owner.built then 1 else 0) = if t.run.Told then 1 else 0)
    (hb : Body cb t t.run) : Inv cb t where
  unborn := by
    have hu : s.run ≠ .unborn := fun h => absurd hr.1 (by rw [h]; decide)
    rw [ho]
    exact ⟨fun h => absurd (hi.unborn.mp h) hu, fun h => absurd h ht⟩
  filled := hf
  semaphore := by rwa [ho]
  body := hb
  handle := by
    have hret : s.run ≠ .returned := fun h => absurd hr.2 (by rw [h]; decide)
    have hh := hi.handle
    rw [ho]
    unfold Handle at hh ⊢
    rw [hm, hl]
    split at hh
    · exact hh
    · exact hh
    · exact hh
    · exact hh
    · exact hh.imp_right fun h => absurd h.2.1 hret
    · exact hh

theorem renamed_cases (s : State) (call : Call) :
    s.renamed call = s ∨ ∃ name, s.renamed call = s.rename name := by
  cases call with
  | other => exact .inl rfl
  | SetName name =>
    show (if name.isEmpty then s else s.rename name) = s ∨ _
    split
    · exact .inl rfl
    · next h => exact .inr ⟨name, if_neg h⟩

/-- **A step keeps the invariant.** -/
theorem Step.inv (hst : Step s a s') (hi : Inv cb s) : Inv cb s' := by
  have hf := hi.filled
  have hb := hi.body
  have hs := hi.semaphore
  have hh := hi.handle
  cases hst with
  | abort => exact { hi with filled := { hf with } }
  | touch => exact { hi with filled := { hf with } }
  | joined => exact hi
  | create ho ht =>
    have hr : s.run = .unborn := hi.unborn.mp ho
    rw [hr] at hf hb hs
    rw [ho] at hs hh
    exact ⟨⟨nofun, nofun⟩, ⟨fun _ => ht, nofun, nofun, fun _ => hf.before (by decide), nofun⟩,
      hs, hb, hh⟩
  | store ho ht =>
    rw [ho] at hs hh
    exact ⟨⟨nofun, fun h => absurd (hi.unborn.mpr h) (ho ▸ nofun)⟩, { hf with }, hs, hb, ht, hh.2⟩
  | wait ho hp =>
    rw [ho] at hs hh
    refine ⟨⟨nofun, fun h => absurd (hi.unborn.mpr h) (ho ▸ nofun)⟩, { hf with }, ?_, hb, .inl hh⟩
    show s.object.m_semaphore - 1 + 1 = _
    rw [Nat.sub_add_cancel hp]
    exact hs
  | interrupt ho =>
    rw [ho] at hs hh
    exact ⟨⟨nofun, fun h => absurd (hi.unborn.mpr h) (ho ▸ nofun)⟩, { hf with }, hs, hb, hh⟩
  | join ho h0 hr =>
    have hu : s.owner = .constructing ↔ s.run = .unborn := hi.unborn
    refine ⟨hu, { hf with }, hs, hb, ?_⟩
    rw [ho] at hh
    show Handle _ s.owner
    rw [ho]
    rcases hh with ⟨-, h⟩ | ⟨h, -⟩
    · exact .inr ⟨rfl, hr, congrArg (· + 1) h⟩
    · exact absurd h h0
  | destroy ho h0 =>
    rw [ho] at hs hh
    refine ⟨⟨nofun, fun h => absurd (hi.unborn.mpr h) (ho ▸ nofun)⟩, { hf with }, hs, hb, ?_⟩
    rcases hh with ⟨h, -⟩ | ⟨-, -, h⟩
    · exact absurd h0 h
    · exact h
  | detach ho h0 =>
    rw [ho] at hs hh
    refine ⟨⟨nofun, fun h => absurd (hi.unborn.mpr h) (ho ▸ nofun)⟩, { hf with }, hs, hb, ?_⟩
    rcases hh with ⟨-, h⟩ | ⟨h, -⟩
    · exact congrArg (· + 1) h
    · exact absurd h h0
  | name hr ha =>
    rw [hr] at hf hb hs
    exact hi.next (hr ▸ by decide) nofun rfl rfl rfl
      ⟨fun _ => hf.tid (by decide), fun _ => rfl, nofun, fun _ => hf.before (by decide), nofun⟩ hs hb
  | id hr ha =>
    rw [hr] at hf hb hs
    exact hi.next (hr ▸ by decide) nofun rfl rfl rfl
      ⟨fun _ => hf.tid (by decide), fun _ => hf.name (by decide), fun _ => rfl,
        fun _ => hf.before (by decide), nofun⟩ hs hb
  | setname hr ha =>
    rw [hr] at hf hb hs
    exact hi.next (hr ▸ by decide) nofun rfl rfl rfl
      ⟨fun _ => hf.tid (by decide), fun _ => hf.name (by decide), fun _ => hf.id (by decide),
        fun _ => hf.before (by decide), nofun⟩ hs hb
  | swap hr ha =>
    rw [hr] at hf hb hs
    obtain ⟨h1, h2⟩ := hf.before (by decide)
    exact hi.next (hr ▸ by decide) nofun rfl rfl rfl
      ⟨fun _ => hf.tid (by decide), fun _ => hf.name (by decide), fun _ => hf.id (by decide),
        nofun, fun _ => ⟨h2, h1⟩⟩ hs hb
  | notify hr ha =>
    rw [hr] at hf hb hs
    refine hi.next (hr ▸ by decide) nofun rfl rfl rfl
      ⟨fun _ => hf.tid (by decide), fun _ => hf.name (by decide), fun _ => hf.id (by decide),
        nofun, fun _ => hf.after (by decide)⟩ ?_ hb
    show s.object.m_semaphore + 1 + _ = 1
    rw [Nat.add_right_comm]
    exact congrArg (· + 1) hs
  | @invoke body hr hc =>
    rw [hr] at hf hb hs
    obtain ⟨h1, h2⟩ := hf.after (by decide)
    obtain ⟨hd, hn⟩ := hb
    refine hi.next (hr ▸ by decide) nofun rfl rfl rfl
      ⟨fun _ => hf.tid (by decide), fun _ => hf.name (by decide), fun _ => hf.id (by decide),
        nofun, fun _ => ⟨h1, h2⟩⟩ hs ⟨?_, congrArg (· + 1) hn⟩
    show cb = some (s.done ++ body)
    rw [hd, ← h2]
    exact hc
  | @call call rest hr _ =>
    rw [hr] at hf hb hs
    have hf : Filled cb s 7 := hf
    have h7 : 1 ≤ s.run.rank ∧ s.run.rank ≤ 7 := by
      rw [hr]
      exact (by decide : 1 ≤ 7 ∧ 7 ≤ 7)
    obtain ⟨hd, hn⟩ := hb
    have hran : Inv cb (s.ran call rest) := by
      refine hi.next h7 nofun rfl rfl rfl
        ⟨fun _ => hf.tid (by decide), fun _ => hf.name (by decide), fun _ => hf.id (by decide),
          nofun, fun _ => hf.after (by decide)⟩ hs ⟨?_, hn⟩
      show cb = some (s.done ++ [call] ++ rest)
      rw [List.append_assoc]
      exact hd
    rcases renamed_cases (s.ran call rest) call with he | ⟨name, he⟩
    · rw [he]
      exact hran
    · rw [he]
      exact { hran with filled := { hran.filled with name := fun _ => rfl } }
  | leave hr =>
    rw [hr] at hf hb hs
    obtain ⟨hd, hn⟩ := hb
    rw [List.append_nil] at hd
    exact hi.next (hr ▸ by decide) nofun rfl rfl rfl
      ⟨fun _ => hf.tid (by decide), fun _ => hf.name (by decide), fun _ => hf.id (by decide),
        nofun, fun _ => hf.after (by decide)⟩ hs ⟨hd, hn⟩

theorem inv_reach (h : (fiberThread cb name).Reachable s) : Inv cb s :=
  h.inv inv_start fun _ _ _ hi _ hst => (step_cases hst).2.2.inv hi

/-! ## what is handed over -/

/-- the constructor that waits is waited for: it has been notified, or `run` goes on -/
def Served (s : State) : Prop :=
  s.owner = .waiting → s.aborted = false → s.touched = false →
    0 < s.object.m_semaphore ∨ ∃ s', step s .run = some s'

/-- what the two threads find -/
structure HandedOver (cb : Option Callback) (s : State) : Prop where
  /-- `getId` of an object that is constructed is the id of its thread -/
  id : s.owner.built → s.object.m_id = s.tid ∧ 0 < s.tid
  /-- the callback has left the object, for the thread alone -/
  taken : s.owner.built → s.object.m_cb = none ∧ s.cb = cb
  /-- it is invoked once at most, and its calls are done in order -/
  once : s.invoked ≤ 1
  done : s.done ≠ [] → ∃ rest, cb = some (s.done ++ rest)
  /-- after `join` it has run to its end -/
  joined : s.owner = .constructed → s.object.m_thread = 0 →
    s.run = .returned ∧ s.invoked = 1 ∧ cb = some s.done
  /-- the thread is joined or detached, and once -/
  released : s.released ≤ 1
  destroyed : s.owner = .destroyed → s.released = 1
  served : Served s

theorem told_running (rest : Callback) : (RunPc.running rest).Told := (by decide : 6 ≤ 7)

theorem Inv.told (hi : Inv cb s) (hb : s.owner.built = true) : s.run.Told := by
  have hs := hi.semaphore
  rw [if_pos hb] at hs
  by_contra h
  rw [if_neg h] at hs
  exact absurd hs (Nat.succ_ne_zero _)

theorem Inv.invoked_le (hi : Inv cb s) : s.invoked ≤ 1 := by
  have hb := hi.body
  unfold Body at hb
  split at hb
  · exact Nat.le_of_eq hb.2
  · exact Nat.le_of_eq hb.2
  · exact hb.2.symm ▸ Nat.zero_le 1

theorem Inv.released_le (hi : Inv cb s) : s.released ≤ 1 := by
  have hh := hi.handle
  unfold Handle at hh
  split at hh <;> omega

/-- a thread that has not notified the constructor is at a statement that it can do -/
theorem Inv.served (hi : Inv cb s) : Served s := by
  intro ho ha ht
  by_cases hp : 0 < s.object.m_semaphore
  · exact .inl hp
  · right
    have hs := hi.semaphore
    have h0 : s.object.m_semaphore = 0 := Nat.eq_zero_of_not_pos hp
    have hu : s.run ≠ .unborn := fun h => absurd (hi.unborn.mpr h) (ho ▸ nofun)
    have hn : ¬ s.run.Told := by
      intro h
      rw [ho, if_pos h, h0] at hs
      exact absurd hs (by decide)
    unfold step stepRun
    rw [ha, ht]
    cases hr : s.run with
    | unborn => exact absurd hr hu
    | name | id | setname | swap | notify => exact ⟨_, rfl⟩
    | invoke | returned => exact absurd (hr ▸ by decide) hn
    | running rest => exact absurd (hr ▸ told_running rest) hn

/-- **The constructor hands the callback over once, `join` waits for its end, and the thread is
released once.** -/
theorem handedOver (h : (fiberThread cb name).Reachable s) : HandedOver cb s := by
  have hi := inv_reach h
  have hf := hi.filled
  refine ⟨?_, ?_, hi.invoked_le, ?_, ?_, hi.released_le, ?_, hi.served⟩
  · intro hb
    have h6 : 6 ≤ s.run.rank := hi.told hb
    exact ⟨hf.id (by omega), hf.tid (by omega)⟩
  · intro hb
    have h6 : 6 ≤ s.run.rank := hi.told hb
    exact hf.after (by omega)
  · intro hd
    have hb := hi.body
    unfold Body at hb
    split at hb
    · exact ⟨_, hb.1⟩
    · exact ⟨[], by rw [List.append_nil]; exact hb.1⟩
    · exact absurd hb.1 hd
  · intro ho h0
    have hh := hi.handle
    have hb := hi.body
    rw [ho] at hh
    rcases hh with ⟨hne, -⟩ | ⟨-, hr, -⟩
    · exact absurd h0 hne
    · rw [hr] at hb
      exact ⟨hr, hb.2, hb.1⟩
  · intro ho
    have hh := hi.handle
    rwa [ho] at hh

/-- the thread is ahead of the constructor, renames itself and is joined -/
theorem handedOver_run : ∃ s, (fiberThread (some [.other, .SetName [66]]) [65]).Reachable s ∧
    HandedOver (some [.other, .SetName [66]]) s ∧ s.owner = .destroyed ∧ s.object.m_id = 7 ∧
      s.object.m_name = [66] := by
  have h : ((fiberThread (some [.other, .SetName [66]]) [65]).exec
      (fiberThread (some [.other, .SetName [66]]) [65]).init
      [.create 7, .run, .run, .run, .run, .run, .run, .store 9, .wait, .run, .run, .run, .join, .join,
        .destroy]).map (fun s => (s.owner, s.object.m_id, s.object.m_name)) =
      some (.destroyed, 7, [66]) := by decide
  obtain ⟨s, hs, hv⟩ := Option.map_eq_some_iff.mp h
  simp only [Prod.mk.injEq] at hv
  have hr := Reach.of_exec _ .init hs
  exact ⟨s, hr, handedOver hr, hv⟩

/-! ## accesses that come too late -/

/-- `sem_wait` is interrupted only when `run` has notified, and the callback sets a name only while
the object is there -/
def Harmless (s : State) : Act → Prop
  | .interrupt => s.run.Told
  | .run => ∀ name rest, s.run = .running (.SetName name :: rest) → name ≠ [] → s.alive
  | _ => True

/-- no access to an object that has ended, so far and in the part of `run` before the callback -/
def Untouched (s : State) : Prop := s.touched = false ∧ (s.alive = true ∨ s.run.Told)

theorem alive_of_owner {pc : OwnerPc} (h : s.owner = pc) (hg : pc.gone = false) :
    s.alive = true := by
  unfold State.alive
  rw [h, hg]
  rfl

/-- the statements that use the object come before `invoke`, or set a name -/
theorem RunPc.Uses.cases {pc : RunPc} (hu : pc.Uses) :
    ¬ pc.Told ∨ ∃ name rest, pc = .running (.SetName name :: rest) ∧ name ≠ [] := by
  unfold RunPc.Uses at hu
  split at hu
  · exact .inl (by decide)
  · exact .inl (by decide)
  · exact .inl (by decide)
  · exact .inl (by decide)
  · exact .inl (by decide)
  · next name rest => exact .inr ⟨name, rest, rfl, hu⟩
  all_goals exact hu.elim

theorem Step.untouched (hst : Step s a s') (hi : Inv cb s) (hu : Untouched s)
    (hok : Harmless s a) : Untouched s' := by
  obtain ⟨ht, hu⟩ := hu
  cases hst with
  | create | store | wait => exact ⟨ht, .inl rfl⟩
  | abort => exact ⟨ht, hu⟩
  | joined ho | join ho => exact ⟨ht, .inl (alive_of_owner ho rfl)⟩
  | interrupt => exact ⟨ht, .inr hok⟩
  | destroy ho | detach ho => exact ⟨ht, .inr (hi.told (ho ▸ rfl))⟩
  | touch hs ha =>
    exfalso
    rcases hs.cases with hn | ⟨name, rest, hr, hne⟩
    · rcases hu with h | h
      · exact absurd (h.symm.trans ha) (by decide)
      · exact hn h
    · exact absurd ((hok name rest hr hne).symm.trans ha) (by decide)
  | name _ ha | id _ ha | setname _ ha | swap _ ha | notify _ ha => exact ⟨ht, .inl ha⟩
  | @invoke body => exact ⟨ht, .inr (told_running body)⟩
  | @call call rest =>
    rcases renamed_cases (s.ran call rest) call with he | ⟨name, he⟩
    · rw [he]
      exact ⟨ht, .inr (told_running rest)⟩
    · rw [he]
      exact ⟨ht, .inr (told_running rest)⟩
  | leave => exact ⟨ht, .inr (by decide : RunPc.returned.Told)⟩

theorem Step.untouched_back (hst : Step s a s') (ht : s.touched = false) (hu : Untouched s') :
    Untouched s ∧ Harmless s a := by
  obtain ⟨ht', hu⟩ := hu
  cases hst with
  | create ho | store ho | wait ho | joined ho | join ho | destroy ho | detach ho =>
    exact ⟨⟨ht, .inl (alive_of_owner ho rfl)⟩, trivial⟩
  | abort a ha =>
    refine ⟨⟨ht, hu⟩, ?_⟩
    rcases ha with rfl | ⟨rfl, hr, -⟩
    · trivial
    · intro name rest h
      exact absurd (hr.symm.trans h) nofun
  | interrupt ho =>
    rcases hu with h | h
    · cases h
    · exact ⟨⟨ht, .inr h⟩, h⟩
  | touch => cases ht'
  | name hr ha | id hr ha | setname hr ha | swap hr ha | notify hr ha =>
    exact ⟨⟨ht, .inl ha⟩, fun name rest h => absurd (hr.symm.trans h) nofun⟩
  | invoke hr =>
    exact ⟨⟨ht, .inr (hr ▸ by decide)⟩, fun name rest h => absurd (hr.symm.trans h) nofun⟩
  | @call call rest hr ha =>
    refine ⟨⟨ht, .inr (hr ▸ told_running _)⟩, fun name rest h hne => ha ?_⟩
    rw [h]
    exact hne
  | leave hr =>
    exact ⟨⟨ht, .inr (hr ▸ told_running _)⟩, fun name rest h => absurd (hr.symm.trans h) (by simp)⟩

/-- **No access comes too late in the runs whose steps are all harmless, and in no other.** -/
theorem harmless_iff :
    (fiberThread cb name).Reach Harmless s ↔ (fiberThread cb name).Reachable s ∧ Untouched s := by
  refine Reach.iff_inv ⟨rfl, .inl rfl⟩ ?_ ?_
  · intro s a s' hr hu hok hst
    exact (step_cases hst).2.2.untouched (inv_reach hr) hu hok
  · intro s a s' hr hst hu
    obtain ⟨-, ht, hst⟩ := step_cases hst
    exact hst.untouched_back ht hu

/-- the callback of a thread whose object has been destroyed sets a name -/
example : ((fiberThread (some [.SetName [66]]) [65]).exec (start (some [.SetName [66]]) [65])
    [.create 7, .store 9, .run, .run, .run, .run, .run, .wait, .run, .destroy, .run]).map
      State.touched = some true := by decide

end FiberThread
end CppCores
