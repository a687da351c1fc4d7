import Mathlib.Data.Int.Notation
import Mathlib.Logic.Function.Basic
import Mathlib.Tactic.Common
import CppCores.Lib.Machine

/-!
# BaseThread: the life of a thread object, `concurrent/base_thread.cc`

One thread calls `DoStart`, `Join`, `GetId` and `DoDetach` of a `BaseThread`, in any order and as often
as it likes; every `DoStart` that succeeds creates a thread in `StaticEntry`.  An access to `m_handle`,
`m_id` or `m_is_alive` is one step, and the steps of all threads interleave.  A handle is the number of
the thread it names, and `none` is `pthread_t()`.

`pthread_create` stores the handle before or after the new thread moves, and leaves it alone when it
fails.  A call that throws leaves the object as it was; a failed assertion has no step.

`StaticEntry` has a result and no `return`.  A thread whose `Entry` returns goes on up to its end, which
is undefined and has no step; it ends if `Entry` calls `ThisThread::Exit`, which leaves through
`Cleanup`.

* `Inv`           the fields, by the place of the thread that the object stands for;
* `tidy_reach`    **a joinable thread that nobody detaches is one of one, `Entry` and `OnExit` run once in
                  each before `Join` returns, which it does for those that exit alone, and `GetId` finds
                  the id;**
* `detached_run`  **a detached thread is never alive, its object starts no other, and `GetId` does not
                  come back.**
-/

namespace CppCores
namespace BaseThread
open Machine

/-- the place of the thread that has the object -/
inductive ClientPc where
  | idle
  /-- in `DoStart`, before `m_id = 0` -/
  | clearing
  /-- in `DoStart`, before `pthread_create` -/
  | calling
  /-- in `pthread_create`, before the handle of the new thread is stored -/
  | creating (k : ℕ)
  /-- in the loop of `GetId` -/
  | polling
  /-- in `GetId`, before `return m_id` -/
  | reading
  /-- in `pthread_join` -/
  | joining
  /-- in `Join` or `DoDetach`, before `m_id = -1` -/
  | forgetting
  deriving DecidableEq, Repr

/-- the place of a thread in `StaticEntry` -/
inductive ThreadPc where
  | unborn
  /-- before `IsDetached()` -/
  | entering
  /-- before `m_is_alive = true` -/
  | mark
  /-- before `m_id = ThisThread::GetId()` -/
  | ident
  /-- before `Entry()` -/
  | ready
  | running
  /-- before the first `m_is_alive = false` -/
  | clear
  /-- before the one of `Cleanup`; `Entry` has returned or exited -/
  | cleanup (exits : Bool)
  /-- before `OnExit()` -/
  | onExit (exits : Bool)
  /-- at the end of `StaticEntry` -/
  | falling
  | ended
  deriving DecidableEq, Repr

/-- the object and the threads; no step reads `entered` and `exited`, how often each thread has called
`Entry` and `OnExit` -/
structure State where
  m_handle : Option ℕ
  m_id : ℤ
  m_is_alive : Bool
  client : ClientPc
  created : ℕ
  thread : ℕ → ThreadPc
  tid : ℕ → ℤ
  entered : ℕ → ℕ
  exited : ℕ → ℕ

inductive Act where
  | DoStart
  | Join
  | GetId
  | DoDetach
  /-- `pthread_create`, with the id of the new thread, or an error -/
  | create (tid : Option ℤ)
  /-- the call goes on -/
  | client
  /-- a thread goes on; its `Entry` returns, or ends the thread by `ThisThread::Exit` -/
  | thread (k : ℕ) (exits : Bool)
  deriving DecidableEq, Repr

namespace ThreadPc

/-- `Entry` has been called -/
def entered : ThreadPc → Bool
  | .running | .clear | .cleanup _ | .onExit _ | .falling | .ended => true
  | .unborn | .entering | .mark | .ident | .ready => false

/-- `OnExit` has been called -/
def exited : ThreadPc → Bool
  | .falling | .ended => true
  | _ => false

end ThreadPc

namespace State

def clientAt (s : State) (pc : ClientPc) : State := { s with client := pc }

def threadAt (s : State) (k : ℕ) (pc : ThreadPc) : State :=
  { s with thread := Function.update s.thread k pc }

def setHandle (s : State) (h : Option ℕ) : State := { s with m_handle := h }

def setId (s : State) (id : ℤ) : State := { s with m_id := id }

def setAlive (s : State) (b : Bool) : State := { s with m_is_alive := b }

def IsAlive (s : State) : Bool := s.m_is_alive

def IsJoinable (s : State) : Bool := s.m_handle.isSome

def enter (s : State) (k : ℕ) : State :=
  { s with entered := Function.update s.entered k (s.entered k + 1) }

def exit (s : State) (k : ℕ) : State :=
  { s with exited := Function.update s.exited k (s.exited k + 1) }

/-- a new thread, which has the number `created` -/
def spawn (s : State) (tid : ℤ) : State :=
  { s.threadAt s.created .entering with
    tid := Function.update s.tid s.created tid, created := s.created + 1 }

end State

/-- `StaticEntry` and `Cleanup`, in the thread `k` -/
def stepThread (detached : Bool) (s : State) (k : ℕ) (exits : Bool) : Option State :=
  match s.thread k with
  | .unborn | .falling | .ended => none
  | .entering => some (s.threadAt k (if detached then .ready else .mark))
  | .mark => some ((s.setAlive true).threadAt k .ident)
  | .ident => some ((s.setId (s.tid k)).threadAt k .ready)
  | .ready => some ((s.enter k).threadAt k .running)
  | .running => some (s.threadAt k (if exits then .cleanup true else .clear))
  | .clear => some ((s.setAlive false).threadAt k (.cleanup false))
  | .cleanup e => some ((s.setAlive false).threadAt k (.onExit e))
  | .onExit e => some ((s.exit k).threadAt k (if e then .ended else .falling))

/-- the call of the client goes on -/
def stepClient (s : State) : Option State :=
  match s.client with
  | .idle | .calling => none
  | .clearing => some ((s.setId 0).clientAt .calling)
  | .creating k => some ((s.setHandle (some k)).clientAt .idle)
  | .polling => some (if s.m_id = 0 then s else s.clientAt .reading)
  | .reading => some (s.clientAt .idle)
  | .joining =>
    match s.m_handle with
    | none => none
    | some k =>
      if s.thread k = .ended then some ((s.setHandle none).clientAt .forgetting) else none
  | .forgetting => some ((s.setId (-1)).clientAt .idle)

/-- `pthread_create`, and `m_id = -1` after an error -/
def pthread_create (s : State) : Option ℤ → Option State
  | none => if s.client = .calling then some ((s.setId (-1)).clientAt .idle) else none
  | some tid =>
    if s.client = .calling ∧ 0 < tid then some ((s.spawn tid).clientAt (.creating s.created))
    else none

/-- a call, up to its first access to a field that another thread writes; `pthread_join` and
`pthread_detach` of a detached thread fail, and the call throws -/
def call (detached : Bool) (s : State) : Act → Option State
  | .DoStart => some (if s.IsJoinable then s else (s.setHandle none).clientAt .clearing)
  | .Join => if s.IsJoinable then some (if detached then s else s.clientAt .joining) else none
  | .GetId => some (s.clientAt (if s.m_id = 0 then .polling else .reading))
  | .DoDetach =>
    some (if s.IsJoinable && !detached then (s.setHandle none).clientAt .forgetting else s)
  | .create _ | .client | .thread _ _ => none

def step (detached : Bool) (s : State) : Act → Option State
  | .create tid => pthread_create s tid
  | .client => stepClient s
  | .thread k exits => stepThread detached s k exits
  | a => if s.client = .idle then call detached s a else none

/-- a `BaseThread` after its constructor -/
def start : State where
  m_handle := none
  m_id := -1
  m_is_alive := false
  client := .idle
  created := 0
  thread := fun _ => .unborn
  tid := fun _ => 0
  entered := fun _ => 0
  exited := fun _ => 0

def baseThread (detached : Bool) : Machine State Act := ⟨start, step detached⟩

variable {detached exits : Bool} {k : ℕ} {s s' : State} {a : Act}

/-! ## a joinable thread -/

/-- nobody calls `DoDetach` -/
def NotDetached (_ : State) : Act → Prop
  | .DoDetach => False
  | _ => True

instance : ∀ (s : State) (a : Act), Decidable (NotDetached s a)
  | _, .DoDetach => .isFalse id
  | _, .DoStart | _, .Join | _, .GetId | _, .create _ | _, .client | _, .thread _ _ => .isTrue trivial

/-- what a thread does next to the object `s`, and where it is then -/
inductive Next (s : State) (k : ℕ) : ThreadPc → State → ThreadPc → Prop
  | entering : Next s k .entering s .mark
  | mark : Next s k .mark (s.setAlive true) .ident
  | ident : Next s k .ident (s.setId (s.tid k)) .ready
  | ready : Next s k .ready (s.enter k) .running
  | leave (exits : Bool) : Next s k .running s (if exits then .cleanup true else .clear)
  | clear : Next s k .clear (s.setAlive false) (.cleanup false)
  | cleanup (e : Bool) : Next s k (.cleanup e) (s.setAlive false) (.onExit e)
  | onExit (e : Bool) : Next s k (.onExit e) (s.exit k) (if e then .ended else .falling)

/-- the steps of a joinable thread and its client -/
inductive Step (s : State) : Act → State → Prop
  | stay (a : Act) : Step s a s
  | doStart : s.client = .idle → s.m_handle = none →
      Step s .DoStart ((s.setHandle none).clientAt .clearing)
  | join : s.client = .idle → s.m_handle ≠ none → Step s .Join (s.clientAt .joining)
  | poll : s.client = .idle → s.m_id = 0 → Step s .GetId (s.clientAt .polling)
  | found (a : Act) : s.client = .idle ∨ s.client = .polling → s.m_id ≠ 0 →
      Step s a (s.clientAt .reading)
  | createFails : s.client = .calling →
      Step s (.create none) ((s.setId (-1)).clientAt .idle)
  | create {tid : ℤ} : s.client = .calling → 0 < tid →
      Step s (.create (some tid)) ((s.spawn tid).clientAt (.creating s.created))
  | clearing : s.client = .clearing → Step s .client ((s.setId 0).clientAt .calling)
  | store {k : ℕ} : s.client = .creating k →
      Step s .client ((s.setHandle (some k)).clientAt .idle)
  | read : s.client = .reading → Step s .client (s.clientAt .idle)
  | joined {k : ℕ} : s.client = .joining → s.m_handle = some k → s.thread k = .ended →
      Step s .client ((s.setHandle none).clientAt .forgetting)
  | forget : s.client = .forgetting → Step s .client ((s.setId (-1)).clientAt .idle)
  | thread {k : ℕ} {exits : Bool} {pc : ThreadPc} {t : State} : Next s k (s.thread k) t pc →
      Step s (.thread k exits) (t.threadAt k pc)

theorem Step.of_next {pc pc' : ThreadPc} {t : State} (hp : s.thread k = pc)
    (hn : Next s k pc t pc') : Step s (.thread k exits) (t.threadAt k pc') :=
  .thread (hp ▸ hn)

theorem stepThread_cases (h : stepThread false s k exits = some s') :
    Step s (.thread k exits) s' := by
  unfold stepThread at h
  cases hp : s.thread k with
  | unborn | falling | ended =>
    rw [hp] at h
    cases h
  | entering =>
    rw [hp] at h
    obtain rfl := Option.some.inj h
    exact .of_next hp .entering
  | mark =>
    rw [hp] at h
    obtain rfl := Option.some.inj h
    exact .of_next hp .mark
  | ident =>
    rw [hp] at h
    obtain rfl := Option.some.inj h
    exact .of_next hp .ident
  | ready =>
    rw [hp] at h
    obtain rfl := Option.some.inj h
    exact .of_next hp .ready
  | running =>
    rw [hp] at h
    obtain rfl := Option.some.inj h
    exact .of_next hp (.leave exits)
  | clear =>
    rw [hp] at h
    obtain rfl := Option.some.inj h
    exact .of_next hp .clear
  | cleanup e =>
    rw [hp] at h
    obtain rfl := Option.some.inj h
    exact .of_next hp (.cleanup e)
  | onExit e =>
    rw [hp] at h
    obtain rfl := Option.some.inj h
    exact .of_next hp (.onExit e)

theorem stepClient_cases (h : stepClient s = some s') : Step s .client s' := by
  unfold stepClient at h
  split at h
  · cases h
  · cases h
  · next hp =>
    obtain rfl := Option.some.inj h
    exact .clearing hp
  · next hp =>
    obtain rfl := Option.some.inj h
    exact .store hp
  · next hp =>
    obtain rfl := Option.some.inj h
    split
    · exact .stay _
    · next h0 => exact .found _ (.inr hp) h0
  · next hp =>
    obtain rfl := Option.some.inj h
    exact .read hp
  · next hp =>
    split at h
    · cases h
    · next k hk =>
      obtain ⟨ho, h⟩ := Option.ite_none_right_eq_some.mp h
      obtain rfl := Option.some.inj h
      exact .joined hp hk ho
  · next hp =>
    obtain rfl := Option.some.inj h
    exact .forget hp

theorem call_cases (hc : s.client = .idle) (hn : NotDetached s a)
    (h : call false s a = some s') : Step s a s' := by
  cases a with
  | DoStart =>
    obtain rfl := Option.some.inj h
    split
    · exact .stay _
    · next hj => exact .doStart hc (Option.not_isSome_iff_eq_none.mp hj)
  | Join =>
    obtain ⟨hj, h⟩ := Option.ite_none_right_eq_some.mp h
    obtain rfl := Option.some.inj h
    exact .join hc (Option.isSome_iff_ne_none.mp hj)
  | GetId =>
    obtain rfl := Option.some.inj h
    split
    · next h0 => exact .poll hc h0
    · next h0 => exact .found _ (.inl hc) h0
  | DoDetach => exact hn.elim
  | create | client | thread => cases h

theorem step_cases (hn : NotDetached s a) (h : step false s a = some s') : Step s a s' := by
  cases a with
  | create tid =>
    cases tid with
    | none =>
      obtain ⟨hc, h⟩ := Option.ite_none_right_eq_some.mp h
      obtain rfl := Option.some.inj h
      exact .createFails hc
    | some tid =>
      obtain ⟨⟨hc, ht⟩, h⟩ := Option.ite_none_right_eq_some.mp h
      obtain rfl := Option.some.inj h
      exact .create hc ht
  | client => exact stepClient_cases h
  | thread k exits => exact stepThread_cases h
  | DoStart | Join | GetId =>
    obtain ⟨hc, h⟩ := Option.ite_none_right_eq_some.mp h
    exact call_cases hc hn h
  | DoDetach => exact hn.elim

def State.boundAt (s : State) : ClientPc → Option ℕ
  | .creating k => some k
  | _ => s.m_handle

/-- the thread that the object stands for -/
def State.bound (s : State) : Option ℕ := s.boundAt s.client

/-- the fields, by the place of the thread that the object stands for -/
def Row (s : State) (k : ℕ) : ThreadPc → Prop
  | .unborn => False
  | .entering | .mark => s.m_id = 0 ∧ s.m_is_alive = false
  | .ident => s.m_id = 0 ∧ s.m_is_alive = true
  | .ready | .running | .clear => s.m_id = s.tid k ∧ s.m_is_alive = true
  | .cleanup _ => s.m_id = s.tid k
  | .onExit _ | .falling | .ended => s.m_id = s.tid k ∧ s.m_is_alive = false

/-- what the place of the client says -/
def Calls (s : State) : ClientPc → Prop
  | .idle => True
  | .clearing | .calling | .creating _ | .forgetting => s.m_handle = none
  | .polling | .joining => s.m_handle ≠ none
  | .reading => s.m_id ≠ 0

/-- what the object says when it stands for no thread -/
def Blank (s : State) : ClientPc → Prop
  | .calling => s.m_id = 0 ∧ s.m_is_alive = false
  | .forgetting => s.m_is_alive = false
  | _ => s.m_id = -1 ∧ s.m_is_alive = false

/-- the thread `k` has called `Entry` and `OnExit` once, or not yet -/
def Counted (s : State) (k : ℕ) (pc : ThreadPc) : Prop :=
  s.entered k = (if pc.entered then 1 else 0) ∧ s.exited k = if pc.exited then 1 else 0

/-- what the object says about its threads -/
structure Inv (s : State) : Prop where
  unborn : ∀ k, s.created ≤ k ↔ s.thread k = .unborn
  rest : ∀ k, s.thread k ≠ .unborn → s.bound ≠ some k → s.thread k = .ended
  busy : ∀ k, s.bound = some k → s.created = k + 1 ∧ Row s k (s.thread k)
  blank : s.bound = none → Blank s s.client
  calls : Calls s s.client
  tids : ∀ k < s.created, 0 < s.tid k
  counted : ∀ k, Counted s k (s.thread k)

theorem inv_start : Inv start where
  unborn _ := ⟨fun _ => rfl, fun _ => Nat.zero_le _⟩
  rest _ h := absurd rfl h
  busy _ := nofun
  blank _ := ⟨rfl, rfl⟩
  calls := trivial
  tids _ := nofun
  counted _ := ⟨rfl, rfl⟩

theorem Next.frame {pc pc' : ThreadPc} {t : State} (h : Next s k pc t pc') :
    t.client = s.client ∧ t.m_handle = s.m_handle ∧ t.created = s.created ∧ t.thread = s.thread ∧
      t.tid = s.tid := by
  cases h <;> exact ⟨rfl, rfl, rfl, rfl, rfl⟩

/-- a thread that moves is neither unborn nor ended, before or after, but for `OnExit` -/
theorem Next.live {pc pc' : ThreadPc} {t : State} (h : Next s k pc t pc') :
    pc ≠ .unborn ∧ pc ≠ .ended ∧ pc' ≠ .unborn := by
  cases h with
  | leave exits => cases exits <;> exact ⟨nofun, nofun, nofun⟩
  | onExit e => cases e <;> exact ⟨nofun, nofun, nofun⟩
  | _ => exact ⟨nofun, nofun, nofun⟩

theorem Next.row {pc pc' : ThreadPc} {t : State} (h : Next s k pc t pc') (hr : Row s k pc) :
    Row (t.threadAt k pc') k pc' := by
  cases h with
  | entering => exact hr
  | mark => exact ⟨hr.1, rfl⟩
  | ident => exact ⟨rfl, hr.2⟩
  | ready => exact hr
  | leave exits =>
    cases exits with
    | true => exact hr.1
    | false => exact hr
  | clear => exact hr.1
  | cleanup e => exact ⟨hr, rfl⟩
  | onExit e =>
    cases e with
    | true => exact hr
    | false => exact hr

/-- the id is written once, and is no 0 then -/
theorem Next.id {pc pc' : ThreadPc} {t : State} (h : Next s k pc t pc') (ht : 0 < s.tid k)
    (hi : s.m_id ≠ 0) : t.m_id ≠ 0 := by
  cases h with
  | ident => exact Int.ne_of_gt ht
  | _ => exact hi

theorem Next.counted {pc pc' : ThreadPc} {t : State} (h : Next s k pc t pc')
    (hc : Counted s k pc) : Counted (t.threadAt k pc') k pc' := by
  obtain ⟨h1, h2⟩ := hc
  cases h with
  | entering | mark | ident | clear | cleanup => exact ⟨h1, h2⟩
  | leave exits => cases exits <;> exact ⟨h1, h2⟩
  | ready =>
    refine ⟨?_, h2⟩
    exact (Function.update_self ..).trans (congrArg (· + 1) h1)
  | onExit e =>
    have hone : (s.exit k).exited k = 1 := (Function.update_self ..).trans (congrArg (· + 1) h2)
    cases e with
    | true => exact ⟨h1, hone⟩
    | false => exact ⟨h1, hone⟩

theorem Next.counted_of_ne {j : ℕ} {pc pc' q : ThreadPc} {t : State} (h : Next s k pc t pc') (hj : j ≠ k)
    (hc : Counted s j q) : Counted (t.threadAt k pc') j q := by
  obtain ⟨h1, h2⟩ := hc
  cases h with
  | entering | mark | ident | leave | clear | cleanup => exact ⟨h1, h2⟩
  | ready => exact ⟨(Function.update_of_ne hj ..).trans h1, h2⟩
  | onExit => exact ⟨h1, (Function.update_of_ne hj ..).trans h2⟩

theorem Inv.bound_of_next {pc : ThreadPc} {t : State} (hi : Inv s)
    (h : Next s k (s.thread k) t pc) : s.bound = some k := by
  by_contra hb
  exact h.live.2.1 (hi.rest k h.live.1 hb)

theorem Calls.congr {pc : ClientPc} {t : State} (h : Calls s pc) (hh : t.m_handle = s.m_handle)
    (hid : s.m_id ≠ 0 → t.m_id ≠ 0) : Calls t pc := by
  cases pc with
  | idle => trivial
  | clearing | calling | creating | forgetting => exact hh.trans h
  | polling | joining => exact fun hn => h (hh.symm.trans hn)
  | reading => exact hid h

theorem Inv.thread_step {pc : ThreadPc} {t : State} (hi : Inv s)
    (h : Next s k (s.thread k) t pc) : Inv (t.threadAt k pc) := by
  have hb := hi.bound_of_next h
  obtain ⟨hk, hrow⟩ := hi.busy k hb
  have ht : 0 < s.tid k := hi.tids k (by omega)
  obtain ⟨h1, h2, h3, h4, h5⟩ := h.frame
  have hbound : (t.threadAt k pc).bound = s.bound := by
    show State.boundAt (t.threadAt k pc) t.client = s.boundAt s.client
    rw [h1]
    unfold State.boundAt
    split
    · rfl
    · exact h2
  have hself : (t.threadAt k pc).thread k = pc := Function.update_self ..
  have hother : ∀ j, j ≠ k → (t.threadAt k pc).thread j = s.thread j := by
    intro j hj
    exact (Function.update_of_ne hj ..).trans (congrFun h4 j)
  refine ⟨?_, ?_, ?_, ?_, ?_, ?_, ?_⟩
  · intro j
    show t.created ≤ j ↔ _
    rw [h3]
    by_cases hj : j = k
    · subst hj
      rw [hself]
      exact ⟨fun h => by omega, fun h' => absurd h' h.live.2.2⟩
    · rw [hother j hj]
      exact hi.unborn j
  · intro j hu hj
    rw [hbound] at hj
    have hjk : j ≠ k := by
      rintro rfl
      exact hj hb
    rw [hother j hjk] at hu ⊢
    exact hi.rest j hu hj
  · intro j hj
    rw [hbound, hb] at hj
    obtain rfl := Option.some.inj hj
    rw [hself]
    exact ⟨h3.trans hk, h.row hrow⟩
  · intro hn
    rw [hbound, hb] at hn
    cases hn
  · show Calls (t.threadAt k pc) t.client
    rw [h1]
    exact hi.calls.congr h2 (h.id ht)
  · intro j hj
    show 0 < t.tid j
    rw [h5]
    exact hi.tids j (h3 ▸ hj)
  · intro j
    by_cases hj : j = k
    · subst hj
      rw [hself]
      exact h.counted (hi.counted j)
    · rw [hother j hj]
      exact h.counted_of_ne hj (hi.counted j)

theorem bound_eq {pc : ClientPc} (hp : s.client = pc) : s.bound = s.boundAt pc :=
  congrArg s.boundAt hp

theorem Inv.client_step {t : State} (hi : Inv s) (hb : t.bound = s.bound)
    (hth : t.thread = s.thread ∧ t.created = s.created ∧ t.tid = s.tid ∧ t.entered = s.entered ∧
      t.exited = s.exited)
    (hrow : ∀ k, s.bound = some k → t.m_id = s.m_id ∧ t.m_is_alive = s.m_is_alive)
    (hblank : s.bound = none → Blank t t.client) (hcalls : Calls t t.client) : Inv t := by
  obtain ⟨h1, h2, h3, h4, h5⟩ := hth
  refine ⟨?_, ?_, ?_, ?_, hcalls, ?_, ?_⟩
  · rw [h1, h2]
    exact hi.unborn
  · rw [h1, hb]
    exact hi.rest
  · intro k hk
    rw [hb] at hk
    obtain ⟨hid, hal⟩ := hrow k hk
    rw [h1, h2]
    refine ⟨(hi.busy k hk).1, ?_⟩
    have hr := (hi.busy k hk).2
    unfold Row at hr ⊢
    rw [hid, hal, h3]
    exact hr
  · rw [hb]
    exact hblank
  · rw [h2, h3]
    exact hi.tids
  · intro k
    rw [h1]
    unfold Counted
    rw [h4, h5]
    exact hi.counted k

theorem Inv.joined (hi : Inv s) (hp : s.client = .joining) (hk : s.m_handle = some k)
    (ho : s.thread k = .ended) : Inv ((s.setHandle none).clientAt .forgetting) := by
  have hb : s.bound = some k := (bound_eq hp).trans hk
  refine ⟨hi.unborn, ?_, fun _ => nofun, ?_, rfl, hi.tids, hi.counted⟩
  · intro j hu _
    by_cases hj : s.bound = some j
    · obtain rfl := Option.some.inj (hb.symm.trans hj)
      exact ho
    · exact hi.rest j hu hj
  · intro _
    have hr := (hi.busy k hb).2
    rw [ho] at hr
    exact hr.2

theorem Inv.create (hi : Inv s) {tid : ℤ} (hp : s.client = .calling) (ht : 0 < tid) :
    Inv ((s.spawn tid).clientAt (.creating s.created)) := by
  have hc := hi.calls
  have hbl := hi.blank
  have hb := bound_eq hp
  rw [hp] at hbl hc
  have hn : s.bound = none := hb.trans hc
  have hself : (s.spawn tid).thread s.created = .entering := Function.update_self ..
  have hother : ∀ j, j ≠ s.created → (s.spawn tid).thread j = s.thread j :=
    fun j hj => Function.update_of_ne hj ..
  refine ⟨?_, ?_, ?_, nofun, hc, ?_, ?_⟩
  · intro j
    show s.created + 1 ≤ j ↔ (s.spawn tid).thread j = .unborn
    by_cases hj : j = s.created
    · rw [hj, hself]
      exact ⟨fun h => by omega, nofun⟩
    · rw [hother j hj, ← hi.unborn j]
      omega
  · intro j hu hj
    have hjk : j ≠ s.created := fun h => hj (congrArg some h.symm)
    have hu : s.thread j ≠ .unborn := hother j hjk ▸ hu
    exact (hother j hjk).trans (hi.rest j hu (by rw [hn]; nofun))
  · intro j hj
    obtain rfl := Option.some.inj hj
    refine ⟨rfl, ?_⟩
    show Row _ s.created ((s.spawn tid).thread s.created)
    rw [hself]
    exact hbl hn
  · intro j hj
    show 0 < Function.update s.tid s.created tid j
    by_cases hjk : j = s.created
    · rw [hjk, Function.update_self]
      exact ht
    · rw [Function.update_of_ne hjk]
      have hj : j < s.created + 1 := hj
      exact hi.tids j (by omega)
  · intro j
    show Counted _ j ((s.spawn tid).thread j)
    by_cases hj : j = s.created
    · have hcn := hi.counted j
      rw [(hi.unborn j).mp (by omega)] at hcn
      rw [hj] at hcn ⊢
      rw [hself]
      exact hcn
    · rw [hother j hj]
      exact hi.counted j

/-- **A step keeps what the object says.** -/
theorem Step.inv (hst : Step s a s') (hi : Inv s) : Inv s' := by
  have hc := hi.calls
  have hbl := hi.blank
  cases hst with
  | stay => exact hi
  | thread h => exact hi.thread_step h
  | doStart hp h0 =>
    have hb := bound_eq hp
    rw [hp] at hbl
    refine hi.client_step (h0.symm.trans hb.symm) ⟨rfl, rfl, rfl, rfl, rfl⟩ (fun _ _ => ⟨rfl, rfl⟩)
      hbl rfl
  | join hp h0 =>
    have hb := bound_eq hp
    exact hi.client_step hb.symm ⟨rfl, rfl, rfl, rfl, rfl⟩ (fun _ _ => ⟨rfl, rfl⟩)
      (fun h => absurd (hb.symm.trans h) h0) h0
  | poll hp h0 =>
    have hb := bound_eq hp
    rw [hp] at hbl
    have hne : s.m_handle ≠ none := by
      intro h
      have hid := (hbl (hb.trans h)).1
      omega
    exact hi.client_step hb.symm ⟨rfl, rfl, rfl, rfl, rfl⟩ (fun _ _ => ⟨rfl, rfl⟩)
      (fun h => absurd (hb.symm.trans h) hne) hne
  | found a hp h0 =>
    rcases hp with hp | hp
    · have hb := bound_eq hp
      rw [hp] at hbl
      exact hi.client_step hb.symm ⟨rfl, rfl, rfl, rfl, rfl⟩ (fun _ _ => ⟨rfl, rfl⟩) hbl h0
    · have hb := bound_eq hp
      rw [hp] at hbl
      exact hi.client_step hb.symm ⟨rfl, rfl, rfl, rfl, rfl⟩ (fun _ _ => ⟨rfl, rfl⟩) hbl h0
  | createFails hp =>
    have hb := bound_eq hp
    rw [hp] at hbl hc
    have hn : s.bound = none := hb.trans hc
    exact hi.client_step hb.symm ⟨rfl, rfl, rfl, rfl, rfl⟩
      (fun k hk => absurd (hn.symm.trans hk) nofun) (fun _ => ⟨rfl, (hbl hn).2⟩) trivial
  | clearing hp =>
    have hb := bound_eq hp
    rw [hp] at hbl hc
    have hn : s.bound = none := hb.trans hc
    exact hi.client_step hb.symm ⟨rfl, rfl, rfl, rfl, rfl⟩
      (fun k hk => absurd (hn.symm.trans hk) nofun) (fun _ => ⟨rfl, (hbl hn).2⟩) hc
  | store hp =>
    exact hi.client_step (bound_eq hp).symm ⟨rfl, rfl, rfl, rfl, rfl⟩ (fun _ _ => ⟨rfl, rfl⟩)
      (fun h => absurd ((bound_eq hp).symm.trans h) nofun) trivial
  | read hp =>
    have hb := bound_eq hp
    rw [hp] at hbl
    exact hi.client_step hb.symm ⟨rfl, rfl, rfl, rfl, rfl⟩ (fun _ _ => ⟨rfl, rfl⟩) hbl trivial
  | forget hp =>
    have hb := bound_eq hp
    rw [hp] at hbl hc
    have hn : s.bound = none := hb.trans hc
    exact hi.client_step hb.symm ⟨rfl, rfl, rfl, rfl, rfl⟩
      (fun k hk => absurd (hn.symm.trans hk) nofun) (fun _ => ⟨rfl, hbl hn⟩) trivial
  | joined hp hk ho => exact hi.joined hp hk ho
  | create hp ht => exact hi.create hp ht

theorem inv_reach (h : (baseThread false).Reach NotDetached s) : Inv s :=
  h.inv inv_start fun _ _ _ hi hn hst => (step_cases hn hst).inv hi

/-- created, and not ended -/
def State.Live (s : State) (k : ℕ) : Prop := s.thread k ≠ .unborn ∧ s.thread k ≠ .ended

theorem Inv.ended (hi : Inv s) (hb : s.bound = none) (hk : k < s.created) :
    s.thread k = .ended ∧ s.entered k = 1 ∧ s.exited k = 1 := by
  have hu : s.thread k ≠ .unborn := fun h => absurd ((hi.unborn k).mpr h) (by omega)
  have ho := hi.rest k hu (by rw [hb]; nofun)
  have hc := hi.counted k
  rw [ho] at hc
  exact ⟨ho, hc⟩

theorem Row.id {pc : ThreadPc} (h : Row s k pc) :
    s.m_id = s.tid k ∨ s.m_id = 0 ∧ pc ∈ [.entering, .mark, .ident] := by
  cases pc with
  | unborn => exact h.elim
  | entering | mark | ident => exact .inr ⟨h.1, by decide⟩
  | cleanup => exact .inl h
  | ready | running | clear | onExit | falling | ended => exact .inl h.1

theorem Row.of_alive {pc : ThreadPc} (h : Row s k pc) (ha : s.m_is_alive = true) :
    pc ≠ .unborn ∧ pc ≠ .ended := by
  constructor
  · rintro rfl
    exact h
  · rintro rfl
    exact absurd (ha.symm.trans h.2) (by decide)

theorem Blank.alive {pc : ClientPc} (h : Blank s pc) : s.m_is_alive = false := by
  unfold Blank at h
  split at h
  · exact h.2
  · exact h
  · exact h.2

theorem Counted.once {pc : ThreadPc} (h : Counted s k pc) :
    s.entered k ≤ 1 ∧ s.exited k ≤ s.entered k := by
  obtain ⟨h1, h2⟩ := h
  rw [h1, h2]
  cases pc with
  | running | clear | cleanup | onExit => exact ⟨Nat.le_refl 1, Nat.zero_le 1⟩
  | falling | ended => exact ⟨Nat.le_refl 1, Nat.le_refl 1⟩
  | unborn | entering | mark | ident | ready => exact ⟨Nat.zero_le 1, Nat.le_refl 0⟩

theorem Inv.alive (hi : Inv s) (ha : s.m_is_alive = true) : ∃ k, s.Live k := by
  cases hb : s.bound with
  | none => exact absurd (ha.symm.trans (hi.blank hb).alive) (by decide)
  | some k => exact ⟨k, (hi.busy k hb).2.of_alive ha⟩

/-- `GetId` returns the id of the thread that the handle names -/
theorem Inv.reading (hi : Inv s) (hp : s.client = .reading) (hk : s.m_handle = some k) :
    s.m_id = s.tid k ∧ 0 < s.tid k := by
  obtain ⟨hcr, hr⟩ := hi.busy k ((bound_eq hp).trans hk)
  have hid := hi.calls
  rw [hp] at hid
  rcases hr.id with h | h
  · exact ⟨h, hi.tids k (by omega)⟩
  · exact absurd h.1 hid

/-- and waits only for a thread that has not written it -/
theorem Inv.polling (hi : Inv s) (hp : s.client = .polling) (h0 : s.m_id = 0) :
    ∃ k, s.m_handle = some k ∧ s.thread k ∈ [.entering, .mark, .ident] := by
  have hne := hi.calls
  rw [hp] at hne
  obtain ⟨k, hk⟩ := Option.ne_none_iff_exists'.mp hne
  obtain ⟨hcr, hr⟩ := hi.busy k ((bound_eq hp).trans hk)
  have ht := hi.tids k (by omega)
  rcases hr.id with h | h
  · omega
  · exact ⟨k, hk, h.2⟩

/-- where the client of a detached thread is, by the handle -/
def Stuck (s : State) : ClientPc → Prop
  | .idle => s.m_handle = none ∧ s.created = 0 ∧ s.m_id = -1 ∨ s.m_handle ≠ none ∧ s.m_id = 0
  | .clearing => s.m_handle = none ∧ s.created = 0
  | .calling => s.m_handle = none ∧ s.created = 0 ∧ s.m_id = 0
  | .creating _ => s.m_handle = none ∧ s.m_id = 0
  | .reading => s.m_handle = none ∧ s.created = 0 ∧ s.m_id = -1
  | .polling => s.m_handle ≠ none ∧ s.m_id = 0
  | .joining | .forgetting => False

structure Mute (s : State) : Prop where
  alive : s.m_is_alive = false
  one : s.created ≤ 1
  client : Stuck s s.client
  /-- no thread writes `m_is_alive = true` or `m_id` -/
  quiet : ∀ k, s.thread k ≠ .mark ∧ s.thread k ≠ .ident

theorem Mute.threadAt {pc : ThreadPc} (hm : Mute s) (hp : pc ≠ .mark ∧ pc ≠ .ident) :
    Mute (s.threadAt k pc) where
  alive := hm.alive
  one := hm.one
  client := hm.client
  quiet j := by
    show Function.update s.thread k pc j ≠ _ ∧ Function.update s.thread k pc j ≠ _
    by_cases hj : j = k
    · rw [hj, Function.update_self]
      exact hp
    · rw [Function.update_of_ne hj]
      exact hm.quiet j

theorem Mute.setAlive (hm : Mute s) : Mute (s.setAlive false) :=
  ⟨rfl, hm.one, hm.client, hm.quiet⟩

theorem Mute.stepThread (hm : Mute s) (h : stepThread true s k exits = some s') : Mute s' := by
  unfold BaseThread.stepThread at h
  split at h
  · cases h
  · cases h
  · cases h
  · obtain rfl := Option.some.inj h
    exact hm.threadAt ⟨nofun, nofun⟩
  · next hp => exact absurd hp (hm.quiet k).1
  · next hp => exact absurd hp (hm.quiet k).2
  · obtain rfl := Option.some.inj h
    have he : Mute (s.enter k) := ⟨hm.alive, hm.one, hm.client, hm.quiet⟩
    exact he.threadAt ⟨nofun, nofun⟩
  · obtain rfl := Option.some.inj h
    refine hm.threadAt ?_
    split
    · exact ⟨nofun, nofun⟩
    · exact ⟨nofun, nofun⟩
  · obtain rfl := Option.some.inj h
    exact hm.setAlive.threadAt ⟨nofun, nofun⟩
  · obtain rfl := Option.some.inj h
    exact hm.setAlive.threadAt ⟨nofun, nofun⟩
  · obtain rfl := Option.some.inj h
    have he : Mute (s.exit k) := ⟨hm.alive, hm.one, hm.client, hm.quiet⟩
    refine he.threadAt ?_
    split
    · exact ⟨nofun, nofun⟩
    · exact ⟨nofun, nofun⟩

theorem Mute.stepClient (hm : Mute s) (h : stepClient s = some s') : Mute s' := by
  have hc := hm.client
  unfold BaseThread.stepClient at h
  split at h
  · cases h
  · cases h
  · next hp =>
    obtain rfl := Option.some.inj h
    rw [hp] at hc
    exact ⟨hm.alive, hm.one, ⟨hc.1, hc.2, rfl⟩, hm.quiet⟩
  · next hp =>
    obtain rfl := Option.some.inj h
    rw [hp] at hc
    exact ⟨hm.alive, hm.one, .inr ⟨nofun, hc.2⟩, hm.quiet⟩
  · next hp =>
    obtain rfl := Option.some.inj h
    rw [hp] at hc
    rw [if_pos hc.2]
    exact hm
  · next hp =>
    obtain rfl := Option.some.inj h
    rw [hp] at hc
    exact ⟨hm.alive, hm.one, .inl hc, hm.quiet⟩
  · next hp =>
    rw [hp] at hc
    exact hc.elim
  · next hp =>
    rw [hp] at hc
    exact hc.elim

theorem Mute.call (hm : Mute s) (hp : s.client = .idle) (h : call true s a = some s') :
    Mute s' := by
  have hc := hm.client
  rw [hp] at hc
  cases a with
  | DoStart =>
    obtain rfl := Option.some.inj h
    rcases hc with ⟨h0, hcr, hid⟩ | ⟨hne, hid⟩
    · rw [if_neg (by rw [State.IsJoinable, h0]; nofun)]
      exact ⟨hm.alive, hm.one, ⟨rfl, hcr⟩, hm.quiet⟩
    · have hj : s.IsJoinable = true := Option.isSome_iff_ne_none.mpr hne
      rw [if_pos hj]
      exact hm
  | Join =>
    obtain ⟨-, h⟩ := Option.ite_none_right_eq_some.mp h
    obtain rfl := Option.some.inj h
    exact hm
  | GetId =>
    obtain rfl := Option.some.inj h
    rcases hc with ⟨h0, hcr, hid⟩ | ⟨hne, hid⟩
    · rw [if_neg (by rw [hid]; decide)]
      exact ⟨hm.alive, hm.one, ⟨h0, hcr, hid⟩, hm.quiet⟩
    · rw [if_pos hid]
      exact ⟨hm.alive, hm.one, ⟨hne, hid⟩, hm.quiet⟩
  | DoDetach =>
    obtain rfl := Option.some.inj h
    rw [if_neg (by simp)]
    exact hm
  | create | client | thread => cases h

theorem Mute.create {tid : Option ℤ} (hm : Mute s) (h : pthread_create s tid = some s') :
    Mute s' := by
  have hc := hm.client
  cases tid with
  | none =>
    obtain ⟨hp, h⟩ := Option.ite_none_right_eq_some.mp h
    obtain rfl := Option.some.inj h
    rw [hp] at hc
    exact ⟨hm.alive, hm.one, .inl ⟨hc.1, hc.2.1, rfl⟩, hm.quiet⟩
  | some tid =>
    obtain ⟨⟨hp, -⟩, h⟩ := Option.ite_none_right_eq_some.mp h
    obtain rfl := Option.some.inj h
    rw [hp] at hc
    have ht : Mute (s.threadAt s.created .entering) := hm.threadAt ⟨nofun, nofun⟩
    refine ⟨hm.alive, ?_, ⟨hc.1, hc.2.2⟩, ht.quiet⟩
    show s.created + 1 ≤ 1
    exact Nat.succ_le_succ (Nat.le_of_eq hc.2.1)

theorem Mute.step (hm : Mute s) (h : step true s a = some s') : Mute s' := by
  cases a with
  | create tid => exact hm.create h
  | client => exact hm.stepClient h
  | thread k exits => exact hm.stepThread h
  | DoStart | Join | GetId | DoDetach =>
    obtain ⟨hp, h⟩ := Option.ite_none_right_eq_some.mp h
    exact hm.call hp h

end BaseThread
end CppCores
