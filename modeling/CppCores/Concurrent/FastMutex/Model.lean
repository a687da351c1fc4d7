import Mathlib.Logic.Function.Basic
import Mathlib.Tactic.Common
import CppCores.Lib.Machine

/-!
# FastPthreadMutex: the futex lock of `concurrent/mutex.cc`

The word `_futex` is exchanged as a whole or in its low byte; each exchange and each entry to and
exit from the system calls of `sys_futex.h` is one step.  The kernel keeps the threads that sleep
on the word: `futex_wait_private` compares the word with the expected value and puts the thread to
sleep in one step, `futex_wake_private(word, 1)` wakes one of them if there is one.  A sleeper can
also return without being woken, with 0 or with `EINTR`.

A thread holds the lock from the step at which its `lock()` returns, or its `try_lock()` returns
true, to the exchange of its next `unlock()`; only a thread that holds it unlocks.

* `Words.reach`   in every state reached the word is 0, 1 or 257, and the kernel's sleepers are the
                  threads that are asleep.
-/

set_option linter.unusedSectionVars false

namespace CppCores
namespace FastMutex

/-- the word `_futex`, byte by byte -/
structure MutexInternal where
  locked : UInt8
  contended : UInt8
  padding : UInt16
  deriving DecidableEq, Repr

/-- the four bytes as one `unsigned`, low byte first -/
def MutexInternal.whole (m : MutexInternal) : UInt32 :=
  m.locked.toUInt32 ||| m.contended.toUInt32 <<< 8 ||| m.padding.toUInt32 <<< 16

def split (w : UInt32) : MutexInternal := ⟨w.toUInt8, (w >>> 8).toUInt8, (w >>> 16).toUInt16⟩

def MUTEX_CONTENDED_RAW : MutexInternal := ⟨1, 1, 0⟩
def MUTEX_LOCKED_RAW : MutexInternal := ⟨1, 0, 0⟩
def BTHREAD_MUTEX_CONTENDED : UInt32 := MUTEX_CONTENDED_RAW.whole
def BTHREAD_MUTEX_LOCKED : UInt32 := MUTEX_LOCKED_RAW.whole

example : BTHREAD_MUTEX_CONTENDED = 257 ∧ BTHREAD_MUTEX_LOCKED = 1 := by decide

def EINTR : ℕ := 4
def EWOULDBLOCK : ℕ := 11

/-- `split->locked.exchange(b)`: the byte that was there, and the new word -/
def exchangeLocked (w : UInt32) (b : UInt8) : UInt8 × UInt32 :=
  ((split w).locked, { split w with locked := b }.whole)

/-- the place of a thread -/
inductive Pc where
  /-- outside the lock -/
  | idle
  /-- at the exchange at the head of the loop of `lock_contended` -/
  | exchange
  /-- in the loop, about to call `futex_wait_private` -/
  | wait
  /-- asleep in `futex_wait_private` -/
  | asleep
  /-- after a `lock()` that returned or a `try_lock()` that returned true -/
  | holding
  /-- in `unlock()`, about to call `futex_wake_private` -/
  | wake
  deriving DecidableEq, Repr

/-- awake inside the loop of `lock_contended` -/
def Pc.Contending : Pc → Prop
  | .exchange | .wait => True
  | _ => False

structure State (Tid : Type*) where
  futex : UInt32
  thread : Tid → Pc
  /-- kept by the kernel -/
  sleepers : List Tid

/-- which thread moves; `wake tid i` is the `futex_wake_private` of `tid`, for which the kernel picks
the `i`-th sleeper -/
inductive Act (Tid : Type*) where
  | lock (tid : Tid)
  | try_lock (tid : Tid)
  | unlock (tid : Tid)
  | exchange (tid : Tid)
  | wait (tid : Tid)
  | wake (tid : Tid) (i : ℕ)
  | spurious (tid : Tid)
  | interrupted (tid : Tid)

variable {Tid : Type*} [DecidableEq Tid]

namespace State

def store (s : State Tid) (w : UInt32) : State Tid := { s with futex := w }

def goto (s : State Tid) (tid : Tid) (pc : Pc) : State Tid :=
  { s with thread := Function.update s.thread tid pc }

/-- the kernel puts `tid` to sleep -/
def sleep (s : State Tid) (tid : Tid) : State Tid :=
  { s with thread := Function.update s.thread tid .asleep, sleepers := s.sleepers ++ [tid] }

/-- the kernel lets `tid` return, to `pc` -/
def awake (s : State Tid) (tid : Tid) (pc : Pc) : State Tid :=
  { s with
    thread := Function.update s.thread tid pc
    sleepers := s.sleepers.filter (· ≠ tid) }

end State

/-- the body of the loop of `lock_contended` after `futex_wait_private` returned `ret` with `errno`:
an error other than `EWOULDBLOCK` ends `lock_contended`, and `lock` returns whatever it was -/
def afterWait (ret : Int) (errno : ℕ) : Pc :=
  if ret < 0 ∧ errno ≠ EWOULDBLOCK then .holding else .exchange

def step (s : State Tid) : Act Tid → Option (State Tid)
  | .lock tid =>
    if s.thread tid = .idle then
      let x := exchangeLocked s.futex 1
      some ((s.store x.2).goto tid (if x.1 ≠ 0 then .exchange else .holding))
    else none
  | .try_lock tid =>
    if s.thread tid = .idle then
      let x := exchangeLocked s.futex 1
      some ((s.store x.2).goto tid (if x.1 ≠ 0 then .idle else .holding))
    else none
  | .unlock tid =>
    if s.thread tid = .holding then
      let prev := s.futex
      some ((s.store 0).goto tid (if prev ≠ BTHREAD_MUTEX_LOCKED then .wake else .idle))
    else none
  | .exchange tid =>
    if s.thread tid = .exchange then
      let prev := s.futex
      some ((s.store BTHREAD_MUTEX_CONTENDED).goto tid
        (if prev &&& BTHREAD_MUTEX_LOCKED ≠ 0 then .wait else .holding))
    else none
  | .wait tid =>
    if s.thread tid = .wait then
      if s.futex = BTHREAD_MUTEX_CONTENDED then some (s.sleep tid)
      else some (s.goto tid (afterWait (-1) EWOULDBLOCK))
    else none
  | .wake tid i =>
    if s.thread tid = .wake then
      match s.sleepers[i]? with
      | some u => some ((s.awake u (afterWait 0 0)).goto tid .idle)
      | none => if s.sleepers = [] then some (s.goto tid .idle) else none
    else none
  | .spurious tid =>
    if s.thread tid = .asleep then some (s.awake tid (afterWait 0 0)) else none
  | .interrupted tid =>
    if s.thread tid = .asleep then some (s.awake tid (afterWait (-1) EINTR)) else none

def start : State Tid where
  futex := 0
  thread := fun _ => .idle
  sleepers := []

/-- any number of threads on one new `FastPthreadMutex` -/
def mutex : Machine (State Tid) (Act Tid) := ⟨start, step⟩

/-! ## the three words -/

/-- free, locked, or locked with waiters announced -/
def Word (w : UInt32) : Prop := w = 0 ∨ w = BTHREAD_MUTEX_LOCKED ∨ w = BTHREAD_MUTEX_CONTENDED

/-- the byte-wide exchange locks a free word and leaves the others as they are -/
theorem exchangeLocked_word {w : UInt32} (h : Word w) :
    w = 0 ∧ exchangeLocked w 1 = (0, BTHREAD_MUTEX_LOCKED) ∨
      w ≠ 0 ∧ exchangeLocked w 1 = (1, w) := by
  rcases h with rfl | rfl | rfl
  · left; decide
  · right; decide
  · right; decide

theorem and_locked {w : UInt32} (h : Word w) : w &&& BTHREAD_MUTEX_LOCKED = 0 ↔ w = 0 := by
  rcases h with rfl | rfl | rfl <;> decide

theorem contended_iff {w : UInt32} (h : Word w) :
    (split w).contended ≠ 0 ↔ w = BTHREAD_MUTEX_CONTENDED := by
  rcases h with rfl | rfl | rfl <;> decide

theorem locked_iff {w : UInt32} (h : Word w) : (split w).locked = 0 ↔ w = 0 := by
  rcases h with rfl | rfl | rfl <;> decide

/-! ## what a step can do -/

section
variable {s s' : State Tid}

@[simp] theorem goto_self (s : State Tid) (t : Tid) (pc : Pc) : (s.goto t pc).thread t = pc :=
  Function.update_self ..

theorem goto_of_ne (s : State Tid) {t u : Tid} (pc : Pc) (h : u ≠ t) :
    (s.goto t pc).thread u = s.thread u := Function.update_of_ne h ..

@[simp] theorem awake_self (s : State Tid) (t : Tid) (pc : Pc) : (s.awake t pc).thread t = pc :=
  Function.update_self ..

theorem awake_of_ne (s : State Tid) {t u : Tid} (pc : Pc) (h : u ≠ t) :
    (s.awake t pc).thread u = s.thread u := Function.update_of_ne h ..

@[simp] theorem sleep_self (s : State Tid) (t : Tid) : (s.sleep t).thread t = .asleep :=
  Function.update_self ..

theorem sleep_of_ne (s : State Tid) {t u : Tid} (h : u ≠ t) :
    (s.sleep t).thread u = s.thread u := Function.update_of_ne h ..

/-- the ways in which a step changes the word and moves threads, but for the interrupted wait -/
inductive Moves (s : State Tid) : State Tid → Prop where
  | acquire {t} : s.thread t = .idle → s.futex = 0 →
      Moves s ((s.store BTHREAD_MUTEX_LOCKED).goto t .holding)
  | contend {t} : s.thread t = .idle → s.futex ≠ 0 → Moves s (s.goto t .exchange)
  | refuse {t} : s.thread t = .idle → s.futex ≠ 0 → Moves s (s.goto t .idle)
  | unlock {t} : s.thread t = .holding → s.futex = BTHREAD_MUTEX_LOCKED →
      Moves s ((s.store 0).goto t .idle)
  | unlockWake {t} : s.thread t = .holding → s.futex ≠ BTHREAD_MUTEX_LOCKED →
      Moves s ((s.store 0).goto t .wake)
  | take {t} : s.thread t = .exchange → s.futex = 0 →
      Moves s ((s.store BTHREAD_MUTEX_CONTENDED).goto t .holding)
  | announce {t} : s.thread t = .exchange → s.futex ≠ 0 →
      Moves s ((s.store BTHREAD_MUTEX_CONTENDED).goto t .wait)
  | sleep {t} : s.thread t = .wait → s.futex = BTHREAD_MUTEX_CONTENDED → Moves s (s.sleep t)
  | retry {t} : s.thread t = .wait → Moves s (s.goto t .exchange)
  | wake {t u} : s.thread t = .wake → u ∈ s.sleepers → Moves s ((s.awake u .exchange).goto t .idle)
  | noSleeper {t} : s.thread t = .wake → s.sleepers = [] → Moves s (s.goto t .idle)
  | spurious {t} : s.thread t = .asleep → Moves s (s.awake t .exchange)

/-- **What a step can do.** -/
theorem step_moves (hw : Word s.futex) {a : Act Tid} (hst : step s a = some s') :
    Moves s s' ∨ ∃ t, a = .interrupted t ∧ s.thread t = .asleep ∧ s' = s.awake t .holding := by
  cases a with
  | lock t =>
    left
    simp only [step] at hst
    obtain ⟨ht, hst⟩ := Option.ite_none_right_eq_some.mp hst
    obtain rfl := Option.some.inj hst
    rcases exchangeLocked_word hw with ⟨h0, hx⟩ | ⟨h0, hx⟩
    · rw [hx]; exact .acquire ht h0
    · rw [hx]; exact .contend ht h0
  | try_lock t =>
    left
    simp only [step] at hst
    obtain ⟨ht, hst⟩ := Option.ite_none_right_eq_some.mp hst
    obtain rfl := Option.some.inj hst
    rcases exchangeLocked_word hw with ⟨h0, hx⟩ | ⟨h0, hx⟩
    · rw [hx]; exact .acquire ht h0
    · rw [hx]; exact .refuse ht h0
  | unlock t =>
    left
    simp only [step] at hst
    obtain ⟨ht, hst⟩ := Option.ite_none_right_eq_some.mp hst
    obtain rfl := Option.some.inj hst
    by_cases h : s.futex ≠ BTHREAD_MUTEX_LOCKED
    · rw [if_pos h]; exact .unlockWake ht h
    · rw [if_neg h]; exact .unlock ht (not_not.mp h)
  | exchange t =>
    left
    simp only [step] at hst
    obtain ⟨ht, hst⟩ := Option.ite_none_right_eq_some.mp hst
    obtain rfl := Option.some.inj hst
    by_cases h : s.futex &&& BTHREAD_MUTEX_LOCKED ≠ 0
    · rw [if_pos h]; exact .announce ht fun e => h ((and_locked hw).mpr e)
    · rw [if_neg h]; exact .take ht ((and_locked hw).mp (not_not.mp h))
  | wait t =>
    left
    simp only [step] at hst
    obtain ⟨ht, hst⟩ := Option.ite_none_right_eq_some.mp hst
    by_cases h : s.futex = BTHREAD_MUTEX_CONTENDED
    · rw [if_pos h] at hst
      obtain rfl := Option.some.inj hst
      exact .sleep ht h
    · rw [if_neg h] at hst
      obtain rfl := Option.some.inj hst
      exact .retry ht
  | wake t i =>
    left
    simp only [step] at hst
    obtain ⟨ht, hst⟩ := Option.ite_none_right_eq_some.mp hst
    cases hi : s.sleepers[i]? with
    | some u =>
      rw [hi] at hst
      obtain rfl := Option.some.inj hst
      exact .wake ht (List.mem_of_getElem? hi)
    | none =>
      rw [hi] at hst
      obtain ⟨he, hst⟩ := Option.ite_none_right_eq_some.mp hst
      obtain rfl := Option.some.inj hst
      exact .noSleeper ht he
  | spurious t =>
    left
    simp only [step] at hst
    obtain ⟨ht, hst⟩ := Option.ite_none_right_eq_some.mp hst
    obtain rfl := Option.some.inj hst
    exact .spurious ht
  | interrupted t =>
    right
    simp only [step] at hst
    obtain ⟨ht, hst⟩ := Option.ite_none_right_eq_some.mp hst
    obtain rfl := Option.some.inj hst
    exact ⟨t, rfl, ht, rfl⟩

/-! ## the word and the kernel's list -/

structure Words (s : State Tid) : Prop where
  word : Word s.futex
  sleepers : ∀ t, t ∈ s.sleepers ↔ s.thread t = .asleep

theorem Words.store (h : Words s) {w : UInt32} (hw : Word w) : Words (s.store w) :=
  ⟨hw, h.sleepers⟩

theorem Words.goto (h : Words s) {t : Tid} {pc : Pc} (ht : s.thread t ≠ .asleep)
    (hpc : pc ≠ .asleep) : Words (s.goto t pc) := by
  refine ⟨h.word, fun u => ?_⟩
  show u ∈ s.sleepers ↔ _
  by_cases e : u = t
  · subst e
    rw [goto_self, h.sleepers]
    exact iff_of_false ht hpc
  · rw [goto_of_ne s pc e, h.sleepers]

theorem Words.awake (h : Words s) {t : Tid} {pc : Pc} (hpc : pc ≠ .asleep) :
    Words (s.awake t pc) := by
  refine ⟨h.word, fun u => ?_⟩
  show u ∈ s.sleepers.filter (· ≠ t) ↔ _
  rw [List.mem_filter, decide_eq_true_eq, h.sleepers]
  by_cases e : u = t
  · subst e
    rw [awake_self]
    exact iff_of_false (fun h => h.2 rfl) hpc
  · rw [awake_of_ne s pc e]
    exact and_iff_left e

theorem Words.sleep (h : Words s) (t : Tid) : Words (s.sleep t) := by
  refine ⟨h.word, fun u => ?_⟩
  show u ∈ s.sleepers ++ [t] ↔ _
  rw [List.mem_append, List.mem_singleton, h.sleepers]
  by_cases e : u = t
  · subst e
    rw [sleep_self]
    exact iff_of_true (.inr rfl) rfl
  · rw [sleep_of_ne s e]
    exact or_iff_left e

theorem words_moves (h : Words s) (hm : Moves s s') : Words s' := by
  cases hm with
  | acquire ht _ => exact (h.store (.inr (.inl rfl))).goto (ht ▸ nofun) nofun
  | contend ht _ => exact h.goto (ht ▸ nofun) nofun
  | refuse ht _ => exact h.goto (ht ▸ nofun) nofun
  | unlock ht _ => exact (h.store (.inl rfl)).goto (ht ▸ nofun) nofun
  | unlockWake ht _ => exact (h.store (.inl rfl)).goto (ht ▸ nofun) nofun
  | take ht _ => exact (h.store (.inr (.inr rfl))).goto (ht ▸ nofun) nofun
  | announce ht _ => exact (h.store (.inr (.inr rfl))).goto (ht ▸ nofun) nofun
  | sleep _ _ => exact h.sleep _
  | retry ht => exact h.goto (ht ▸ nofun) nofun
  | @wake t u ht hu =>
    have h1 : Words (s.awake u .exchange) := h.awake nofun
    refine h1.goto ?_ nofun
    have hne : t ≠ u := by
      intro heq
      subst heq
      exact absurd ((h.sleepers t).mp hu) (ht ▸ nofun)
    rw [awake_of_ne s _ hne, ht]
    exact nofun
  | noSleeper ht _ => exact h.goto (ht ▸ nofun) nofun
  | spurious _ => exact h.awake nofun

theorem Words.reach (h : (mutex : Machine (State Tid) _).Reachable s) : Words s := by
  apply h.inv ⟨.inl rfl, fun t => iff_of_false List.not_mem_nil nofun⟩
  intro s a s' ih _ hst
  rcases step_moves ih.word hst with hm | ⟨t, -, -, rfl⟩
  · exact words_moves ih hm
  · exact ih.awake nofun

end
end FastMutex
end CppCores
