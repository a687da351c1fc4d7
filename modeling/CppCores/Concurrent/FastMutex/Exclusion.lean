import CppCores.Concurrent.FastMutex.Model

/-!
# FastPthreadMutex: mutual exclusion

As long as no wait is interrupted, a thread holds the lock exactly if the word is not 0, and no two
do (`Exclusive`, `exclusive_reach`).  `lock` drops the error code of `lock_contended`, so a waiter
that is interrupted returns from `lock` as if it had the lock: `not_exclusive` has two threads
that hold it.
-/

set_option linter.unusedSectionVars false

namespace CppCores
namespace FastMutex
variable {Tid : Type*} [DecidableEq Tid] {s s' : State Tid}

/-- the step is not a `futex_wait_private` that fails with `EINTR` -/
def NotInterrupted (_ : State Tid) : Act Tid → Prop
  | .interrupted _ => False
  | _ => True

instance (s : State Tid) (a : Act Tid) : Decidable (NotInterrupted s a) :=
  match a with
  | .interrupted _ => .isFalse id
  | .lock _ | .try_lock _ | .unlock _ | .exchange _ | .wait _ | .wake _ _ | .spurious _ =>
    .isTrue trivial

/-- no two threads hold the lock -/
def Exclusive (s : State Tid) : Prop :=
  ∀ t u, s.thread t = .holding → s.thread u = .holding → t = u

structure Owned (s : State Tid) : Prop where
  free : s.futex = 0 → ∀ t, s.thread t ≠ .holding
  held : s.futex ≠ 0 → ∃ t, s.thread t = .holding
  exclusive : Exclusive s

theorem locked_ne : BTHREAD_MUTEX_LOCKED ≠ 0 := by decide

theorem contended_ne : BTHREAD_MUTEX_CONTENDED ≠ 0 := by decide

/-- a step that makes nobody a holder and takes the lock from nobody -/
theorem Owned.same (h : Owned s) (hw : s'.futex = 0 ↔ s.futex = 0)
    (ht : ∀ t, s'.thread t = .holding ↔ s.thread t = .holding) : Owned s' := by
  refine ⟨fun h0 t hh => h.free (hw.mp h0) t ((ht t).mp hh), fun h0 => ?_, fun t u h1 h2 => ?_⟩
  · obtain ⟨t, hh⟩ := h.held fun e => h0 (hw.mpr e)
    exact ⟨t, (ht t).mpr hh⟩
  · exact h.exclusive t u ((ht t).mp h1) ((ht u).mp h2)

theorem holding_goto {t : Tid} {pc : Pc} (ht : s.thread t ≠ .holding) (hpc : pc ≠ .holding)
    (u : Tid) : (s.goto t pc).thread u = .holding ↔ s.thread u = .holding := by
  by_cases e : u = t
  · subst e
    rw [goto_self]
    exact iff_of_false hpc ht
  · rw [goto_of_ne s pc e]

theorem holding_awake {t : Tid} {pc : Pc} (ht : s.thread t ≠ .holding) (hpc : pc ≠ .holding)
    (u : Tid) : (s.awake t pc).thread u = .holding ↔ s.thread u = .holding := holding_goto ht hpc u

theorem Owned.acquire (h : Owned s) (h0 : s.futex = 0) {w : UInt32} (hw : w ≠ 0) (t : Tid) :
    Owned ((s.store w).goto t .holding) := by
  have hall : ∀ u, ((s.store w).goto t .holding).thread u = .holding → u = t := by
    intro u hu
    by_contra e
    rw [goto_of_ne _ _ e] at hu
    exact h.free h0 u hu
  refine ⟨fun e => absurd e hw, fun _ => ⟨t, goto_self ..⟩, fun u v hu hv => ?_⟩
  rw [hall u hu, hall v hv]

theorem Owned.release (h : Owned s) {t : Tid} (ht : s.thread t = .holding) {pc : Pc}
    (hpc : pc ≠ .holding) : Owned ((s.store 0).goto t pc) := by
  have hnone : ∀ u, ((s.store 0).goto t pc).thread u ≠ .holding := by
    intro u hu
    by_cases e : u = t
    · subst e
      rw [goto_self] at hu
      exact hpc hu
    · rw [goto_of_ne _ _ e] at hu
      exact e (h.exclusive u t hu ht)
  exact ⟨fun _ => hnone, fun e => absurd rfl e, fun u _ hu => absurd hu (hnone u)⟩

theorem owned_moves (hs : Words s) (h : Owned s) (hm : Moves s s') : Owned s' := by
  cases hm with
  | acquire ht h0 => exact h.acquire h0 locked_ne _
  | contend ht _ => exact h.same Iff.rfl (holding_goto (ht ▸ nofun) nofun)
  | refuse ht _ => exact h.same Iff.rfl (holding_goto (ht ▸ nofun) nofun)
  | unlock ht _ => exact h.release ht nofun
  | unlockWake ht _ => exact h.release ht nofun
  | take ht h0 => exact h.acquire h0 contended_ne _
  | @announce t ht h0 =>
    have h1 : Owned (s.store BTHREAD_MUTEX_CONTENDED) :=
      h.same (iff_of_false contended_ne h0) fun _ => Iff.rfl
    exact h1.same Iff.rfl (holding_goto (show s.thread t ≠ _ from ht ▸ nofun) nofun)
  | sleep ht _ => exact h.same Iff.rfl (holding_goto (ht ▸ nofun) nofun)
  | retry ht => exact h.same Iff.rfl (holding_goto (ht ▸ nofun) nofun)
  | @wake t u ht hu =>
    have hu' := (hs.sleepers u).mp hu
    have hne : t ≠ u := by
      intro heq
      subst heq
      exact absurd hu' (ht ▸ nofun)
    have h1 : Owned (s.awake u .exchange) := h.same Iff.rfl (holding_awake (hu' ▸ nofun) nofun)
    refine h1.same Iff.rfl (holding_goto ?_ nofun)
    rw [awake_of_ne s _ hne, ht]
    exact nofun
  | noSleeper ht _ => exact h.same Iff.rfl (holding_goto (ht ▸ nofun) nofun)
  | spurious ht => exact h.same Iff.rfl (holding_awake (ht ▸ nofun) nofun)

theorem Owned.reach (h : (mutex : Machine (State Tid) _).Reach NotInterrupted s) : Owned s := by
  refine h.inv_with (fun _ hr => Words.reach hr.reachable) ?_ fun s a s' hs ih ha hst => ?_
  · exact ⟨fun _ _ => nofun, fun e => absurd rfl e, fun _ _ => nofun⟩
  · rcases step_moves hs.word hst with hm | ⟨t, rfl, -, -⟩
    · exact owned_moves hs ih hm
    · exact absurd ha id

/-- **Mutual exclusion**, as long as no wait is interrupted. -/
theorem exclusive_reach (h : (mutex : Machine (State Tid) _).Reach NotInterrupted s) :
    Exclusive s := (Owned.reach h).exclusive

/-- one thread holds the lock, one sleeps, one is refused by `try_lock` -/
theorem exclusive_three : ∃ s : State (Fin 3), Exclusive s ∧
    s.thread 0 = .holding ∧ s.thread 1 = .asleep ∧ s.thread 2 = .idle := by
  let as : List (Act (Fin 3)) :=
    [.lock 0, .lock 1, .exchange 1, .try_lock 2, .wait 1, .spurious 1, .exchange 1, .wait 1]
  have h : (mutex.execIf NotInterrupted start as).map
      (fun s => (s.thread 0, s.thread 1, s.thread 2)) = some (.holding, .asleep, .idle) := by decide
  obtain ⟨s, hs, e⟩ := Option.map_eq_some_iff.mp h
  obtain ⟨e0, e1, e2⟩ := by simpa only [Prod.mk.injEq] using e
  exact ⟨s, exclusive_reach (.of_execIf as .init hs), e0, e1, e2⟩

/-- two threads hold the lock after a wait was interrupted -/
theorem not_exclusive : ¬ ∀ s : State (Fin 2), mutex.Reachable s → Exclusive s := by
  intro hall
  let as : List (Act (Fin 2)) := [.lock 0, .lock 1, .exchange 1, .wait 1, .interrupted 1]
  have h : (mutex.exec start as).map (fun s => (s.thread 0, s.thread 1)) =
      some (.holding, .holding) := by decide
  obtain ⟨s, hs, e⟩ := Option.map_eq_some_iff.mp h
  obtain ⟨e0, e1⟩ := Prod.mk.inj e
  exact absurd (hall s (.of_exec as .init hs) 0 1 e0 e1) (by decide)

end FastMutex
end CppCores
