import CppCores.Concurrent.FastMutex.Model

/-!
# FastPthreadMutex: no wake-up is lost

A barging `lock` leaves a word of 1 behind although others sleep.  Then somebody still has to
announce them: an `unlock` that has not yet called `futex_wake_private`, or a thread awake in the
loop of `lock_contended`, which writes 257 at its next exchange.

* `Answering`         what there is to wake the sleepers;
* `answering_reach`   wherever a thread sleeps, there is some; also where the mutex is free;
* `unlock_wakes`, `wake_awakes`   an `unlock` of a word with the contended byte set brings a sleeper
                      back into the loop.
-/

set_option linter.unusedSectionVars false

namespace CppCores
namespace FastMutex
variable {Tid : Type*} [DecidableEq Tid] {s s' : State Tid}

/-- some `unlock` has swapped the word and has its `futex_wake_private` to do, or some thread is
awake in the loop of `lock_contended` -/
def Answering (s : State Tid) : Prop :=
  (∃ t, s.thread t = .wake) ∨ ∃ t, (s.thread t).Contending

/-- the sleepers are announced in the word, or somebody is about to -/
def Announced (s : State Tid) : Prop :=
  (∃ t, s.thread t = .asleep) → s.futex = BTHREAD_MUTEX_CONTENDED ∨ Answering s

theorem Announced.of_contending {t : Tid} (ht : (s.thread t).Contending) : Announced s :=
  fun _ => .inr (.inr ⟨t, ht⟩)

theorem Announced.of_wake {t : Tid} (ht : s.thread t = .wake) : Announced s :=
  fun _ => .inr (.inl ⟨t, ht⟩)

theorem Answering.goto (h : Answering s) {t : Tid} {pc : Pc} (h1 : s.thread t ≠ .wake)
    (h2 : ¬ (s.thread t).Contending) : Answering (s.goto t pc) := by
  rcases h with ⟨u, hu⟩ | ⟨u, hu⟩
  · have hne : u ≠ t := by
      intro heq
      subst heq
      exact h1 hu
    exact .inl ⟨u, by rw [goto_of_ne s pc hne]; exact hu⟩
  · have hne : u ≠ t := by
      intro heq
      subst heq
      exact h2 hu
    exact .inr ⟨u, by rw [goto_of_ne s pc hne]; exact hu⟩

theorem Announced.goto (h : Announced s) {t : Tid} {pc : Pc} (h1 : s.thread t ≠ .wake)
    (h2 : ¬ (s.thread t).Contending) (hpc : pc ≠ .asleep) : Announced (s.goto t pc) := by
  intro hex
  obtain ⟨u, hu⟩ := hex
  have hne : u ≠ t := by
    intro heq
    subst heq
    rw [goto_self] at hu
    exact hpc hu
  rw [goto_of_ne s pc hne] at hu
  exact (h ⟨u, hu⟩).imp id fun ha => ha.goto h1 h2

/-- the word was not 257, so another word is as good -/
theorem Announced.store (h : Announced s) (hne : s.futex ≠ BTHREAD_MUTEX_CONTENDED) (w : UInt32) :
    Announced (s.store w) := fun hu => .inr ((h hu).resolve_left hne)

theorem announced_moves (hs : Words s) (h : Announced s) (hm : Moves s s') : Announced s' := by
  cases hm with
  | @acquire t ht h0 =>
    have hne : s.futex ≠ BTHREAD_MUTEX_CONTENDED := by rw [h0]; decide
    have h1 := h.store hne BTHREAD_MUTEX_LOCKED
    exact h1.goto (show s.thread t ≠ _ from ht ▸ nofun) (show ¬ (s.thread t).Contending from
      ht ▸ id) nofun
  | contend _ _ => exact .of_contending (by rw [goto_self]; trivial)
  | refuse ht _ => exact h.goto (ht ▸ nofun) (ht ▸ id) nofun
  | @unlock t ht h1 =>
    have hne : s.futex ≠ BTHREAD_MUTEX_CONTENDED := by rw [h1]; decide
    exact (h.store hne 0).goto (show s.thread t ≠ _ from ht ▸ nofun)
      (show ¬ (s.thread t).Contending from ht ▸ id) nofun
  | unlockWake _ _ => exact .of_wake (goto_self ..)
  | take _ _ => exact fun _ => .inl rfl
  | announce _ _ => exact fun _ => .inl rfl
  | sleep _ h1 => exact fun _ => .inl h1
  | retry _ => exact .of_contending (by rw [goto_self]; trivial)
  | @wake t u ht hu =>
    have hu' := (hs.sleepers u).mp hu
    have hne : u ≠ t := by
      intro heq
      subst heq
      exact absurd hu' (ht ▸ nofun)
    -- the thread that is woken is now awake in the loop
    refine @Announced.of_contending _ _ _ u ?_
    rw [goto_of_ne _ _ hne, awake_self]
    trivial
  | @noSleeper t ht hnil =>
    intro hex
    obtain ⟨u, hu⟩ := hex
    have hne : u ≠ t := by
      intro heq
      subst heq
      rw [goto_self] at hu
      exact absurd hu nofun
    rw [goto_of_ne _ _ hne, ← hs.sleepers, hnil] at hu
    exact absurd hu List.not_mem_nil
  | spurious _ => exact .of_contending (by rw [awake_self]; trivial)

theorem Announced.reach (h : (mutex : Machine (State Tid) _).Reachable s) : Announced s := by
  refine h.inv_with (fun _ hr => Words.reach hr) (fun ⟨_, ht⟩ => absurd ht nofun)
    fun s a s' hs ih _ hst => ?_
  rcases step_moves hs.word hst with hm | ⟨t, -, ht, rfl⟩
  · exact announced_moves hs ih hm
  · exact ih.goto (ht ▸ nofun) (ht ▸ id) nofun

/-- **No wake-up is lost**: wherever a thread is asleep, the contended byte is set or somebody
answers for the sleepers; and somebody does where the mutex is free. -/
theorem answering_reach (h : (mutex : Machine (State Tid) _).Reachable s) {t : Tid}
    (ht : s.thread t = .asleep) :
    ((split s.futex).contended ≠ 0 ∨ Answering s) ∧
      ((split s.futex).locked = 0 → Answering s) := by
  have hw := (Words.reach h).word
  have ha := Announced.reach h ⟨t, ht⟩
  refine ⟨ha.imp (contended_iff hw).mpr id, fun h0 => ha.resolve_left fun e => ?_⟩
  rw [(locked_iff hw).mp h0] at e
  exact absurd e (by decide)

/-- a sleeper whose lock was taken by a barging thread: the word is 1 and the woken thread answers -/
theorem answering_barged : ∃ s : State (Fin 4), s.futex = 1 ∧ s.thread 2 = .asleep ∧
    (((split s.futex).contended ≠ 0 ∨ Answering s) ∧
      ((split s.futex).locked = 0 → Answering s)) := by
  let as : List (Act (Fin 4)) := [.lock 0, .lock 1, .exchange 1, .wait 1, .lock 2, .exchange 2,
    .wait 2, .unlock 0, .lock 3, .wake 0 0]
  have h : (mutex.exec start as).map (fun s => (s.futex, s.thread 2)) = some (1, .asleep) := by
    decide
  obtain ⟨s, hs, e⟩ := Option.map_eq_some_iff.mp h
  obtain ⟨e0, e1⟩ := Prod.mk.inj e
  exact ⟨s, e0, e1, answering_reach (.of_exec as .init hs) e1⟩

/-- an `unlock` of a word with the contended byte set goes on to `futex_wake_private` -/
theorem unlock_wakes (h : (mutex : Machine (State Tid) _).Reachable s) {t : Tid}
    (hc : (split s.futex).contended ≠ 0) (hst : step s (.unlock t) = some s') :
    s'.thread t = .wake := by
  have h257 := (contended_iff (Words.reach h).word).mp hc
  have hne : s.futex ≠ BTHREAD_MUTEX_LOCKED := by rw [h257]; decide
  simp only [step, if_pos hne] at hst
  obtain ⟨-, hst⟩ := Option.ite_none_right_eq_some.mp hst
  obtain rfl := Option.some.inj hst
  exact goto_self ..

/-- which brings a sleeper back into the loop, if there is one -/
theorem wake_awakes (h : (mutex : Machine (State Tid) _).Reachable s) {t u : Tid} {i : ℕ}
    (hu : s.thread u = .asleep) (hst : step s (.wake t i) = some s') :
    ∃ v, s.thread v = .asleep ∧ (s'.thread v).Contending := by
  have hs := Words.reach h
  simp only [step] at hst
  obtain ⟨ht, hst⟩ := Option.ite_none_right_eq_some.mp hst
  cases hi : s.sleepers[i]? with
  | some v =>
    rw [hi] at hst
    obtain rfl := Option.some.inj hst
    have hv := (hs.sleepers v).mp (List.mem_of_getElem? hi)
    have hne : v ≠ t := by
      intro heq
      rw [heq, ht] at hv
      cases hv
    refine ⟨v, hv, ?_⟩
    rw [goto_of_ne _ _ hne, awake_self]
    trivial
  | none =>
    rw [hi] at hst
    obtain ⟨he, -⟩ := Option.ite_none_right_eq_some.mp hst
    have hm := (hs.sleepers u).mpr hu
    rw [he] at hm
    exact absurd hm List.not_mem_nil

end FastMutex
end CppCores
