import CppCores.Fiber.Timer.Wake

/-!
# FiberTimer: what `refresh` and `reset` answer

`Moved m m' i answer t`: the answer says whether the timer `i` is scheduled; if it is, `i` is `t`
afterwards and still scheduled, if not nothing has changed, and no other timer changes in any case.

* `refresh_moved_iff`        `refresh` is so for every timer but one that is scheduled with an empty callback;
* `reset_moved_iff`          `reset` is so too, behind its first test;
* `reset_early_moved_iff`    the first test, before the lock is taken, answers true for every timer;
* `moved_iff`                when both are so.
-/

set_option linter.unusedSectionVars false

namespace CppCores
namespace Fiber
open OrderedSet

namespace Manager
variable {W F : Type*} {m m' : Manager W F} {i : ℕ} {now : UInt64}

structure Moved (m m' : Manager W F) (i : ℕ) (answer : Bool) (t : Timer W F) : Prop where
  scheduled : answer = true ↔ i ∈ m.m_timers
  failed : answer = false → m' = m
  moved : answer = true → i ∈ m'.m_timers ∧ m'.heap i = t
  others : ∀ j, j ≠ i → (j ∈ m'.m_timers ↔ j ∈ m.m_timers) ∧ m'.heap j = m.heap j

theorem Moved.absent {t : Timer W F} (hi : i ∉ m.m_timers) : Moved m m i false t where
  scheduled := iff_of_false Bool.false_ne_true hi
  failed := fun _ => rfl
  moved := fun h => absurd h Bool.false_ne_true
  others := fun _ _ => ⟨Iff.rfl, rfl⟩

theorem Moved.present {t : Timer W F} (hi : i ∈ m.m_timers)
    (hmem : ∀ j, j ∈ m'.m_timers ↔ j ∈ m.m_timers) (hheap : m'.heap = Function.update m.heap i t) :
    Moved m m' i true t where
  scheduled := iff_of_true rfl hi
  failed := fun h => absurd h.symm Bool.false_ne_true
  moved := fun _ => ⟨(hmem i).mpr hi, by rw [hheap, Function.update_self]⟩
  others := fun j hj => ⟨hmem j, by rw [hheap, Function.update_of_ne hj]⟩

/-- a timer after `refresh` -/
def refreshed (m : Manager W F) (i : ℕ) (now : UInt64) : Timer W F :=
  { m.heap i with m_next := now + (m.heap i).m_ms }

/-- a timer after `reset` -/
def renewed (m : Manager W F) (i : ℕ) (ms : UInt64) (from_now : Bool) (now : UInt64) : Timer W F :=
  { m.heap i with
    m_ms := ms
    m_next := (if from_now then now else (m.heap i).m_next - (m.heap i).m_ms) + ms }

/-- the timer is not scheduled, or has a callback -/
def Usable (m : Manager W F) (i : ℕ) : Prop := i ∈ m.m_timers → (m.heap i).m_cb ≠ none

theorem moved_false_iff {t : Timer W F} (hc : (m.heap i).m_cb = none) :
    Moved m m i false t ↔ m.Usable i := by
  constructor
  · intro h hi
    exact absurd (h.scheduled.mpr hi) Bool.false_ne_true
  · intro h
    exact .absent fun hi => h hi hc

/-- **`refresh` answers whether the timer is scheduled**, unless it is with an empty callback. -/
theorem refresh_moved_iff (h : Out [] m) (i : ℕ) (now : UInt64) :
    Moved m (m.refresh i now).2 i (m.refresh i now).1 (m.refreshed i now) ↔ m.Usable i := by
  by_cases hc : (m.heap i).m_cb = none
  · rw [refresh_empty hc]
    exact moved_false_iff hc
  · obtain ⟨hans, -, hmem, hheap, -, -, -⟩ := @refresh_spec _ _ _ _ now h hc
    rw [hans]
    exact iff_of_true (.present (h.mem hc) hmem hheap) fun _ => hc

/-- **Behind its first test, `reset` answers whether the timer is scheduled**, unless it is with an empty
callback. -/
theorem reset_moved_iff (h : Out [] m) {ms : UInt64} {from_now : Bool}
    (he : ¬ (ms = (m.heap i).m_ms ∧ ¬ from_now)) :
    Moved m (m.reset i ms from_now now).2.2 i (m.reset i ms from_now now).1
      (m.renewed i ms from_now now) ↔ m.Usable i := by
  by_cases hc : (m.heap i).m_cb = none
  · rw [reset_empty he hc]
    exact moved_false_iff hc
  · obtain ⟨m1, h1, hr, hmem, hheap, -, -, -⟩ := @reset_present _ _ _ _ now h _ _ he hc
    have hins := addTimer_spec h1
    rw [hr]
    refine iff_of_true (.present (h.mem hc) (fun j => ?_) ?_) fun _ => hc
    · rw [hins.mem, hmem]
    · rw [hins.heap, hheap]
      rfl

/-- the period and the deadline of a timer that is reset to its own period stay -/
theorem renewed_same (m : Manager W F) (i : ℕ) (now : UInt64) :
    m.renewed i (m.heap i).m_ms false now = m.heap i := by
  have hnext : (m.heap i).m_next - (m.heap i).m_ms + (m.heap i).m_ms = (m.heap i).m_next :=
    UInt64.sub_add_cancel _ _
  show { m.heap i with m_next := (m.heap i).m_next - (m.heap i).m_ms + (m.heap i).m_ms } = m.heap i
  rw [hnext]

/-- **At its first test, `reset` answers true for every timer**, which is right for a scheduled one. -/
theorem reset_early_moved_iff (m : Manager W F) (i : ℕ) (now : UInt64) :
    Moved m (m.reset i (m.heap i).m_ms false now).2.2 i (m.reset i (m.heap i).m_ms false now).1
      (m.renewed i (m.heap i).m_ms false now) ↔ i ∈ m.m_timers := by
  rw [reset_early, renewed_same]
  constructor
  · intro h
    exact h.scheduled.mp rfl
  · intro hi
    exact .present hi (fun _ => Iff.rfl) (Function.update_eq_self i m.heap).symm

end Manager

/-! ## every state reached -/

section
variable {Tid W F : Type*} [DecidableEq Tid] {s : State Tid W F} {start : UInt64}
open Manager

/-- **In every state reached, `refresh` and `reset` answer whether the timer is scheduled, and do what
they answer, iff the timer is not scheduled with an empty callback, and `reset` gives it another period,
or counts it from now, or it is scheduled.** -/
theorem moved_iff (h : (timers start : Machine (State Tid W F) _).Reachable s) (i : ℕ)
    (ms : UInt64) (from_now : Bool) (now : UInt64) :
    (Moved s.mgr (s.mgr.refresh i now).2 i (s.mgr.refresh i now).1 (s.mgr.refreshed i now) ∧
      Moved s.mgr (s.mgr.reset i ms from_now now).2.2 i (s.mgr.reset i ms from_now now).1
        (s.mgr.renewed i ms from_now now)) ↔
      s.mgr.Usable i ∧ (ms ≠ (s.mgr.heap i).m_ms ∨ from_now = true ∨ i ∈ s.mgr.m_timers) := by
  have hout := (past_reach h).1
  rw [refresh_moved_iff hout]
  refine and_congr_right fun husable => ?_
  by_cases he : ms = (s.mgr.heap i).m_ms ∧ ¬ from_now
  · obtain ⟨rfl, hf⟩ := he
    obtain rfl := Bool.eq_false_of_not_eq_true hf
    rw [reset_early_moved_iff]
    simp
  · refine iff_of_true ((reset_moved_iff hout he).mpr husable) ?_
    by_cases hms : ms = (s.mgr.heap i).m_ms
    · exact .inr (.inl (not_not.mp fun hf => he ⟨hms, hf⟩))
    · exact .inl hms

/-- a scheduled timer, one that was cancelled and one with an empty callback, each reset to its own
period -/
theorem moved_two : ∃ s : State Unit Unit Bool, s.mgr.m_timers = [2, 1] ∧
    (Moved s.mgr (s.mgr.refresh 1 8).2 1 (s.mgr.refresh 1 8).1 (s.mgr.refreshed 1 8) ∧
      Moved s.mgr (s.mgr.reset 1 7 false 8).2.2 1 (s.mgr.reset 1 7 false 8).1
        (s.mgr.renewed 1 7 false 8)) ∧
    ¬ (Moved s.mgr (s.mgr.refresh 0 8).2 0 (s.mgr.refresh 0 8).1 (s.mgr.refreshed 0 8) ∧
      Moved s.mgr (s.mgr.reset 0 6 false 8).2.2 0 (s.mgr.reset 0 6 false 8).1
        (s.mgr.renewed 0 6 false 8)) ∧
    ¬ (Moved s.mgr (s.mgr.refresh 2 8).2 2 (s.mgr.refresh 2 8).1 (s.mgr.refreshed 2 8) ∧
      Moved s.mgr (s.mgr.reset 2 5 false 8).2.2 2 (s.mgr.reset 2 5 false 8).1
        (s.mgr.renewed 2 5 false 8)) := by
  let as : List (Act Unit Unit Bool) := [.FiberGetCurrentTimeMs () 5,
    .addTimer () 6 (some true) false 9, .onTimerInsertedAtFront (), .FiberGetCurrentTimeMs () 5,
    .addTimer () 7 (some false) false 3, .cancel () 0, .FiberGetCurrentTimeMs () 5,
    .addTimer () 5 none false 4]
  have h : ((timers 5).exec (Fiber.start 5) as).map (fun s => (s.mgr.m_timers, (s.mgr.heap 0).m_ms,
      (s.mgr.heap 1).m_cb.isSome, (s.mgr.heap 2).m_cb.isSome)) = some ([2, 1], 6, true, false) := by
    decide
  obtain ⟨s, hs, e⟩ := Option.map_eq_some_iff.mp h
  obtain ⟨e1, e2, e3, e4⟩ := by simpa only [Prod.mk.injEq] using e
  have hr : (timers 5 : Machine (State Unit Unit Bool) _).Reachable s := .of_exec as .init hs
  refine ⟨s, e1, (moved_iff hr 1 7 false 8).mpr ⟨fun _ => ?_, .inr (.inr ?_)⟩, fun hm => ?_,
    fun hm => ?_⟩
  · exact Option.isSome_iff_ne_none.mp e3
  · rw [e1]
    decide
  · rcases ((moved_iff hr 0 6 false 8).mp hm).2 with hne | hf | hi
    · exact hne e2.symm
    · exact absurd hf (by decide)
    · rw [e1] at hi
      exact absurd hi (by decide)
  · have hcb := ((moved_iff hr 2 5 false 8).mp hm).1 (by rw [e1]; decide)
    rw [Option.isSome_iff_ne_none.mpr hcb] at e4
    cases e4

/-- a timer that was cancelled -/
theorem not_moved : ¬ ∀ (s : State Unit Unit Bool) (i : ℕ) (ms : UInt64) (from_now : Bool)
    (now : UInt64), (timers 5 : Machine (State Unit Unit Bool) _).Reachable s → i < s.mgr.count →
      Moved s.mgr (s.mgr.refresh i now).2 i (s.mgr.refresh i now).1 (s.mgr.refreshed i now) ∧
      Moved s.mgr (s.mgr.reset i ms from_now now).2.2 i (s.mgr.reset i ms from_now now).1
        (s.mgr.renewed i ms from_now now) := by
  intro hall
  let as : List (Act Unit Unit Bool) := [.FiberGetCurrentTimeMs () 5,
    .addTimer () 6 (some true) false 9, .onTimerInsertedAtFront (), .cancel () 0]
  have h : ((timers 5).exec (Fiber.start 5) as).map
      (fun s => (s.mgr.m_timers, (s.mgr.reset 0 6 false 8).1, s.mgr.count)) =
        some ([], true, 1) := by decide
  obtain ⟨s, hs, e⟩ := Option.map_eq_some_iff.mp h
  obtain ⟨e1, e2, e3⟩ := by simpa only [Prod.mk.injEq] using e
  have hm := (hall s 0 6 false 8 (.of_exec as .init hs) (by rw [e3]; exact Nat.one_pos)).2
  have hi := hm.scheduled.mp e2
  rw [e1] at hi
  exact List.not_mem_nil hi

end
end Fiber
end CppCores
