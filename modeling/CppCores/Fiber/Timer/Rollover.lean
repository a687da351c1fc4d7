import Mathlib.Algebra.Group.Nat.Defs
import CppCores.Fiber.Timer.Expiry

/-!
# FiberTimerManager: which backward steps of the clock count as a rollover

`detectClockRollover` compares with the last reading less one hour, in 64 bits.  An hour before a
reading of the first hour is a number close to `2 ^ 64`, so that every backward step counts there.

* `detectClockRollover_iff`    one call, from the two readings;
* `answers_get`                the calls of a sequence, from their readings;
* `rollover_iff`               **every call of a sequence is right iff none goes back within the first
                               hour**;
* `rollover_first_second`      a clock that goes back by a millisecond, one second after the epoch.
-/

namespace CppCores
namespace Fiber
open Manager

/-- an hour in milliseconds -/
abbrev hour : ℕ := 3600000

/-- the clock went back by more than an hour -/
def BackAnHour (last now : UInt64) : Prop := now.toNat + hour < last.toNat

/-- the last reading is an hour or more after the epoch, or the clock did not go back -/
def Plain (last now : UInt64) : Prop := hour ≤ last.toNat ∨ last.toNat ≤ now.toNat

instance instDecidableBackAnHour (last now : UInt64) : Decidable (BackAnHour last now) :=
  inferInstanceAs (Decidable (_ < _))

instance instDecidablePlain (last now : UInt64) : Decidable (Plain last now) :=
  inferInstanceAs (Decidable (_ ∨ _))

section
variable {W F : Type*} (m : Manager W F) (now : UInt64)

theorem detectClockRollover_fst : (m.detectClockRollover now).1 = true ↔
    now < m.m_last_execute_time ∧ now < m.m_last_execute_time - 3600000 := by
  show (decide (now < m.m_last_execute_time) && decide (now < m.m_last_execute_time - 3600000)) = true ↔ _
  rw [Bool.and_eq_true, decide_eq_true_eq, decide_eq_true_eq]

/-- from the second hour on, an hour before a reading is one in the natural numbers -/
theorem toNat_hour_before {last : UInt64} (h : hour ≤ last.toNat) :
    (last - 3600000).toNat = last.toNat - hour :=
  UInt64.toNat_sub_of_le _ _ (UInt64.le_iff_toNat_le.mpr h)

/-- an hour before a reading of the first hour is after all of that hour -/
theorem le_toNat_hour_before {last : UInt64} (h : last.toNat < hour) :
    hour ≤ (last - 3600000).toNat := by
  have hh : (3600000 : UInt64).toNat = 3600000 := rfl
  rw [UInt64.toNat_sub, hh]
  rw [hour] at h ⊢
  omega

/-- **A call is right iff it does not go back within the first hour.** -/
theorem detectClockRollover_iff :
    ((m.detectClockRollover now).1 = true ↔ BackAnHour m.m_last_execute_time now) ↔
      Plain m.m_last_execute_time now := by
  rw [detectClockRollover_fst, UInt64.lt_iff_toNat_lt, UInt64.lt_iff_toNat_lt, BackAnHour, Plain]
  by_cases hlast : hour ≤ m.m_last_execute_time.toNat
  · have hbefore := toNat_hour_before hlast
    omega
  · have hbefore := le_toNat_hour_before (Nat.lt_of_not_le hlast)
    omega

/-- the `i`-th of the readings -/
def reading (ts : List UInt64) (i : ℕ) : UInt64 := ts.getD i 0

/-- the answers of a sequence of calls -/
def answers (m : Manager W F) : List UInt64 → List Bool
  | [] => []
  | now_ms :: ts => (m.detectClockRollover now_ms).1 :: answers (m.detectClockRollover now_ms).2 ts

theorem answers_get (ts : List UInt64) (i : ℕ) (hi : i < ts.length) :
    (answers m ts)[i]? = some ((Manager.start (reading (m.m_last_execute_time :: ts) i) :
      Manager W F).detectClockRollover (reading ts i)).1 := by
  induction ts generalizing m i with
  | nil => exact absurd hi (Nat.not_lt_zero i)
  | cons t ts ih =>
    cases i with
    | zero => rfl
    | succ i => exact ih (m.detectClockRollover t).2 i (Nat.lt_of_succ_lt_succ hi)

end

section
variable {Tid W F : Type*} [DecidableEq Tid]

/-- a call at the reading `now` after one at `last`: its answer, and what `listExpiredCb` delivers at
that reading in any state of any manager -/
structure RightCall (Tid W F : Type*) [DecidableEq Tid] (last now : UInt64) (answer : Option Bool) :
    Prop where
  answer : answer = some (decide (BackAnHour last now))
  due : ¬ BackAnHour last now → ∀ {t₀ : UInt64} {s : State Tid W F},
    (timers t₀ : Machine (State Tid W F) _).Reachable s → s.mgr.m_last_execute_time = last →
      ∀ addr, ∀ x ∈ (s.mgr.listExpiredCb now addr).1, (s.mgr.heap x.1).m_next ≤ now

theorem listExpiredCb_due {t₀ now : UInt64} {s : State Tid W F}
    (h : (timers t₀ : Machine (State Tid W F) _).Reachable s)
    (hroll : (s.mgr.detectClockRollover now).1 = false) (addr : ℕ) :
    ∀ x ∈ (s.mgr.listExpiredCb now addr).1, (s.mgr.heap x.1).m_next ≤ now := by
  intro x hx
  by_cases hne : s.mgr.m_timers = []
  · have hnil : s.mgr.listExpiredCb now addr = ([], s.mgr) := by
      unfold listExpiredCb
      rw [hne]
    rw [hnil] at hx
    exact absurd hx List.not_mem_nil
  · rw [((expires_reach h hne now).1 addr).delivered, List.mem_map] at hx
    obtain ⟨i, hi, rfl⟩ := hx
    have hdue := due_iff.mp (mem_expired.mp hi).2
    rw [hroll] at hdue
    exact hdue.resolve_left Bool.false_ne_true

theorem rollover_iff (t₀ : UInt64) (ts : List UInt64) :
    (∀ i < ts.length, RightCall Tid W F (reading (t₀ :: ts) i) (reading ts i)
      (answers (Manager.start t₀ : Manager W F) ts)[i]?) ↔
    ∀ i < ts.length, Plain (reading (t₀ :: ts) i) (reading ts i) := by
  refine forall_congr' fun i => forall_congr' fun hi => ?_
  set last := reading (t₀ :: ts) i
  set now := reading ts i
  have hget : (answers (Manager.start t₀ : Manager W F) ts)[i]? =
      some ((Manager.start last : Manager W F).detectClockRollover now).1 := answers_get _ ts i hi
  have hcall : (((Manager.start last : Manager W F).detectClockRollover now).1 = true ↔
      BackAnHour last now) ↔ Plain last now := detectClockRollover_iff _ now
  rw [← hcall, hget]
  refine ⟨fun h => ?_, fun h => ⟨?_, fun hback t₀ s hs hlast addr => ?_⟩⟩
  · rw [Option.some.inj h.answer]
    exact decide_eq_true_iff
  · rw [Option.some.injEq, Bool.eq_iff_iff, decide_eq_true_iff]
    exact h
  · apply listExpiredCb_due hs
    have hhere := detectClockRollover_iff s.mgr now
    rw [hlast, ← hcall] at hhere
    rw [Bool.eq_false_iff, ne_eq, hhere.mpr h]
    exact hback

/-- a clock that goes back by a millisecond, one second after the epoch -/
theorem rollover_first_second : ¬ ∀ (t₀ : UInt64) (ts : List UInt64), ∀ i < ts.length,
    RightCall Unit Unit Unit (reading (t₀ :: ts) i) (reading ts i)
      (answers (Manager.start t₀ : Manager Unit Unit) ts)[i]? := by
  intro h
  have hans := (h 1000 [999] 0 (by decide)).answer
  exact absurd hans (by decide)

end
end Fiber
end CppCores
