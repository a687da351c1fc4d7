import CppCores.Lib.Signed

/-!
# Semaphore: the timed acquire of `concurrent/sem.h`

`TimedAcquire` adds a number of milliseconds to the nanoseconds of the clock reading and carries
nothing into the seconds.  So the deadline is the one asked for only where the timeout is 0
(`deadline_iff`).  In all other cases it is too early, or it is no time at all and a wait fails
(`blocked_deadline`).

An acquire that would have to wait takes the clock reading and the deadline; that it waits until the
deadline, or fails with `EINVAL` where the nanoseconds are no fraction of a second, is what
`sem_timedwait` promises.
-/

namespace CppCores
namespace Sem
open Signed

/-- the nanoseconds of a second -/
abbrev second : ℤ := 1000000000

structure timespec where
  tv_sec : BitVec 64
  tv_nsec : BitVec 64
  deriving DecidableEq

namespace timespec

/-- the nanoseconds are a fraction of a second -/
def Valid (ts : timespec) : Prop := 0 ≤ ts.tv_nsec.toInt ∧ ts.tv_nsec.toInt < second

instance instDecidableValid (ts : timespec) : Decidable ts.Valid :=
  inferInstanceAs (Decidable (_ ∧ _))

/-- the nanoseconds since the epoch -/
def instant (ts : timespec) : ℤ := ts.tv_sec.toInt * second + ts.tv_nsec.toInt

end timespec

/-- the deadline that `TimedAcquire` hands to `sem_timedwait`; nothing where the sum overflows -/
def deadline (now : timespec) (timeout : BitVec 64) : Option timespec :=
  (checkedAdd now.tv_nsec timeout).map fun tv_nsec => { now with tv_nsec := tv_nsec }

/-- how a `sem_timedwait` ends that nobody posts to -/
inductive Waited where
  | einval
  | timedout (span : ℤ)
  deriving DecidableEq

/-- `sem_timedwait` when the value is 0: it waits until the deadline, not at all if that is past -/
def blocked (now abs_timeout : timespec) : Waited :=
  if abs_timeout.Valid then .timedout (max 0 (abs_timeout.instant - now.instant)) else .einval

/-- the deadline is a time and the timeout, in milliseconds, from now -/
def Right (now : timespec) (timeout : BitVec 64) : Prop :=
  ∃ ts, deadline now timeout = some ts ∧ ts.Valid ∧
    ts.instant = now.instant + timeout.toInt * 1000000 ∧
    blocked now ts = .timedout (timeout.toInt * 1000000)

variable {now : timespec} {timeout : BitVec 64}

theorem deadline_eq_some {ts : timespec} : deadline now timeout = some ts ↔
    ts.tv_sec = now.tv_sec ∧ ts.tv_nsec.toInt = now.tv_nsec.toInt + timeout.toInt := by
  rw [deadline, Option.map_eq_some_iff]
  refine ⟨?_, fun ⟨hs, hn⟩ => ⟨ts.tv_nsec, ?_, ?_⟩⟩
  · rintro ⟨n, hn, rfl⟩
    rw [checkedAdd, checked_eq_some (by decide)] at hn
    exact ⟨rfl, hn⟩
  · rw [checkedAdd, checked_eq_some (by decide)]
    exact hn
  · rw [← hs]

/-- a deadline is as many nanoseconds from now as the timeout has milliseconds -/
theorem instant_deadline {ts : timespec} (h : deadline now timeout = some ts) :
    ts.instant = now.instant + timeout.toInt := by
  obtain ⟨hs, hn⟩ := deadline_eq_some.mp h
  rw [timespec.instant, timespec.instant, hs, hn]
  omega

/-- a wait fails at once where the fraction of the second has no room for the timeout -/
theorem blocked_deadline {ts : timespec} (hnow : now.Valid) (ht : 0 ≤ timeout.toInt)
    (h : deadline now timeout = some ts) :
    blocked now ts = if now.tv_nsec.toInt + timeout.toInt < second then .timedout timeout.toInt
      else .einval := by
  have hn := (deadline_eq_some.mp h).2
  have hspan := instant_deadline h
  have hlo := hnow.1
  by_cases hlt : now.tv_nsec.toInt + timeout.toInt < second
  · have hv : ts.Valid := ⟨by omega, by omega⟩
    have hmax : max 0 (ts.instant - now.instant) = timeout.toInt := by omega
    rw [blocked, if_pos hv, if_pos hlt, hmax]
  · have hv : ¬ ts.Valid := fun hv => hlt (by rw [← hn]; exact hv.2)
    rw [blocked, if_neg hv, if_neg hlt]

theorem deadline_iff (now : timespec) (timeout : BitVec 64) (hnow : now.Valid)
    (ht : 0 ≤ timeout.toInt) : Right now timeout ↔ timeout = 0 := by
  refine ⟨?_, fun h => ?_⟩
  · rintro ⟨ts, hts, -, hspan, -⟩
    have h := instant_deadline hts
    have hz : timeout.toInt = (0 : BitVec 64).toInt := by
      rw [show (0 : BitVec 64).toInt = 0 from rfl]
      omega
    exact BitVec.toInt_inj.mp hz
  · have hz : timeout.toInt = 0 := by
      rw [h]
      rfl
    have hd : deadline now timeout = some now := by
      rw [deadline_eq_some]
      exact ⟨rfl, by omega⟩
    refine ⟨now, hd, hnow, by omega, ?_⟩
    have hlt : now.tv_nsec.toInt + timeout.toInt < second := by
      rw [hz, Int.add_zero]
      exact hnow.2
    rw [blocked_deadline hnow ht hd, if_pos hlt, hz]
    rfl

theorem deadline_iff_half_second :
    timespec.Valid ⟨0, 500000000⟩ ∧ 0 ≤ (50 : BitVec 64).toInt ∧
      (Right ⟨0, 500000000⟩ 50 ↔ (50 : BitVec 64) = 0) :=
  ⟨by decide, by decide, deadline_iff ⟨0, 500000000⟩ 50 (by decide) (by decide)⟩

/-- 50 ms that are asked for in the last 50 ns of a second -/
theorem deadline_malformed : ¬ ∀ (now : timespec) (timeout : BitVec 64),
    now.Valid → 0 ≤ timeout.toInt → Right now timeout := by
  intro h
  obtain ⟨ts, hts, hv, -⟩ := h ⟨1700000000, 999999950⟩ 50 (by decide) (by decide)
  have hd : deadline ⟨1700000000, 999999950⟩ 50 = some ⟨1700000000, 1000000000⟩ := by decide
  rw [hd, Option.some.injEq] at hts
  rw [← hts] at hv
  exact absurd hv (by decide)

end Sem
end CppCores
