import Mathlib.Algebra.Group.Nat.Defs
import CppCores.Fiber.Timer.Delivery

/-!
# FiberTimerManager: which timer wake-ups are missed

A poller that was told a deadline by `getNextTimer` sleeps until then.  As long as the clock readings
do not go back, no deadline wraps and no `listExpiredCb` reports a rollover while a timer is not due,
either `onTimerInsertedAtFront` is called since, or is owed by a thread that released the lock since, or
no timer is due earlier (`notified_reach`).

`Timed` is what carries this.  An insertion that does not notify has an earlier timer before it;
`refresh` and the recurring timers of `listExpiredCb` go back into the set without notifying, and only
ever later than they were, since a timer is never due later than `m_ms` after the last reading.

A reading that `listExpiredCb` takes before the lock may be overtaken by that of another thread.  If it
is by more than an hour, a rollover is reported on a clock that never goes back, and the recurring timers
go back to earlier deadlines (`not_notified`).
-/

set_option linter.unusedSectionVars false

namespace CppCores
namespace Fiber
open OrderedSet Manager
variable {Tid W F : Type*} [DecidableEq Tid]

/-- a reading is not before the last one, and no deadline that the step computes wraps -/
def InTime (s : State Tid W F) : Act Tid W F → Prop
  | .FiberGetCurrentTimeMs _ now | .getNextTimer _ now => s.clock ≤ now
  | .addTimer tid ms _ _ _ | .addConditionTimer tid ms _ _ _ _ =>
    ∀ now ∈ s.reading? tid, now.toNat + ms.toNat < 2 ^ 64
  | .refresh _ i now => s.clock ≤ now ∧
    (i ∈ s.mgr.m_timers → now.toNat + (s.mgr.heap i).m_ms.toNat < 2 ^ 64)
  | .reset _ i ms from_now now => s.clock ≤ now ∧ (i ∈ s.mgr.m_timers →
    (if from_now then now else (s.mgr.heap i).m_next - (s.mgr.heap i).m_ms).toNat + ms.toNat <
      2 ^ 64)
  | .listExpiredCb tid _ => ∀ now ∈ s.reading? tid, ∀ i ∈ s.mgr.m_timers,
    (s.mgr.heap i).m_recurring = true → (s.mgr.heap i).m_next ≤ now →
      now.toNat + (s.mgr.heap i).m_ms.toNat < 2 ^ 64
  | .cancel .. | .onTimerInsertedAtFront _ | .release _ => True

instance (s : State Tid W F) (a : Act Tid W F) : Decidable (InTime s a) :=
  match a with
  | .FiberGetCurrentTimeMs .. | .getNextTimer .. => inferInstanceAs (Decidable (_ ≤ _))
  | .addTimer .. | .addConditionTimer .. => Option.decidableForallMem _
  | .refresh .. | .reset .. => inferInstanceAs (Decidable (_ ∧ _))
  | .listExpiredCb .. => Option.decidableForallMem _
  | .cancel .. | .onTimerInsertedAtFront _ | .release _ => .isTrue trivial

/-- the step is no `listExpiredCb` that reports a rollover while a timer is not due -/
def NoRollover (s : State Tid W F) : Act Tid W F → Prop
  | .listExpiredCb tid _ => ∀ now ∈ s.reading? tid, (s.mgr.detectClockRollover now).1 = true →
    ∀ i ∈ s.mgr.m_timers, (s.mgr.heap i).m_next ≤ now
  | .FiberGetCurrentTimeMs .. | .addTimer .. | .addConditionTimer .. | .cancel .. | .refresh ..
  | .reset .. | .getNextTimer .. | .onTimerInsertedAtFront _ | .release _ => True

instance (s : State Tid W F) (a : Act Tid W F) : Decidable (NoRollover s a) :=
  match a with
  | .listExpiredCb .. => Option.decidableForallMem _
  | .FiberGetCurrentTimeMs .. | .addTimer .. | .addConditionTimer .. | .cancel .. | .refresh ..
  | .reset .. | .getNextTimer .. | .onTimerInsertedAtFront _ | .release _ => .isTrue trivial

/-- `next` is at or after the deadline `D`, where no deadline is infinity -/
def NotBefore (D : Option UInt64) (next : UInt64) : Prop :=
  match D with
  | none => False
  | some d => d ≤ next

/-- `onTimerInsertedAtFront` was called since the last `getNextTimer`, or a thread that released the
lock since then is about to -/
def Notified (s : State Tid W F) : Prop :=
  s.notified = true ∨ ∃ tid, s.thread tid = .owing s.polls

/-- the deadline of `t` is at most `m_ms` after the reading `clock` -/
def Timer.Within (clock : UInt64) (t : Timer W F) : Prop :=
  t.m_ms.toNat ≤ t.m_next.toNat ∧ t.m_next.toNat ≤ clock.toNat + t.m_ms.toNat

structure Timed (s : State Tid W F) : Prop where
  within : ∀ i ∈ s.mgr.m_timers, (s.mgr.heap i).Within s.clock
  /-- the readings of the threads that wait for the lock are of the past -/
  waiting : ∀ tid now, s.thread tid = .waiting now → now.toNat ≤ s.clock.toNat
  tickled : s.mgr.m_tickled = true → Notified s
  front : s.mgr.m_tickled = false →
    ∀ i ∈ s.mgr.m_timers, NotBefore s.earliest (s.mgr.heap i).m_next

section
variable {s : State Tid W F} {m m' : Manager W F} {i : ℕ} {now : UInt64}

theorem NotBefore.mono {D : Option UInt64} {a b : UInt64} (h : NotBefore D a)
    (hab : a.toNat ≤ b.toNat) : NotBefore D b := by
  cases D with
  | none => exact h
  | some d =>
    have hd : d ≤ a := h
    exact UInt64.le_iff_toNat_le.mpr (Nat.le_trans (UInt64.le_iff_toNat_le.mp hd) hab)

theorem Timer.Within.mono {t : Timer W F} {c c' : UInt64} (h : t.Within c)
    (hc : c.toNat ≤ c'.toNat) : t.Within c' := ⟨h.1, by have := h.2; omega⟩

theorem toNat_add_of_lt {a b : UInt64} (h : a.toNat + b.toNat < 2 ^ 64) :
    (a + b).toNat = a.toNat + b.toNat := by
  rw [UInt64.toNat_add]
  exact Nat.mod_eq_of_lt h

theorem Timer.within_add {t : Timer W F} {start clock : UInt64} (hn : t.m_next = start + t.m_ms)
    (hw : start.toNat + t.m_ms.toNat < 2 ^ 64) (hs : start.toNat ≤ clock.toNat) :
    t.Within clock := by
  unfold Timer.Within
  rw [hn, toNat_add_of_lt hw]
  omega

theorem Timer.Within.le_add {t : Timer W F} (h : t.Within s.clock) (hc : s.clock ≤ now)
    (hw : now.toNat + t.m_ms.toNat < 2 ^ 64) : t.m_next.toNat ≤ (now + t.m_ms).toNat := by
  rw [toNat_add_of_lt hw]
  have h1 := h.2
  have h2 := UInt64.le_iff_toNat_le.mp hc
  omega

/-- where the clock does not go back no rollover is detected -/
theorem no_rollover (h : m.m_last_execute_time.toNat ≤ now.toNat) :
    (m.detectClockRollover now).1 = false := by
  have hge : ¬ now < m.m_last_execute_time := by
    rw [UInt64.lt_iff_toNat_lt]
    omega
  show (decide (now < m.m_last_execute_time) && _) = false
  rw [decide_eq_false hge]
  rfl

/-! ## threads -/

theorem Notified.goto {tid : Tid} (h : Notified s) (ht : ∀ k, s.thread tid ≠ .owing k) (p : Pc) :
    Notified (s.goto tid p) := by
  refine h.imp_right fun h => ?_
  obtain ⟨u, hu⟩ := h
  refine ⟨u, ?_⟩
  have hne : u ≠ tid := by
    intro heq
    subst heq
    exact ht _ hu
  exact (Function.update_of_ne hne ..).trans hu

theorem waiting_goto {tid : Tid} {p : Pc} {clock : UInt64}
    (h : ∀ u r, s.thread u = .waiting r → r.toNat ≤ clock.toNat)
    (hp : ∀ r, p = .waiting r → r.toNat ≤ clock.toNat) (u : Tid) (r : UInt64)
    (hu : (s.goto tid p).thread u = .waiting r) : r.toNat ≤ clock.toNat := by
  have hu : Function.update s.thread tid p u = .waiting r := hu
  by_cases e : u = tid
  · rw [e, Function.update_self] at hu
    exact hp r hu
  · rw [Function.update_of_ne e] at hu
    exact h u r hu

theorem State.CanMake.not_owing {tid : Tid} {addr : ℕ} (h : s.CanMake tid now addr) (k : ℕ) :
    s.thread tid ≠ .owing k := by
  rw [h.1]
  intro e
  cases e

theorem State.CanMake.reading {tid : Tid} {addr : ℕ} (h : s.CanMake tid now addr) :
    now ∈ s.reading? tid := State.reading?_eq_some.mpr h.1

theorem not_owing_outside {tid : Tid} (h : s.thread tid = .outside) (k : ℕ) :
    s.thread tid ≠ .owing k := by
  rw [h]
  intro e
  cases e

theorem Timed.read (h : Timed s) (hc : s.clock ≤ now) : Timed (s.read now) :=
  have hc' := UInt64.le_iff_toNat_le.mp hc
  ⟨fun j hj => (h.within j hj).mono hc', fun u r hu => Nat.le_trans (h.waiting u r hu) hc',
    h.tickled, h.front⟩

/-! ## insertions -/

/-- **An insertion notifies or has an earlier timer before it.** -/
theorem timed_unlock {tid : Tid} {front : Bool} (hins : Inserted m i front m')
    (hi : (m.heap i).Within s.clock) (hw : ∀ j ∈ m.m_timers, (m.heap j).Within s.clock)
    (hwait : ∀ u r, s.thread u = .waiting r → r.toNat ≤ s.clock.toNat)
    (ht : ∀ k, s.thread tid ≠ .owing k) (htick : m.m_tickled = true → Notified s)
    (hfront : m.m_tickled = false → ∀ j ∈ m.m_timers, NotBefore s.earliest (m.heap j).m_next) :
    Timed (s.unlock tid (front, m')) := by
  have hmem : ∀ j ∈ m'.m_timers, j = i ∨ j ∈ m.m_timers := fun j hj => (hins.mem j).mp hj
  refine ⟨fun j hj => ?_, fun u r hu => ?_, fun htick' => ?_, fun htick' j hj => ?_⟩
  · show (m'.heap j).Within s.clock
    rw [hins.heap]
    rcases hmem j hj with rfl | hj
    · exact hi
    · exact hw j hj
  · refine waiting_goto hwait (fun r hr => ?_) u r hu
    cases front with
    | true => cases hr
    | false => cases hr
  · rcases hins.front with ⟨rfl, -⟩ | ⟨rfl, he, -⟩
    · exact .inr ⟨tid, Function.update_self ..⟩
    · exact Notified.goto (s := s.setMgr m') (htick (he ▸ htick')) ht .outside
  · have htick' : m'.m_tickled = false := htick'
    rcases hins.front with ⟨-, he⟩ | ⟨-, he, hearly⟩
    · rw [htick'] at he
      exact absurd he (by simp)
    · rw [he] at htick'
      show NotBefore s.earliest (m'.heap j).m_next
      rw [hins.heap]
      rcases hmem j hj with rfl | hj
      · -- the timer is behind one that was there
        obtain ⟨a, ha, hlt⟩ := hearly.resolve_left (by rw [htick']; simp)
        exact (hfront htick' a ha).mono (next_le_of_key_lt hlt)
      · exact hfront htick' j hj

theorem Timed.addNew (h : Timed s) (hout : Out [] s.mgr) {tid : Tid} {ms : UInt64}
    {cb : Option (Callback W F)} {recurring : Bool} {addr : ℕ} (hcan : s.CanMake tid now addr)
    (hw : now.toNat + ms.toNat < 2 ^ 64) :
    Timed (s.unlock tid (s.mgr.addNew ms cb recurring now addr)) := by
  have hold : ∀ j ∈ s.mgr.m_timers,
      (s.mgr.make (.new ms cb recurring now addr)).heap j = s.mgr.heap j := by
    intro j hj
    exact Function.update_of_ne (Nat.ne_of_lt (hout.lt_count hj)) ..
  have hnew : (s.mgr.make (.new ms cb recurring now addr)).heap s.mgr.count =
      .new ms cb recurring now addr := Function.update_self ..
  refine timed_unlock (addNew_spec hout ms cb recurring now hcan.2) ?_ (fun j hj => ?_) h.waiting
    hcan.not_owing h.tickled fun ht j hj => ?_
  · rw [hnew]
    exact Timer.within_add rfl hw (h.waiting tid now hcan.1)
  · rw [hold j hj]
    exact h.within j hj
  · rw [hold j hj]
    exact h.front ht j hj

theorem Timed.reset (h : Timed s) (hout : Out [] s.mgr) {tid : Tid} (hcan : s.Can tid i)
    {ms : UInt64} {from_now : Bool} (hc : s.clock ≤ now) (hw : i ∈ s.mgr.m_timers →
      (if from_now then now else (s.mgr.heap i).m_next - (s.mgr.heap i).m_ms).toNat + ms.toNat <
        2 ^ 64) :
    Timed ((s.read now).unlock tid (s.mgr.reset i ms from_now now).2) := by
  have hc' := UInt64.le_iff_toNat_le.mp hc
  have hr := h.read hc
  have ht : ∀ k, (s.read now).thread tid ≠ .owing k := not_owing_outside hcan.1
  rcases @reset_spec _ _ _ i now hout ms from_now with
    ⟨b, he⟩ | ⟨hcb, m1, h1, he, hmem, hheap, -, htick, -⟩
  · rw [he]
    refine ⟨hr.within, waiting_goto hr.waiting ?_, fun e => (hr.tickled e).goto ht .outside,
      hr.front⟩
    intro r hr
    cases hr
  · rw [he]
    have hold : ∀ j ∈ m1.m_timers, m1.heap j = s.mgr.heap j := by
      intro j hj
      rw [hheap, Function.update_of_ne]
      intro heq
      subst heq
      exact h1.apart j List.mem_cons_self hj
    have hin : ∀ j ∈ m1.m_timers, j ∈ s.mgr.m_timers := fun j hj => (hmem j).mpr (.inr hj)
    have hi := hout.mem hcb
    refine timed_unlock (addTimer_spec h1) ?_ (fun j hj => ?_) hr.waiting ht
      (fun ht => h.tickled (htick ▸ ht)) fun ht j hj => ?_
    · rw [hheap, Function.update_self]
      refine Timer.within_add rfl (hw hi) ?_
      cases from_now with
      | true => exact Nat.le_refl _
      | false =>
        -- the reading from which the old deadline was counted
        obtain ⟨h1, h2⟩ := h.within i hi
        show ((s.mgr.heap i).m_next - (s.mgr.heap i).m_ms).toNat ≤ now.toNat
        rw [UInt64.toNat_sub_of_le _ _ (UInt64.le_iff_toNat_le.mpr h1)]
        omega
    · rw [hold j hj]
      exact hr.within j (hin j hj)
    · rw [hold j hj]
      exact h.front (htick ▸ ht) j (hin j hj)

/-! ## timers that go back without notifying -/

theorem Timed.refresh (h : Timed s) (hout : Out [] s.mgr) (hc : s.clock ≤ now)
    (hw : i ∈ s.mgr.m_timers → now.toNat + (s.mgr.heap i).m_ms.toNat < 2 ^ 64) :
    Timed ((s.read now).setMgr (s.mgr.refresh i now).2) := by
  have hr := h.read hc
  by_cases hcb : (s.mgr.heap i).m_cb = none
  · rw [refresh_empty hcb]
    exact hr
  · have hi := hout.mem hcb
    obtain ⟨-, -, hmem, hheap, -, htick, -⟩ := @refresh_spec _ _ _ _ now hout hcb
    refine ⟨fun j hj => ?_, hr.waiting, fun ht => h.tickled (htick ▸ ht), fun ht j hj => ?_⟩
    · show ((s.mgr.refresh i now).2.heap j).Within now
      rw [hheap]
      by_cases e : j = i
      · subst e
        rw [Function.update_self]
        exact Timer.within_add rfl (hw hi) (Nat.le_refl _)
      · rw [Function.update_of_ne e]
        exact hr.within j ((hmem j).mp hj)
    · have hb := h.front (htick ▸ ht) j ((hmem j).mp hj)
      show NotBefore s.earliest ((s.mgr.refresh i now).2.heap j).m_next
      rw [hheap]
      by_cases e : j = i
      · subst e
        rw [Function.update_self]
        exact hb.mono ((h.within j hi).le_add hc (hw hi))
      · rw [Function.update_of_ne e]
        exact hb

/-- what a `listExpiredCb` delivers is due, if it reports no rollover while a timer is not -/
theorem due_listExpiredCb (hout : Out [] m) {now : UInt64} (addr : ℕ)
    (hroll : (m.detectClockRollover now).1 = true → ∀ i ∈ m.m_timers, (m.heap i).m_next ≤ now) :
    ∃ X R, m.m_timers = X ++ R ∧
      (m.listExpiredCb now addr).1 = X.map (fun i => (i, (m.heap i).m_cb)) ∧
      (∀ j ∈ X, (m.heap j).m_next.toNat ≤ now.toNat) ∧
      (∀ j ∈ (m.listExpiredCb now addr).2.m_timers,
        j ∉ X ∧ j ∈ m.m_timers ∧ (m.listExpiredCb now addr).2.heap j = m.heap j ∨
        j ∈ X ∧ (m.heap j).m_recurring = true ∧
          (m.listExpiredCb now addr).2.heap j = { m.heap j with m_next := now + (m.heap j).m_ms }) := by
  obtain ⟨X, R, he, -, hcbs, hmem, hheap, -, -, -, hdue⟩ := listExpiredCb_spec hout now addr
  have hnd := hout.sorted.nodup
  rw [he] at hnd
  refine ⟨X, R, he, hcbs, fun j hj => ?_, fun j hj => ?_⟩
  · cases hr : (m.detectClockRollover now).1 with
    | true =>
      refine UInt64.le_iff_toNat_le.mp (hroll hr j ?_)
      rw [he]
      exact List.mem_append_left _ hj
    | false => exact (hdue hr).1 j hj
  · have hheapj := hheap j
    by_cases hjX : j ∈ X
    · have hr : (m.heap j).m_recurring = true :=
        ((hmem j).mp hj).elim (fun hR => absurd hR (List.disjoint_of_nodup_append hnd hjX)) And.right
      rw [if_pos hjX, Timer.delivered, if_pos hr] at hheapj
      exact .inr ⟨hjX, hr, hheapj⟩
    · rw [if_neg hjX] at hheapj
      refine .inl ⟨hjX, ?_, hheapj⟩
      rw [he]
      exact List.mem_append_right _ (((hmem j).mp hj).resolve_right fun hj => hjX hj.1)

theorem Timed.listExpiredCb (h : Timed s) (hout : Out [] s.mgr) {tid : Tid} {addr : ℕ}
    (hcan : s.CanMake tid now addr) (log : List (Event W F))
    (hroll : (s.mgr.detectClockRollover now).1 = true →
      ∀ i ∈ s.mgr.m_timers, (s.mgr.heap i).m_next ≤ now)
    (hw : ∀ i ∈ s.mgr.m_timers, (s.mgr.heap i).m_recurring = true →
      (s.mgr.heap i).m_next ≤ now → now.toNat + (s.mgr.heap i).m_ms.toNat < 2 ^ 64) :
    Timed (((s.setMgr (s.mgr.listExpiredCb now addr).2).goto tid .outside).record log) := by
  obtain ⟨-, -, -, -, -, -, -, -, htick, -⟩ := listExpiredCb_spec hout now addr
  obtain ⟨X, R, he, -, hX, hafter⟩ := due_listExpiredCb hout addr hroll
  have hin : ∀ j ∈ X, j ∈ s.mgr.m_timers := fun j hj => by
    rw [he]
    exact List.mem_append_left _ hj
  have hlt : ∀ j ∈ X, (s.mgr.heap j).m_recurring = true →
      now.toNat + (s.mgr.heap j).m_ms.toNat < 2 ^ 64 := fun j hj hrec =>
    hw j (hin j hj) hrec (UInt64.le_iff_toNat_le.mpr (hX j hj))
  refine ⟨fun j hj => ?_, waiting_goto (s := s) h.waiting ?_, fun ht => ?_, fun ht j hj => ?_⟩
  · show ((s.mgr.listExpiredCb now addr).2.heap j).Within s.clock
    rcases hafter j hj with ⟨-, hj', hk⟩ | ⟨hjX, hrec, hk⟩
    · rw [hk]
      exact h.within j hj'
    · rw [hk]
      exact Timer.within_add rfl (hlt j hjX hrec) (h.waiting tid now hcan.1)
  · intro r hr
    cases hr
  · exact Notified.goto (s := s) (h.tickled (htick ▸ ht)) hcan.not_owing .outside
  · show NotBefore s.earliest ((s.mgr.listExpiredCb now addr).2.heap j).m_next
    rcases hafter j hj with ⟨-, hj', hk⟩ | ⟨hjX, hrec, hk⟩
    · rw [hk]
      exact h.front (htick ▸ ht) j hj'
    · rw [hk]
      refine (h.front (htick ▸ ht) j (hin j hjX)).mono ?_
      show (s.mgr.heap j).m_next.toNat ≤ (now + (s.mgr.heap j).m_ms).toNat
      rw [toNat_add_of_lt (hlt j hjX hrec)]
      exact Nat.le_trans (hX j hjX) (Nat.le_add_right _ _)

theorem Timed.getNextTimer (h : Timed s) (hout : Out [] s.mgr) (hc : s.clock ≤ now) :
    Timed (((s.read now).poll).setMgr (s.mgr.getNextTimer now).2) := by
  have hr := h.read hc
  rw [getNextTimer_snd]
  refine ⟨hr.within, hr.waiting, fun ht => ?_, fun _ j hj => ?_⟩
  · exact absurd ht (by simp [State.setMgr, setTickled])
  · have hj' : j ∈ s.mgr.m_timers := hj
    show NotBefore (s.mgr.m_timers.head?.map fun i => (s.mgr.heap i).m_next) (s.mgr.heap j).m_next
    cases hh : s.mgr.m_timers.head? with
    | none =>
      rw [List.head?_eq_none_iff.mp hh] at hj'
      exact absurd hj' List.not_mem_nil
    | some next => exact UInt64.le_iff_toNat_le.mpr (head_earliest hout hh hj')

theorem Timed.cancel (h : Timed s) (hout : Out [] s.mgr) (i : ℕ) (log : List (Event W F)) :
    Timed ((s.setMgr (s.mgr.cancel i).2).record log) := by
  obtain ⟨-, -, hafter, -, -, -, htick, -⟩ := cancel_spec hout i
  refine ⟨fun j hj => ?_, h.waiting, fun ht => h.tickled (htick ▸ ht), fun ht j hj => ?_⟩
  · obtain ⟨hj', he⟩ := hafter j hj
    show ((s.mgr.cancel i).2.heap j).Within s.clock
    rw [he]
    exact h.within j hj'
  · obtain ⟨hj', he⟩ := hafter j hj
    show NotBefore s.earliest ((s.mgr.cancel i).2.heap j).m_next
    rw [he]
    exact h.front (htick ▸ ht) j hj'

/-- **One step keeps what carries the wake-ups.** -/
theorem timed_step {s' : State Tid W F} (h : Timed s) (hout : Out [] s.mgr) {a : Act Tid W F}
    (ha : InTime s a ∧ NoRollover s a) (hst : step s a = some s') : Timed s' := by
  obtain ⟨ha, hroll⟩ := ha
  cases step_cases hst with
  | FiberGetCurrentTimeMs tid now ht =>
    have hr := h.read ha
    refine ⟨hr.within, waiting_goto hr.waiting ?_, fun e => ?_, hr.front⟩
    · intro r hr
      obtain rfl := Pc.waiting.inj hr
      exact Nat.le_refl _
    · exact (hr.tickled e).goto (not_owing_outside ht) _
  | addTimer tid ms cb recurring now addr hcan =>
    exact h.addNew hout hcan (ha now hcan.reading)
  | addConditionTimer tid ms cb weak_cond recurring now addr hcan =>
    exact h.addNew hout hcan (ha now hcan.reading)
  | cancel tid i =>
    exact h.cancel hout i _
  | refresh tid i now =>
    exact h.refresh hout ha.1 ha.2
  | reset tid i ms from_now now hcan =>
    exact h.reset hout hcan ha.1 ha.2
  | listExpiredCb tid now addr hcan =>
    exact h.listExpiredCb hout hcan _ (hroll now hcan.reading) (ha now hcan.reading)
  | getNextTimer tid now =>
    exact h.getNextTimer hout ha
  | onTimerInsertedAtFront tid =>
    refine ⟨h.within, waiting_goto (s := s) h.waiting ?_, fun _ => .inl rfl, h.front⟩
    intro r hr
    cases hr
  | release i =>
    have hnext : ∀ j, ((s.mgr.release i).heap j).m_next = (s.mgr.heap j).m_next :=
      modify_congr Timer.m_next rfl
    have hms : ∀ j, ((s.mgr.release i).heap j).m_ms = (s.mgr.heap j).m_ms :=
      modify_congr Timer.m_ms rfl
    refine ⟨fun j hj => ?_, h.waiting, h.tickled, fun ht j hj => ?_⟩
    · show ((s.mgr.release i).heap j).Within s.clock
      unfold Timer.Within
      rw [hnext, hms]
      exact h.within j hj
    · show NotBefore s.earliest ((s.mgr.release i).heap j).m_next
      rw [hnext]
      exact h.front ht j hj

theorem timed_reach {now : UInt64} (h : (timers now : Machine (State Tid W F) _).Reach
    (fun s a => InTime s a ∧ NoRollover s a) s) : Timed s := by
  refine h.inv_with (fun _ hr => (past_reach hr.reachable).1) ?_ fun s a s' hout ih ha hst =>
    timed_step ih hout ha hst
  exact ⟨fun i hi => absurd hi List.not_mem_nil, fun _ _ e => (by cases e), fun e => absurd e (by
    simp [timers, start, Manager.start]), fun _ i hi => absurd hi List.not_mem_nil⟩

/-- **No timer wake-up is missed**, as long as no rollover is reported while a timer is not due. -/
theorem notified_reach {now : UInt64} (h : (timers now : Machine (State Tid W F) _).Reach
    (fun s a => InTime s a ∧ NoRollover s a) s) :
    Notified s ∨ ∀ i ∈ s.mgr.m_timers, NotBefore s.earliest (s.mgr.heap i).m_next := by
  have ht := timed_reach h
  cases htick : s.mgr.m_tickled with
  | true => exact .inl (ht.tickled htick)
  | false => exact .inr (ht.front htick)

/-- a poller was told 110; a timer due at 115 does not notify, one due at 108 does, and its reading was
overtaken before it got the lock -/
theorem notified_two : ∃ s : State (Fin 2) Unit Unit, s.earliest = some 110 ∧
    s.mgr.m_timers = [2, 1, 0] ∧ s.thread 1 = .owing 1 ∧
    (Notified s ∨ ∀ i ∈ s.mgr.m_timers, NotBefore s.earliest (s.mgr.heap i).m_next) := by
  let as : List (Act (Fin 2) Unit Unit) := [.FiberGetCurrentTimeMs 0 100,
    .addTimer 0 10 (some ()) true 7, .onTimerInsertedAtFront 0, .getNextTimer 1 100,
    .FiberGetCurrentTimeMs 0 101, .addTimer 0 14 (some ()) false 8, .FiberGetCurrentTimeMs 1 105,
    .refresh 0 0 106, .addTimer 1 3 (some ()) false 9]
  have h : ((timers 100).execIf (fun s a => InTime s a ∧ NoRollover s a) (start 100) as).map
      (fun s => (s.earliest, s.mgr.m_timers, s.thread 1)) =
        some (some 110, [2, 1, 0], .owing 1) := by decide +kernel
  obtain ⟨s, hs, e⟩ := Option.map_eq_some_iff.mp h
  obtain ⟨e1, e2, e3⟩ := by simpa only [Prod.mk.injEq] using e
  exact ⟨s, e1, e2, e3, notified_reach (.of_execIf as .init hs)⟩

/-- the reading of thread 0 is overtaken by more than an hour: its `listExpiredCb` reports a rollover,
and the recurring timer is due earlier than the poller was told -/
theorem not_notified : ¬ ∀ s : State (Fin 2) Unit Unit,
    (timers 10000000 : Machine (State (Fin 2) Unit Unit) _).Reach InTime s →
      Notified s ∨ ∀ i ∈ s.mgr.m_timers, NotBefore s.earliest (s.mgr.heap i).m_next := by
  intro hall
  let as : List (Act (Fin 2) Unit Unit) := [.FiberGetCurrentTimeMs 1 10000000,
    .addTimer 1 4000000 (some ()) true 7, .onTimerInsertedAtFront 1,
    .FiberGetCurrentTimeMs 0 10000001, .FiberGetCurrentTimeMs 1 13600002, .listExpiredCb 1 8,
    .refresh 1 0 13600002, .getNextTimer 1 13600002, .listExpiredCb 0 8]
  have h : ((timers 10000000).execIf InTime (start 10000000) as).map
      (fun s => (s.earliest, s.mgr.m_timers, (s.mgr.heap 0).m_next, s.notified, s.thread 0,
        s.thread 1)) =
        some (some 17600002, [0], 14000001, false, .outside, .outside) := by decide +kernel
  obtain ⟨s, hs, e⟩ := Option.map_eq_some_iff.mp h
  obtain ⟨e1, e2, e3, e4, e6, e7⟩ := by simpa only [Prod.mk.injEq] using e
  have hs := hall s (.of_execIf as .init hs)
  rw [Notified, e1, e2, e4] at hs
  rcases hs with (hn | ⟨tid, ht⟩) | hd
  · cases hn
  · match tid with
    | 0 =>
      rw [e6] at ht
      cases ht
    | 1 =>
      rw [e7] at ht
      cases ht
  · have hd := hd 0 (List.mem_singleton_self 0)
    rw [e3] at hd
    exact absurd (show (17600002 : UInt64) ≤ 14000001 from hd) (by decide)

end
end Fiber
end CppCores
