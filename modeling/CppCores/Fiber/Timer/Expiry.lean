import CppCores.Fiber.Timer.Wake

/-!
# FiberTimerManager: which timers `listExpiredCb` takes

A timer is due if it is not after the clock reading, or at a rollover.  Where the search for the end
of the expired timers begins depends on the address of the timer that stands for the reading, but
the loop behind it runs over the timers of that very deadline, so that the end does not
(`expiredEnd_eq`): `listExpiredCb` takes those timers of the set that are due, in order.

* `listExpiredCb_eq`       the operation without the search;
* `expires_reach`          **what it delivers and what it leaves behind**;
* `getNextTimer_agrees`    the time that `getNextTimer` answers is the time until a timer is due.
-/

set_option linter.unusedSectionVars false

namespace CppCores
namespace Fiber
open OrderedSet

namespace Manager
variable {W F : Type*} {m : Manager W F} {i : ℕ} {now : UInt64}

/-- the timer is taken by `listExpiredCb` at the reading `now` -/
def due (m : Manager W F) (now : UInt64) (i : ℕ) : Bool :=
  (m.detectClockRollover now).1 || decide ((m.heap i).m_next ≤ now)

/-- the timers that are due, in the order of the set -/
def expired (m : Manager W F) (now : UInt64) : List ℕ := m.m_timers.filter (m.due now)

/-- the others -/
def pending (m : Manager W F) (now : UInt64) : List ℕ := m.m_timers.filter fun i => !m.due now i

theorem due_iff : m.due now i = true ↔
    (m.detectClockRollover now).1 = true ∨ (m.heap i).m_next ≤ now := by
  rw [due, Bool.or_eq_true, decide_eq_true_eq]

theorem mem_expired : i ∈ m.expired now ↔ i ∈ m.m_timers ∧ m.due now i = true := List.mem_filter

theorem mem_pending : i ∈ m.pending now ↔ i ∈ m.m_timers ∧ m.due now i = false := by
  rw [pending, List.mem_filter, Bool.not_eq_true']

/-- **The end of the expired timers does not depend on the address of `now_timer`.** -/
theorem expiredEnd_eq (h : Out [] m) (now : UInt64) (addr : ℕ) :
    m.expiredEnd (m.detectClockRollover now).1 now addr = (m.expired now, m.pending now) := by
  obtain ⟨happ, hdue⟩ := expiredEnd_spec h (m.detectClockRollover now).1 now addr
  set it := m.expiredEnd (m.detectClockRollover now).1 now addr with hit
  have hfront : ∀ j ∈ it.1, m.due now j = true := by
    intro j hj
    cases hroll : (m.detectClockRollover now).1 with
    | true => exact due_iff.mpr (.inl hroll)
    | false => exact due_iff.mpr (.inr (UInt64.le_iff_toNat_le.mpr ((hdue hroll).1 j hj)))
  have hback : ∀ j ∈ it.2, m.due now j = false := by
    intro j hj
    cases hroll : (m.detectClockRollover now).1 with
    | true =>
      rw [hit, hroll] at hj
      exact absurd hj List.not_mem_nil
    | false =>
      have hlt := (hdue hroll).2 j hj
      rw [due, hroll, Bool.false_or, decide_eq_false_iff_not, UInt64.le_iff_toNat_le]
      exact Nat.not_le_of_lt hlt
  have hexp : m.expired now = it.1 := by
    rw [expired, happ, List.filter_append, List.filter_eq_self.mpr hfront,
      List.filter_eq_nil_iff.mpr fun j hj => by rw [hback j hj]; exact Bool.false_ne_true,
      List.append_nil]
  have hpend : m.pending now = it.2 := by
    rw [pending, happ, List.filter_append,
      List.filter_eq_nil_iff.mpr fun j hj => by rw [hfront j hj]; exact Bool.false_ne_true,
      List.filter_eq_self.mpr fun j hj => by rw [hback j hj]; rfl, List.nil_append]
  rw [hexp, hpend]

/-- the early return is right: if the first timer is not due, none is -/
theorem expired_nil (h : Out [] m) {first : ℕ} {l : List ℕ} (hl : m.m_timers = first :: l)
    (hroll : (m.detectClockRollover now).1 = false) (hlt : (m.heap first).m_next > now) :
    m.expired now = [] ∧ m.pending now = m.m_timers := by
  have hnot : ∀ j ∈ m.m_timers, m.due now j = false := by
    intro j hj
    have hfirst := head_earliest h (by rw [hl]; rfl) hj
    have hlt' := UInt64.lt_iff_toNat_lt.mp hlt
    rw [due, hroll, Bool.false_or, decide_eq_false_iff_not, UInt64.le_iff_toNat_le]
    omega
  constructor
  · exact List.filter_eq_nil_iff.mpr fun j hj => by rw [hnot j hj]; exact Bool.false_ne_true
  · exact List.filter_eq_self.mpr fun j hj => by rw [hnot j hj]; rfl

/-- **`listExpiredCb` takes the timers that are due out of the set and delivers them.** -/
theorem listExpiredCb_eq (h : Out [] m) (hne : m.m_timers ≠ []) (now : UInt64) (addr : ℕ) :
    m.listExpiredCb now addr = (m.expired now).foldl (deliver now)
      ([], (m.detectClockRollover now).2.setTimers (m.pending now)) := by
  cases hl : m.m_timers with
  | nil => exact absurd hl hne
  | cons first l =>
    have hlist : m.listExpiredCb now addr =
        if (!(m.detectClockRollover now).1 && decide ((m.heap first).m_next > now)) = true then
          ([], (m.detectClockRollover now).2)
        else ((m.detectClockRollover now).2.expiredEnd (m.detectClockRollover now).1 now addr).1.foldl
          (deliver now) ([], (m.detectClockRollover now).2.setTimers
            ((m.detectClockRollover now).2.expiredEnd (m.detectClockRollover now).1 now addr).2) := by
      unfold listExpiredCb
      rw [hl]
      rfl
    rw [hlist]
    split
    · rename_i hearly
      obtain ⟨hroll, hlt⟩ := by simpa using hearly
      obtain ⟨hexp, hpend⟩ := expired_nil h hl hroll hlt
      rw [hexp, hpend]
      rfl
    · have hend : (m.detectClockRollover now).2.expiredEnd (m.detectClockRollover now).1 now addr =
          (m.expired now, m.pending now) := expiredEnd_eq h now addr
      rw [hend]

/-- **The result does not depend on the address of `now_timer`.** -/
theorem listExpiredCb_addr (h : Out [] m) (now : UInt64) (addr addr' : ℕ) :
    m.listExpiredCb now addr = m.listExpiredCb now addr' := by
  cases hl : m.m_timers with
  | nil =>
    unfold listExpiredCb
    rw [hl]
  | cons first l =>
    have hne : m.m_timers ≠ [] := by
      rw [hl]
      exact List.cons_ne_nil _ _
    rw [listExpiredCb_eq h hne, listExpiredCb_eq h hne]

/-- what `listExpiredCb` is for: `r` are the callbacks it appends, and the manager afterwards -/
structure Expires (m : Manager W F) (now : UInt64) (r : List (ℕ × Option (Callback W F)) × Manager W F) :
    Prop where
  /-- the callbacks of the timers that are due, in the order of the set -/
  delivered : r.1 = (m.expired now).map fun i => (i, (m.heap i).m_cb)
  once : (m.expired now).Nodup
  increasing : (m.expired now).Pairwise fun i j =>
    Timer.Comparator (some (m.heap i)) (some (m.heap j)) = true
  /-- the timers that are not due stay as they are -/
  kept : ∀ i ∈ m.pending now, i ∈ r.2.m_timers ∧ r.2.heap i = m.heap i
  rearmed : ∀ i ∈ m.expired now, (m.heap i).m_recurring = true →
    i ∈ r.2.m_timers ∧ r.2.heap i = { m.heap i with m_next := now + (m.heap i).m_ms }
  ended : ∀ i ∈ m.expired now, (m.heap i).m_recurring = false →
    i ∉ r.2.m_timers ∧ r.2.heap i = { m.heap i with m_cb := none }
  others : ∀ i ∉ m.m_timers, i ∉ r.2.m_timers ∧ r.2.heap i = m.heap i
  sorted : r.2.m_timers.Pairwise fun i j =>
    Timer.Comparator (some (r.2.heap i)) (some (r.2.heap j)) = true

theorem pairwise_comparator {l : List ℕ} (h : Sorted m.key l) : l.Pairwise fun i j =>
    Timer.Comparator (some (m.heap i)) (some (m.heap j)) = true := by
  refine List.Pairwise.imp ?_ h
  intro i j hlt
  exact (Timer.Comparator_eq _ _).mpr hlt

theorem listExpiredCb_expires (h : Out [] m) (hne : m.m_timers ≠ []) (now : UInt64) (addr : ℕ) :
    m.Expires now (m.listExpiredCb now addr) := by
  have hout : Out (m.expired now) ((m.detectClockRollover now).2.setTimers (m.pending now)) := by
    have hsplit := (expiredEnd_spec h (m.detectClockRollover now).1 now addr).1
    rw [expiredEnd_eq h] at hsplit
    exact (h.detectClockRollover now).erase_front hsplit
  rw [listExpiredCb_eq h hne]
  obtain ⟨hout', hcbs, hmem, hheap, -, -, -⟩ := @deliver_foldl _ _ _ now _ hout []
  set r := (m.expired now).foldl (deliver now)
    ([], (m.detectClockRollover now).2.setTimers (m.pending now)) with hr
  have hexp : ∀ i ∈ m.expired now, i ∉ m.pending now := by
    intro i hi hp
    have h1 := (mem_expired.mp hi).2
    rw [(mem_pending.mp hp).2] at h1
    cases h1
  have hself : ∀ i ∈ m.expired now, r.2.heap i = (m.heap i).delivered now := by
    intro i hi
    rw [hheap i, if_pos hi]
    rfl
  have hother : ∀ i ∉ m.expired now, r.2.heap i = m.heap i := by
    intro i hi
    rw [hheap i, if_neg hi]
    rfl
  constructor
  · rw [hcbs, List.nil_append]
    rfl
  · exact h.sorted.nodup.filter _
  · exact pairwise_comparator (h.sorted.sublist List.filter_sublist)
  · intro i hi
    exact ⟨(hmem i).mpr (.inl hi), hother i fun he => hexp i he hi⟩
  · intro i hi hrec
    refine ⟨(hmem i).mpr (.inr ⟨hi, hrec⟩), ?_⟩
    rw [hself i hi, Timer.delivered, if_pos hrec]
  · intro i hi hrec
    constructor
    · intro hm
      rcases (hmem i).mp hm with hp | ⟨-, hr'⟩
      · exact hexp i hi hp
      · have hr' : (m.heap i).m_recurring = true := hr'
        rw [hrec] at hr'
        cases hr'
    · rw [hself i hi, Timer.delivered, if_neg (by rw [hrec]; exact Bool.false_ne_true)]
  · intro i hi
    refine ⟨fun hm => hi ?_, hother i fun he => hi (mem_expired.mp he).1⟩
    exact ((hmem i).mp hm).elim (fun hp => (mem_pending.mp hp).1) fun he => (mem_expired.mp he.1).1
  · exact pairwise_comparator hout'.sorted

/-! ## what a poller is told -/

theorem expired_eq_nil_iff (h : Out [] m) {first : ℕ} {l : List ℕ} (hl : m.m_timers = first :: l)
    (hle : m.m_last_execute_time.toNat ≤ now.toNat) :
    m.expired now = [] ↔ now.toNat < (m.heap first).m_next.toNat := by
  have hroll := no_rollover hle
  constructor
  · intro he
    by_contra hge
    have hfirst : first ∈ m.expired now := by
      refine mem_expired.mpr ⟨by rw [hl]; exact List.mem_cons_self, due_iff.mpr (.inr ?_)⟩
      exact UInt64.le_iff_toNat_le.mpr (Nat.le_of_not_lt hge)
    rw [he] at hfirst
    exact List.not_mem_nil hfirst
  · intro hlt
    exact (expired_nil h hl hroll (UInt64.lt_iff_toNat_lt.mpr hlt)).1

theorem listExpiredCb_eq_nil_iff (h : Out [] m) {first : ℕ} {l : List ℕ}
    (hl : m.m_timers = first :: l) (hle : m.m_last_execute_time.toNat ≤ now.toNat) (addr : ℕ) :
    (m.listExpiredCb now addr).1 = [] ↔ now.toNat < (m.heap first).m_next.toNat := by
  have hne : m.m_timers ≠ [] := by
    rw [hl]
    exact List.cons_ne_nil _ _
  rw [(listExpiredCb_expires h hne now addr).delivered, List.map_eq_nil_iff,
    expired_eq_nil_iff h hl hle]

theorem getNextTimer_fst {first : ℕ} {l : List ℕ} (hl : m.m_timers = first :: l) (now : UInt64) :
    (m.getNextTimer now).1.toNat = (m.heap first).m_next.toNat - now.toNat := by
  have hget : (m.getNextTimer now).1 =
      if now ≥ (m.heap first).m_next then 0 else (m.heap first).m_next - now := by
    have hl' : (m.setTickled false).m_timers = first :: l := hl
    unfold getNextTimer
    simp only [hl']
    split
    · rename_i hge
      exact (if_pos hge).symm
    · rename_i hlt
      exact (if_neg hlt).symm
  rw [hget]
  split
  · rename_i hge
    have hge' := UInt64.le_iff_toNat_le.mp hge
    rw [Nat.sub_eq_zero_of_le hge']
    rfl
  · rename_i hlt
    have hlt' := UInt64.lt_iff_toNat_lt.mp (UInt64.not_le.mp hlt)
    exact UInt64.toNat_sub_of_le _ _ (UInt64.le_iff_toNat_le.mpr (Nat.le_of_lt hlt'))

/-- what `getNextTimer` answers and what `listExpiredCb` does next fit together -/
structure Agrees (m : Manager W F) (now : UInt64) : Prop where
  zero : ∀ addr, (m.getNextTimer now).1 = 0 ↔ ((m.getNextTimer now).2.listExpiredCb now addr).1 ≠ []
  before : ∀ addr t, (m.getNextTimer now).1 ≠ 0 → now.toNat ≤ t.toNat →
    t.toNat < now.toNat + (m.getNextTimer now).1.toNat →
      ((m.getNextTimer now).2.listExpiredCb t addr).1 = []
  reading : (m.getNextTimer now).1 ≠ 0 → now.toNat + (m.getNextTimer now).1.toNat < 2 ^ 64
  after : ∀ addr t, (m.getNextTimer now).1 ≠ 0 →
    t.toNat = now.toNat + (m.getNextTimer now).1.toNat →
      ((m.getNextTimer now).2.listExpiredCb t addr).1 ≠ []

theorem agrees (h : Out [] m) (hne : m.m_timers ≠ [])
    (hle : m.m_last_execute_time.toNat ≤ now.toNat) : m.Agrees now := by
  cases hl : m.m_timers with
  | nil => exact absurd hl hne
  | cons first l =>
    have hd := getNextTimer_fst hl now
    have hbound := (m.heap first).m_next.toNat_lt
    have hzero : (m.getNextTimer now).1 = 0 ↔ (m.getNextTimer now).1.toNat = 0 :=
      UInt64.toNat_inj.symm
    have hlist : ∀ (addr : ℕ) (t : UInt64), now.toNat ≤ t.toNat →
        (((m.getNextTimer now).2.listExpiredCb t addr).1 = [] ↔
          t.toNat < (m.heap first).m_next.toNat) := by
      intro addr t ht
      rw [getNextTimer_snd]
      exact listExpiredCb_eq_nil_iff (h.setTickled false) hl (Nat.le_trans hle ht) addr
    constructor
    · intro addr
      rw [hzero, ne_eq, hlist addr now (Nat.le_refl _), hd]
      omega
    · intro addr t hpos ht hlt
      rw [ne_eq, hzero] at hpos
      rw [hlist addr t ht]
      omega
    · intro hpos
      rw [ne_eq, hzero] at hpos
      omega
    · intro addr t hpos ht
      rw [ne_eq, hzero] at hpos
      rw [ne_eq, hlist addr t (by omega)]
      omega

end Manager

/-! ## every state reached -/

section
variable {Tid W F : Type*} [DecidableEq Tid] {s : State Tid W F} {start : UInt64}
open Manager

/-- **`listExpiredCb` delivers each timer that is due once and in order, keeps the others, re-arms the
recurring ones and ends the rest**, wherever its `now_timer` is.  No callback that it delivers is empty
unless a client has passed one to `addTimer`. -/
theorem expires_reach (h : (timers start : Machine (State Tid W F) _).Reachable s)
    (hne : s.mgr.m_timers ≠ []) (now : UInt64) :
    (∀ addr, s.mgr.Expires now (s.mgr.listExpiredCb now addr)) ∧
      (∀ addr addr', s.mgr.listExpiredCb now addr = s.mgr.listExpiredCb now addr') ∧
      ((timers start : Machine (State Tid W F) _).Reach NonEmpty s →
        ∀ i ∈ s.mgr.expired now, (s.mgr.heap i).m_cb ≠ none) := by
  have hout := (past_reach h).1
  refine ⟨listExpiredCb_expires hout hne now, listExpiredCb_addr hout now, fun hfull i hi => ?_⟩
  exact (filled_reach hfull).1 i (mem_expired.mp hi).1

/-- two timers are due at the reading itself, one of them recurring with the period 0, the other one with
an empty callback -/
theorem expires_tie : ∃ s : State Unit Unit Bool, s.mgr.expired 5 = [1, 0] ∧
    s.mgr.pending 5 = [2] ∧ ((∀ addr, s.mgr.Expires 5 (s.mgr.listExpiredCb 5 addr)) ∧
      (∀ addr addr', s.mgr.listExpiredCb 5 addr = s.mgr.listExpiredCb 5 addr') ∧
      ((timers 5 : Machine (State Unit Unit Bool) _).Reach NonEmpty s →
        ∀ i ∈ s.mgr.expired 5, (s.mgr.heap i).m_cb ≠ none)) := by
  let as : List (Act Unit Unit Bool) := [.FiberGetCurrentTimeMs () 5,
    .addTimer () 0 (some true) true 9, .onTimerInsertedAtFront (), .FiberGetCurrentTimeMs () 5,
    .addTimer () 0 none false 3, .FiberGetCurrentTimeMs () 5, .addTimer () 1 (some true) false 4]
  have h : ((timers 5).exec (Fiber.start 5) as).map (fun s => (s.mgr.expired 5, s.mgr.pending 5)) =
      some ([1, 0], [2]) := by decide
  obtain ⟨s, hs, e⟩ := Option.map_eq_some_iff.mp h
  obtain ⟨e1, e2⟩ := Prod.mk.inj e
  have hr : (timers 5 : Machine (State Unit Unit Bool) _).Reachable s := .of_exec as .init hs
  have hne : s.mgr.m_timers ≠ [] := by
    intro h0
    rw [expired, h0] at e1
    cases e1
  exact ⟨s, e1, e2, expires_reach hr hne 5⟩

/-- **`getNextTimer` and `listExpiredCb` agree** at every reading that is not before the last one of
`listExpiredCb`. -/
theorem getNextTimer_agrees (h : (timers start : Machine (State Tid W F) _).Reachable s)
    (hne : s.mgr.m_timers ≠ []) {now : UInt64} (hle : s.mgr.m_last_execute_time ≤ now) :
    s.mgr.Agrees now :=
  agrees (past_reach h).1 hne (UInt64.le_iff_toNat_le.mp hle)

/-- a poller is told 0 at the deadline, and 3 before it -/
theorem getNextTimer_agrees_three : ∃ s : State Unit Unit Bool,
    (s.mgr.getNextTimer 107).1 = 3 ∧ (s.mgr.getNextTimer 110).1 = 0 ∧ s.mgr.Agrees 107 ∧
      s.mgr.Agrees 110 := by
  let as : List (Act Unit Unit Bool) := [.FiberGetCurrentTimeMs () 100,
    .addTimer () 10 (some true) false 9]
  have h : ((timers 100).exec (Fiber.start 100) as).map (fun s => ((s.mgr.getNextTimer 107).1,
      (s.mgr.getNextTimer 110).1, s.mgr.m_timers, s.mgr.m_last_execute_time)) =
        some (3, 0, [0], 100) := by decide
  obtain ⟨s, hs, e⟩ := Option.map_eq_some_iff.mp h
  obtain ⟨e1, e2, e3, e4⟩ := by simpa only [Prod.mk.injEq] using e
  have hr : (timers 100 : Machine (State Unit Unit Bool) _).Reachable s := .of_exec as .init hs
  have hne : s.mgr.m_timers ≠ [] := by
    rw [e3]
    exact List.cons_ne_nil _ _
  refine ⟨s, e1, e2, getNextTimer_agrees hr hne ?_, getNextTimer_agrees hr hne ?_⟩
  · rw [e4]
    decide
  · rw [e4]
    decide

end
end Fiber
end CppCores
