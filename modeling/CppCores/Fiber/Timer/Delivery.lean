import CppCores.Fiber.Timer.Ops
import CppCores.Fiber.Timer.System

/-!
# FiberTimerManager: what is delivered over a run

`Adds m m' ev` says what one critical section does to the timers of the past: none of them is
scheduled again, and what it delivers was scheduled.  `adds_step` proves it of every step, and
`Past.step` carries what the log says over it.  The result is `timersOk_reach`: for every sequence
of operations and of clock readings the set is in order, a one-shot timer is delivered at most once,
and nothing is delivered after `cancel` answered true; and if no client passes an empty callback, the
set is linked with the callbacks, and `cancel` answers whether the timer was scheduled.
-/

set_option linter.unusedSectionVars false

namespace CppCores
namespace Fiber
open OrderedSet Manager
variable {Tid W F : Type*} [DecidableEq Tid]

/-- what holds of the timers after any run -/
structure TimersOk (s : State Tid W F) : Prop where
  /-- strictly sorted by `m_next`, then by address -/
  sorted : s.mgr.m_timers.Pairwise fun i j =>
    Timer.Comparator (some (s.mgr.heap i)) (some (s.mgr.heap j)) = true
  nodup : s.mgr.m_timers.Nodup
  /-- no `m_next` was written while the timer was in the set -/
  unmoved : s.mgr.moved = false
  scheduled : ∀ i, i ∈ s.mgr.m_timers ↔ (s.mgr.heap i).m_cb ≠ none
  oneShot : ∀ i, (s.mgr.heap i).m_recurring = false → (deliveries s.log).count i ≤ 1
  answer : ∀ i answer scheduled, .cancelled i answer scheduled ∈ s.log → answer = scheduled
  /-- nothing is delivered after `cancel` returned true -/
  silent : s.log.Pairwise fun e e' => ∀ i b cb, e = .cancelled i true b → e' ≠ .delivered i cb

section
variable {m m' : Manager W F} {ev log : List (Event W F)} {i : ℕ}

theorem mem_deliveries : i ∈ deliveries log ↔ ∃ cb, .delivered i cb ∈ log := by
  unfold deliveries
  rw [List.mem_filterMap]
  constructor
  · intro hex
    obtain ⟨e, he, h⟩ := hex
    cases e with
    | cancelled => simp at h
    | delivered j cb =>
      obtain rfl := Option.some.inj h
      exact ⟨cb, he⟩
  · intro hex
    obtain ⟨cb, h⟩ := hex
    exact ⟨_, h, rfl⟩

theorem deliveries_append : deliveries (log ++ ev) = deliveries log ++ deliveries ev :=
  List.filterMap_append

/-- one critical section, seen from the timers of the past -/
structure Adds (m m' : Manager W F) (ev : List (Event W F)) : Prop where
  count : m.count ≤ m'.count
  recurring : ∀ i < m.count, (m'.heap i).m_recurring = (m.heap i).m_recurring
  absent : ∀ i < m.count, i ∉ m.m_timers → i ∉ m'.m_timers
  delivered : ∀ i ∈ deliveries ev, i ∈ m.m_timers ∧
    ((m.heap i).m_recurring = false → i ∉ m'.m_timers)
  nodup : (deliveries ev).Nodup
  cancelled : ∀ i a b, .cancelled i a b ∈ ev → ev = [.cancelled i a b] ∧ (m.Filled → a = b) ∧
    (a = true → i < m.count ∧ i ∉ m'.m_timers)

/-- what the log says about the timers of the past -/
structure Past (m : Manager W F) (log : List (Event W F)) : Prop where
  known : ∀ i ∈ deliveries log, i < m.count
  ended : ∀ i ∈ deliveries log, (m.heap i).m_recurring = false → i ∉ m.m_timers
  cancelled : ∀ i b, .cancelled i true b ∈ log → i < m.count ∧ i ∉ m.m_timers
  oneShot : ∀ i, (m.heap i).m_recurring = false → (deliveries log).count i ≤ 1
  silent : log.Pairwise fun e e' => ∀ i b cb, e = .cancelled i true b → e' ≠ .delivered i cb

/-- `cancel` has answered whether the timer was scheduled -/
def Answered (log : List (Event W F)) : Prop :=
  ∀ i answer scheduled, .cancelled i answer scheduled ∈ log → answer = scheduled

theorem Manager.Out.lt_count (h : Out [] m) (hi : i ∈ m.m_timers) : i < m.count :=
  Nat.lt_of_not_le fun hle => h.fresh i hle (Out.alive (.inl hi))

/-- **A critical section keeps what the log says.** -/
theorem Past.step (hout : Out [] m) (h : Past m log) (ha : Adds m m' ev) : Past m' (log ++ ev) := by
  have hrec : ∀ i ∈ deliveries (log ++ ev), (m'.heap i).m_recurring = (m.heap i).m_recurring := by
    intro i hi
    rw [deliveries_append, List.mem_append] at hi
    refine ha.recurring i ?_
    exact hi.elim (h.known i) fun hi => hout.lt_count (ha.delivered i hi).1
  refine ⟨fun i hi => ?_, fun i hi hr => ?_, fun i b hm => ?_, fun i hr => ?_, ?_⟩
  · rw [deliveries_append, List.mem_append] at hi
    refine Nat.lt_of_lt_of_le ?_ ha.count
    exact hi.elim (h.known i) fun hi => hout.lt_count (ha.delivered i hi).1
  · rw [hrec i hi] at hr
    rw [deliveries_append, List.mem_append] at hi
    rcases hi with hi | hi
    · exact ha.absent i (h.known i hi) (h.ended i hi hr)
    · exact (ha.delivered i hi).2 hr
  · rcases List.mem_append.mp hm with hm | hm
    · obtain ⟨h1, h2⟩ := h.cancelled i b hm
      exact ⟨Nat.lt_of_lt_of_le h1 ha.count, ha.absent i h1 h2⟩
    · obtain ⟨h1, h2⟩ := (ha.cancelled i true b hm).2.2 rfl
      exact ⟨Nat.lt_of_lt_of_le h1 ha.count, h2⟩
  · rw [deliveries_append, List.count_append]
    by_cases hi : i ∈ deliveries ev
    · -- it was scheduled, so as a one-shot timer it was not delivered before
      have hr' : (m.heap i).m_recurring = false := by
        rw [← hrec i (by rw [deliveries_append]; exact List.mem_append_right _ hi)]
        exact hr
      have hnot : i ∉ deliveries log := fun hl => h.ended i hl hr' (ha.delivered i hi).1
      rw [List.count_eq_zero.mpr hnot, Nat.zero_add]
      exact List.nodup_iff_count_le_one.mp ha.nodup i
    · rw [List.count_eq_zero.mpr hi]
      by_cases hl : i ∈ deliveries log
      · rw [hrec i (by rw [deliveries_append]; exact List.mem_append_left _ hl)] at hr
        exact h.oneShot i hr
      · rw [List.count_eq_zero.mpr hl]
        exact Nat.zero_le _
  · refine List.pairwise_append.mpr ⟨h.silent, ?_, ?_⟩
    · by_cases hc : ∃ i a b, Event.cancelled i a b ∈ ev
      · obtain ⟨i, a, b, hm⟩ := hc
        rw [(ha.cancelled i a b hm).1]
        exact List.pairwise_singleton _ _
      · refine List.Pairwise.imp_of_mem (R := fun _ _ => True) ?_ (List.pairwise_of_forall fun _ _ => trivial)
        rintro e e' he - - i b cb rfl
        exact absurd ⟨i, true, b, he⟩ hc
    · rintro e he e' he' i b cb rfl rfl
      exact (h.cancelled i b he).2 (ha.delivered i (mem_deliveries.mpr ⟨cb, he'⟩)).1

/-! ## what each operation adds -/

theorem Adds.quiet (hc : m.count ≤ m'.count)
    (hr : ∀ i < m.count, (m'.heap i).m_recurring = (m.heap i).m_recurring)
    (ho : ∀ i < m.count, i ∉ m.m_timers → i ∉ m'.m_timers) : Adds m m' ([] : List (Event W F)) :=
  ⟨hc, hr, ho, fun _ h => absurd h List.not_mem_nil, List.nodup_nil,
    fun _ _ _ h => absurd h List.not_mem_nil⟩

theorem adds_inserted {t : Timer W F} {front : Bool}
    (h : Inserted (m.make t) m.count front m') : Adds m m' [] := by
  refine .quiet ?_ (fun i hi => ?_) fun i hi hn hm => ?_
  · rw [h.count]
    exact Nat.le_succ _
  · rw [h.heap]
    show (Function.update m.heap m.count t i).m_recurring = _
    rw [Function.update_of_ne (Nat.ne_of_lt hi)]
  · rcases (h.mem i).mp hm with rfl | hm
    · exact Nat.lt_irrefl _ hi
    · exact hn hm

theorem adds_cancel (h : Out [] m) (i : ℕ) :
    Adds m (m.cancel i).2 [.cancelled i (m.cancel i).1 (decide (i ∈ m.m_timers))] := by
  obtain ⟨hans, -, hafter, hout, hrec, hcount, -, -⟩ := cancel_spec h i
  refine ⟨Nat.le_of_eq hcount.symm, fun j _ => hrec j, fun j _ hn hj => hn (hafter j hj).1,
    fun j hj => absurd hj List.not_mem_nil, List.nodup_nil, fun j a b hj => ?_⟩
  obtain ⟨rfl, rfl, rfl⟩ := by simpa using hj
  refine ⟨rfl, fun hfilled => ?_, fun ha => ⟨h.lt_count (hout ha).1, (hout ha).2⟩⟩
  rw [hans, Bool.eq_iff_iff, Option.isSome_iff_ne_none, decide_eq_true_iff]
  exact ⟨h.mem, hfilled j⟩

theorem adds_refresh (h : Out [] m) (i : ℕ) (now : UInt64) : Adds m (m.refresh i now).2 [] := by
  by_cases hc : (m.heap i).m_cb = none
  · rw [refresh_empty hc]
    exact .quiet (Nat.le_refl _) (fun _ _ => rfl) fun _ _ hn => hn
  · obtain ⟨-, -, hmem, hheap, hcount, -, -⟩ := @refresh_spec _ _ _ _ now h hc
    refine .quiet (Nat.le_of_eq hcount.symm) (fun j _ => ?_) fun j _ hn hj => hn ((hmem j).mp hj)
    rw [hheap]
    by_cases e : j = i
    · rw [e, Function.update_self]
    · rw [Function.update_of_ne e]

theorem adds_reset (h : Out [] m) (i : ℕ) (ms : UInt64) (from_now : Bool) (now : UInt64) :
    Adds m (m.reset i ms from_now now).2.2 [] := by
  rcases @reset_spec _ _ _ i now h ms from_now with
    ⟨b, he⟩ | ⟨-, m1, h1, he, hmem, hheap, hcount, -, -⟩
  · rw [he]
    exact .quiet (Nat.le_refl _) (fun _ _ => rfl) fun _ _ hn => hn
  · have hins := addTimer_spec h1
    rw [he]
    refine .quiet (Nat.le_of_eq ?_) (fun j _ => ?_) fun j _ hn hj => ?_
    · rw [hins.count, hcount]
    · rw [hins.heap, hheap]
      by_cases e : j = i
      · rw [e, Function.update_self]
      · rw [Function.update_of_ne e]
    · exact hn ((hmem j).mpr ((hins.mem j).mp hj))

theorem deliveries_map (X : List ℕ) (f : ℕ → Option (Callback W F)) :
    deliveries ((X.map fun i => (i, f i)).map fun x => .delivered x.1 x.2) = X := by
  unfold deliveries
  rw [List.map_map, List.filterMap_map]
  exact List.filterMap_some

theorem adds_listExpiredCb (h : Out [] m) (now : UInt64) (addr : ℕ) :
    Adds m (m.listExpiredCb now addr).2
      ((m.listExpiredCb now addr).1.map fun x => .delivered x.1 x.2) := by
  obtain ⟨X, R, he, hout, hcbs, hmem, hheap, hcount, -, -, -⟩ := listExpiredCb_spec h now addr
  have hnd := h.sorted.nodup
  rw [he] at hnd
  have hdel : deliveries ((m.listExpiredCb now addr).1.map fun x => .delivered x.1 x.2) = X := by
    rw [hcbs, deliveries_map]
  refine ⟨Nat.le_of_eq hcount.symm, fun i _ => ?_, fun i _ hn hi => hn ?_, fun i hi => ?_, ?_,
    fun i a b hi => ?_⟩
  · rw [hheap i]
    unfold Timer.delivered
    by_cases hX : i ∈ X
    · rw [if_pos hX]
      by_cases hr : (m.heap i).m_recurring = true
      · rw [if_pos hr]
      · rw [if_neg hr]
    · rw [if_neg hX]
  · rw [he, List.mem_append]
    exact ((hmem i).mp hi).elim .inr fun hi => .inl hi.1
  · rw [hdel] at hi
    refine ⟨by rw [he]; exact List.mem_append_left _ hi, fun hr hm => ?_⟩
    rcases (hmem i).mp hm with hR | ⟨-, hr'⟩
    · exact List.disjoint_of_nodup_append hnd hi hR
    · rw [hr] at hr'
      exact absurd hr' (by simp)
  · rw [hdel]
    exact hnd.of_append_left
  · obtain ⟨x, -, hx⟩ := List.mem_map.mp hi
    exact absurd hx (by simp)

/-! ## no empty callbacks -/

theorem Manager.Filled.mono (h : m.Filled) (hcb : ∀ j ∈ m'.m_timers,
    j ∈ m.m_timers ∧ (m'.heap j).m_cb = (m.heap j).m_cb) : m'.Filled := by
  intro j hj
  obtain ⟨hj', he⟩ := hcb j hj
  rw [he]
  exact h j hj'

theorem filled_inserted {t : Timer W F} {front : Bool} (h : m.Filled) (ht : t.m_cb ≠ none)
    (hins : Inserted (m.make t) m.count front m') : m'.Filled := by
  intro j hj
  rw [hins.heap]
  show (Function.update m.heap m.count t j).m_cb ≠ none
  by_cases e : j = m.count
  · subst e
    rw [Function.update_self]
    exact ht
  · rw [Function.update_of_ne e]
    exact h j (((hins.mem j).mp hj).resolve_left e)

theorem filled_refresh (h : m.Filled) (hout : Out [] m) (i : ℕ) (now : UInt64) :
    (m.refresh i now).2.Filled := by
  by_cases hc : (m.heap i).m_cb = none
  · rw [refresh_empty hc]
    exact h
  · obtain ⟨-, -, hmem, hheap, -⟩ := @refresh_spec _ _ _ _ now hout hc
    refine h.mono fun j hj => ⟨(hmem j).mp hj, ?_⟩
    rw [hheap]
    by_cases e : j = i
    · rw [e, Function.update_self]
    · rw [Function.update_of_ne e]

theorem filled_reset (h : m.Filled) (hout : Out [] m) (i : ℕ) (ms : UInt64) (from_now : Bool)
    (now : UInt64) : (m.reset i ms from_now now).2.2.Filled := by
  rcases @reset_spec _ _ _ i now hout ms from_now with ⟨b, he⟩ | ⟨-, m1, h1, he, hmem, hheap, -⟩
  · rw [he]
    exact h
  · have hins := addTimer_spec h1
    rw [he]
    refine h.mono fun j hj => ⟨(hmem j).mpr ((hins.mem j).mp hj), ?_⟩
    rw [hins.heap, hheap]
    by_cases e : j = i
    · rw [e, Function.update_self]
    · rw [Function.update_of_ne e]

/-- a timer that is delivered keeps its callback if it goes back into the set -/
theorem filled_listExpiredCb (h : m.Filled) (hout : Out [] m) (now : UInt64) (addr : ℕ) :
    (m.listExpiredCb now addr).2.Filled := by
  obtain ⟨X, R, he, -, -, hmem, hheap, -⟩ := listExpiredCb_spec hout now addr
  have hnd := hout.sorted.nodup
  rw [he] at hnd
  refine h.mono fun j hj => ⟨?_, ?_⟩
  · rw [he, List.mem_append]
    exact ((hmem j).mp hj).elim .inr fun hj => .inl hj.1
  · rw [hheap]
    by_cases hX : j ∈ X
    · have hrec : (m.heap j).m_recurring = true :=
        ((hmem j).mp hj).elim (fun hR => absurd hR (List.disjoint_of_nodup_append hnd hX)) And.right
      rw [if_pos hX, Timer.delivered, if_pos hrec]
    · rw [if_neg hX]

end

/-! ## runs -/

section
variable {s s' : State Tid W F}

/-- **A step keeps the manager in order and adds to the log.** -/
theorem adds_step (h : Out [] s.mgr) {a : Act Tid W F} (hst : step s a = some s') :
    Out [] s'.mgr ∧ ∃ ev, s'.log = s.log ++ ev ∧ Adds s.mgr s'.mgr ev := by
  have hsame : Adds s.mgr s.mgr ([] : List (Event W F)) :=
    .quiet (Nat.le_refl _) (fun _ _ => rfl) fun _ _ hn => hn
  cases step_cases hst with
  | FiberGetCurrentTimeMs tid now =>
    exact ⟨h, [], (List.append_nil _).symm, hsame⟩
  | addTimer tid ms cb recurring now addr hc =>
    have hins := addNew_spec h ms (cb.map .fn) recurring now hc.2
    exact ⟨hins.out, [], (List.append_nil _).symm, adds_inserted hins⟩
  | addConditionTimer tid ms cb weak_cond recurring now addr hc =>
    have hins := addNew_spec h ms (some (.onTimer weak_cond cb)) recurring now hc.2
    exact ⟨hins.out, [], (List.append_nil _).symm, adds_inserted hins⟩
  | cancel tid i =>
    exact ⟨(cancel_spec h i).2.1, _, rfl, adds_cancel h i⟩
  | refresh tid i now =>
    refine ⟨?_, [], (List.append_nil _).symm, adds_refresh h i now⟩
    show Out [] (s.mgr.refresh i now).2
    by_cases hcb : (s.mgr.heap i).m_cb = none
    · rw [refresh_empty hcb]
      exact h
    · exact (refresh_spec h hcb).2.1
  | reset tid i ms from_now now =>
    refine ⟨?_, [], (List.append_nil _).symm, adds_reset h i ms from_now now⟩
    show Out [] (s.mgr.reset i ms from_now now).2.2
    rcases @reset_spec _ _ _ i now h ms from_now with ⟨b, he⟩ | ⟨-, m1, h1, he, -⟩
    · rw [he]
      exact h
    · rw [he]
      exact (addTimer_spec h1).out
  | listExpiredCb tid now addr =>
    obtain ⟨X, R, -, hout, -⟩ := listExpiredCb_spec h now addr
    exact ⟨hout, _, rfl, adds_listExpiredCb h now addr⟩
  | getNextTimer tid now =>
    refine ⟨?_, [], (List.append_nil _).symm, ?_⟩
    · show Out [] (s.mgr.getNextTimer now).2
      rw [getNextTimer_snd]
      exact h.setTickled false
    · show Adds s.mgr (s.mgr.getNextTimer now).2 []
      rw [getNextTimer_snd]
      exact .quiet (Nat.le_refl _) (fun _ _ => rfl) fun _ _ hn => hn
  | onTimerInsertedAtFront tid =>
    exact ⟨h, [], (List.append_nil _).symm, hsame⟩
  | release i =>
    have hr : ∀ j, ((s.mgr.release i).heap j).m_recurring = (s.mgr.heap j).m_recurring :=
      modify_congr Timer.m_recurring rfl
    exact ⟨h.release i, [], (List.append_nil _).symm, .quiet (Nat.le_refl _) (fun j _ => hr j)
      fun _ _ hn => hn⟩

theorem filled_step (h : s.mgr.Filled) (hout : Out [] s.mgr) {a : Act Tid W F} (ha : NonEmpty s a)
    (hst : step s a = some s') : s'.mgr.Filled := by
  cases step_cases hst with
  | FiberGetCurrentTimeMs tid now => exact h
  | addTimer tid ms cb recurring now addr hc =>
    refine filled_inserted h ?_ (addNew_spec hout ms (cb.map .fn) recurring now hc.2)
    exact fun e => ha (Option.map_eq_none_iff.mp e)
  | addConditionTimer tid ms cb weak_cond recurring now addr hc =>
    exact filled_inserted h (Option.some_ne_none _)
      (addNew_spec hout ms (some (.onTimer weak_cond cb)) recurring now hc.2)
  | cancel tid i =>
    obtain ⟨-, -, hafter, -⟩ := cancel_spec hout i
    refine h.mono fun j hj => ⟨(hafter j hj).1, ?_⟩
    show ((s.mgr.cancel i).2.heap j).m_cb = _
    rw [(hafter j hj).2]
  | refresh tid i now => exact filled_refresh h hout i now
  | reset tid i ms from_now now => exact filled_reset h hout i ms from_now now
  | listExpiredCb tid now addr => exact filled_listExpiredCb h hout now addr
  | getNextTimer tid now =>
    show (s.mgr.getNextTimer now).2.Filled
    rw [getNextTimer_snd]
    exact h
  | onTimerInsertedAtFront tid => exact h
  | release i =>
    have hcb : ∀ j, ((s.mgr.release i).heap j).m_cb = (s.mgr.heap j).m_cb :=
      modify_congr Timer.m_cb rfl
    exact h.mono fun j hj => ⟨hj, hcb j⟩

theorem past_reach {now : UInt64} (h : (timers now : Machine (State Tid W F) _).Reachable s) :
    Out [] s.mgr ∧ Past s.mgr s.log := by
  refine h.inv (I := fun s => Out [] s.mgr ∧ Past s.mgr s.log) ⟨start_out now, ?_⟩ fun s a s' ih _ hst => ?_
  · exact ⟨by simp [timers, start, deliveries], by simp [timers, start, deliveries],
      by simp [timers, start], fun i _ => by simp [timers, start, deliveries], List.Pairwise.nil⟩
  · obtain ⟨hout, ev, hlog, hadds⟩ := adds_step ih.1 hst
    refine ⟨hout, ?_⟩
    rw [hlog]
    exact ih.2.step ih.1 hadds

theorem filled_reach {now : UInt64} (h : (timers now : Machine (State Tid W F) _).Reach NonEmpty s) :
    s.mgr.Filled ∧ Answered s.log := by
  refine h.inv_with (I := fun s => s.mgr.Filled ∧ Answered s.log)
    (fun _ hr => (past_reach hr.reachable).1) ⟨fun _ hi => absurd hi List.not_mem_nil,
      fun _ _ _ hm => absurd hm List.not_mem_nil⟩ fun s a s' hout ih ha hst => ?_
  refine ⟨filled_step ih.1 hout ha hst, fun i answer scheduled hm => ?_⟩
  obtain ⟨-, ev, hlog, hadds⟩ := adds_step hout hst
  rw [hlog] at hm
  exact (List.mem_append.mp hm).elim (ih.2 i answer scheduled) fun hm =>
    (hadds.cancelled i answer scheduled hm).2.1 ih.1

/-- **The set of timers is right in every state, and so is what it delivers**, for every sequence of
operations and of clock readings. -/
theorem timersOk_reach {now : UInt64}
    (h : (timers now : Machine (State Tid W F) _).Reach NonEmpty s) : TimersOk s := by
  obtain ⟨hout, hpast⟩ := past_reach h.reachable
  obtain ⟨hfilled, hanswered⟩ := filled_reach h
  refine ⟨?_, hout.sorted.nodup, hout.unmoved, fun i => ⟨hfilled i, hout.mem⟩, hpast.oneShot,
    hanswered, hpast.silent⟩
  refine List.Pairwise.imp ?_ hout.sorted
  intro i j hlt
  exact (Timer.Comparator_eq _ _).mpr hlt

/-- a one-shot timer and a recurring one; the clock is set back by more than an hour -/
theorem timersOk_rollover : ∃ s : State Unit Unit Bool, TimersOk s ∧ s.mgr.m_timers = [2, 1] ∧
    s.log = [.delivered 0 (some (.fn true)), .delivered 1 (some (.onTimer () (some false))),
      .cancelled 0 false false] := by
  let as : List (Act Unit Unit Bool) := [.FiberGetCurrentTimeMs () 7200000,
    .addTimer () 10 (some true) false 4, .onTimerInsertedAtFront (),
    .FiberGetCurrentTimeMs () 7200000, .addConditionTimer () 20 (some false) () true 5,
    .FiberGetCurrentTimeMs () 7200000, .listExpiredCb () 6, .FiberGetCurrentTimeMs () 9,
    .listExpiredCb () 6, .refresh () 0 12, .cancel () 0, .release 0, .FiberGetCurrentTimeMs () 12,
    .addTimer () 6 (some true) false 4]
  have h : ((timers 7200000).execIf NonEmpty (start 7200000) as).map
      (fun s => (s.mgr.m_timers, s.log)) =
        some ([2, 1], [.delivered 0 (some (.fn true)), .delivered 1 (some (.onTimer () (some false))),
          .cancelled 0 false false]) := by decide
  obtain ⟨s, hs, e⟩ := Option.map_eq_some_iff.mp h
  obtain ⟨e1, e2⟩ := Prod.mk.inj e
  exact ⟨s, timersOk_reach (.of_execIf as .init hs), e1, e2⟩

end

end Fiber
end CppCores
