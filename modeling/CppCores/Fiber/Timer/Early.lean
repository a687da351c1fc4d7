import CppCores.Fiber.Timer.Expiry
import CppCores.Lib.Ghost

/-!
# FiberTimerManager: no timer fires early, unless a deadline wraps or the clock seems to go back

`Watch` is a ghost next to the manager: for every timer the reading and the period with which it was
last armed, and the callbacks delivered, each with the reading of its delivery.  A `reset` that does
not count from now leaves the reading of the last arming and changes the period.

* `armed_step`           as long as no sum wraps, a deadline is that sum in the natural numbers;
* `neverEarly_reach`     **so no callback is delivered early**, if no rollover is reported while a timer is
                         not due;
* `early_of_wrapped`     a timer armed with a sum that wraps is delivered early whenever it is;
* `early_of_rollover`    so is one that is delivered at a rollover before it is due;
* `not_neverEarly`       and one that is to run after the largest period.
-/

set_option linter.unusedSectionVars false

namespace CppCores
namespace Fiber
open OrderedSet Manager Machine
variable {Tid W F : Type*} [DecidableEq Tid]

/-- a timer was armed at the reading `now` with the period `ms` -/
structure Arming where
  now : ℕ
  ms : ℕ
  deriving DecidableEq, Repr

/-- the callback of a timer, as it was last armed, was delivered at the reading `now` -/
structure Firing where
  timer : ℕ
  armed : Arming
  now : ℕ
  deriving DecidableEq, Repr

structure Watch where
  armed : ℕ → Arming
  fired : List Firing

namespace Watch

def start : Watch := ⟨fun _ => ⟨0, 0⟩, []⟩

def arm (g : Watch) (i : ℕ) (x : Arming) : Watch :=
  { g with armed := Function.update g.armed i x }

/-- the timers `X` are delivered, and the recurring ones armed again -/
def fire (g : Watch) (m : Manager W F) (X : List ℕ) (now : UInt64) : Watch where
  armed i := if i ∈ X ∧ (m.heap i).m_recurring = true then ⟨now.toNat, (m.heap i).m_ms.toNat⟩
    else g.armed i
  fired := g.fired ++ X.map fun i => ⟨i, g.armed i, now.toNat⟩

/-- what a step does to the ghost -/
def note (s : State Tid W F) (a : Act Tid W F) (g : Watch) : Watch :=
  match a with
  | .addTimer tid ms _ _ _ | .addConditionTimer tid ms _ _ _ _ =>
    match s.reading? tid with
    | some now => g.arm s.mgr.count ⟨now.toNat, ms.toNat⟩
    | none => g
  | .refresh _ i now =>
    if (s.mgr.refresh i now).1 then g.arm i ⟨now.toNat, (s.mgr.heap i).m_ms.toNat⟩ else g
  | .reset _ i ms from_now now =>
    if (s.mgr.reset i ms from_now now).1 then
      g.arm i ⟨if from_now then now.toNat else (g.armed i).now, ms.toNat⟩
    else g
  | .listExpiredCb tid addr =>
    match s.reading? tid with
    | some now => g.fire s.mgr ((s.mgr.listExpiredCb now addr).1.map Prod.fst) now
    | none => g
  | .FiberGetCurrentTimeMs .. | .cancel .. | .getNextTimer .. | .onTimerInsertedAtFront _
  | .release _ => g

end Watch

/-- the threads on one manager, and what was armed and delivered -/
def watched (now : UInt64) : Machine (State Tid W F × Watch) (Act Tid W F) :=
  (timers now).withGhost .start Watch.note

/-- no callback is delivered before its time -/
def NeverEarly (g : Watch) : Prop := ∀ f ∈ g.fired, f.armed.now + f.armed.ms ≤ f.now

/-- a reading is not before the last one -/
def Forward (s : State Tid W F) : Act Tid W F → Prop
  | .FiberGetCurrentTimeMs _ now | .refresh _ _ now | .reset _ _ _ _ now | .getNextTimer _ now =>
    s.clock ≤ now
  | .addTimer .. | .addConditionTimer .. | .cancel .. | .listExpiredCb .. | .onTimerInsertedAtFront _
  | .release _ => True

instance (s : State Tid W F) (a : Act Tid W F) : Decidable (Forward s a) :=
  match a with
  | .FiberGetCurrentTimeMs .. | .refresh .. | .reset .. | .getNextTimer .. =>
    inferInstanceAs (Decidable (_ ≤ _))
  | .addTimer .. | .addConditionTimer .. | .cancel .. | .listExpiredCb .. | .onTimerInsertedAtFront _
  | .release _ => .isTrue trivial

/-- no deadline that the step computes wraps -/
def NoWrap (s : State Tid W F) : Act Tid W F → Prop
  | .addTimer tid ms _ _ _ | .addConditionTimer tid ms _ _ _ _ =>
    ∀ now ∈ s.reading? tid, now.toNat + ms.toNat < 2 ^ 64
  | .refresh _ i now =>
    i ∈ s.mgr.m_timers → now.toNat + (s.mgr.heap i).m_ms.toNat < 2 ^ 64
  | .reset _ i ms from_now now => i ∈ s.mgr.m_timers →
    (if from_now then now else (s.mgr.heap i).m_next - (s.mgr.heap i).m_ms).toNat + ms.toNat <
      2 ^ 64
  | .listExpiredCb tid _ => ∀ now ∈ s.reading? tid, ∀ i ∈ s.mgr.m_timers,
    (s.mgr.heap i).m_recurring = true → (s.mgr.heap i).m_next ≤ now →
      now.toNat + (s.mgr.heap i).m_ms.toNat < 2 ^ 64
  | .FiberGetCurrentTimeMs .. | .cancel .. | .getNextTimer .. | .onTimerInsertedAtFront _
  | .release _ => True

instance (s : State Tid W F) (a : Act Tid W F) : Decidable (NoWrap s a) :=
  match a with
  | .addTimer .. | .addConditionTimer .. => Option.decidableForallMem _
  | .refresh .. | .reset .. => inferInstanceAs (Decidable (_ → _))
  | .listExpiredCb .. => Option.decidableForallMem _
  | .FiberGetCurrentTimeMs .. | .cancel .. | .getNextTimer .. | .onTimerInsertedAtFront _
  | .release _ => .isTrue trivial

/-- the condition under which no step fires a timer early -/
def OnTime (s : State Tid W F) (a : Act Tid W F) : Prop :=
  Forward s a ∧ NoWrap s a ∧ NoRollover s a

instance (s : State Tid W F) (a : Act Tid W F) : Decidable (OnTime s a) :=
  inferInstanceAs (Decidable (_ ∧ _ ∧ _))

theorem inTime_of {s : State Tid W F} {a : Act Tid W F} (h : OnTime s a) :
    InTime s a ∧ NoRollover s a := by
  obtain ⟨hf, hn, hr⟩ := h
  refine ⟨?_, hr⟩
  cases a with
  | refresh | reset => exact ⟨hf, hn⟩
  | FiberGetCurrentTimeMs | getNextTimer => exact hf
  | addTimer | addConditionTimer | listExpiredCb => exact hn
  | cancel | onTimerInsertedAtFront | release => trivial

/-! ## the deadlines -/

/-- the deadline of the timer is that of its last arming -/
def Timer.ArmedAt (t : Timer W F) (x : Arming) : Prop :=
  t.m_next.toNat = x.now + x.ms ∧ t.m_ms.toNat = x.ms

def Armed (m : Manager W F) (g : Watch) : Prop := ∀ i ∈ m.m_timers, (m.heap i).ArmedAt (g.armed i)

section
variable {s s' : State Tid W F} {m m' : Manager W F} {g : Watch} {i : ℕ} {now : UInt64}

theorem Timer.armedAt_add {t : Timer W F} {start : UInt64} {n : ℕ} (hs : start.toNat = n)
    (hn : t.m_next = start + t.m_ms) (hw : start.toNat + t.m_ms.toNat < 2 ^ 64) :
    t.ArmedAt ⟨n, t.m_ms.toNat⟩ := by
  refine ⟨?_, rfl⟩
  rw [hn, toNat_add_of_lt hw, hs]

theorem Armed.arm (h : Armed m g) {x : Arming} (hi : (m'.heap i).ArmedAt x)
    (hmem : ∀ j, j ≠ i → j ∈ m'.m_timers → j ∈ m.m_timers ∧ m'.heap j = m.heap j) :
    Armed m' (g.arm i x) := by
  intro j hj
  by_cases e : j = i
  · subst e
    show (m'.heap j).ArmedAt (Function.update g.armed j x j)
    rw [Function.update_self]
    exact hi
  · obtain ⟨hm, hheap⟩ := hmem j e hj
    show (m'.heap j).ArmedAt (Function.update g.armed i x j)
    rw [Function.update_of_ne e, hheap]
    exact h j hm

theorem Armed.addNew (h : Armed m g) (hout : Out [] m) {ms : UInt64} {cb : Option (Callback W F)}
    {recurring : Bool} {addr : ℕ} (hf : m.Free addr) (hw : now.toNat + ms.toNat < 2 ^ 64) :
    Armed (m.addNew ms cb recurring now addr).2 (g.arm m.count ⟨now.toNat, ms.toNat⟩) := by
  have hins := addNew_spec hout ms cb recurring now hf
  apply h.arm
  · rw [hins.heap]
    show (Function.update m.heap m.count _ m.count).ArmedAt _
    rw [Function.update_self]
    exact Timer.armedAt_add rfl rfl hw
  · intro j hne hj
    have hm : j ∈ m.m_timers := ((hins.mem j).mp hj).resolve_left hne
    refine ⟨hm, ?_⟩
    rw [hins.heap]
    exact Function.update_of_ne hne ..

theorem Armed.refresh (h : Armed m g) (hout : Out [] m)
    (hw : i ∈ m.m_timers → now.toNat + (m.heap i).m_ms.toNat < 2 ^ 64) :
    Armed (m.refresh i now).2
      (if (m.refresh i now).1 then g.arm i ⟨now.toNat, (m.heap i).m_ms.toNat⟩ else g) := by
  by_cases hcb : (m.heap i).m_cb = none
  · rw [refresh_empty hcb]
    exact h
  · obtain ⟨hans, -, hmem, hheap, -, -, -⟩ := @refresh_spec _ _ _ _ now hout hcb
    rw [if_pos hans]
    apply h.arm
    · rw [hheap, Function.update_self]
      exact Timer.armedAt_add rfl rfl (hw (hout.mem hcb))
    · intro j hne hj
      refine ⟨(hmem j).mp hj, ?_⟩
      rw [hheap, Function.update_of_ne hne]

theorem Armed.reset (h : Armed m g) (hout : Out [] m) {ms : UInt64} {from_now : Bool}
    (hw : i ∈ m.m_timers →
      (if from_now then now else (m.heap i).m_next - (m.heap i).m_ms).toNat + ms.toNat < 2 ^ 64) :
    Armed (m.reset i ms from_now now).2.2
      (if (m.reset i ms from_now now).1 then
        g.arm i ⟨if from_now then now.toNat else (g.armed i).now, ms.toNat⟩ else g) := by
  by_cases he : ms = (m.heap i).m_ms ∧ ¬ from_now
  · -- nothing changes, and the arming is that of before
    obtain ⟨rfl, hf⟩ := he
    obtain rfl := Bool.eq_false_of_not_eq_true hf
    rw [reset_early]
    intro j hj
    by_cases e : j = i
    · subst e
      show (m.heap j).ArmedAt (Function.update g.armed j _ j)
      rw [Function.update_self]
      obtain ⟨hnext, hms⟩ := h j hj
      refine ⟨?_, rfl⟩
      rw [hnext, hms]
      rfl
    · show (m.heap j).ArmedAt (Function.update g.armed i _ j)
      rw [Function.update_of_ne e]
      exact h j hj
  · by_cases hcb : (m.heap i).m_cb = none
    · rw [reset_empty he hcb]
      exact h
    · have hi := hout.mem hcb
      obtain ⟨m1, h1, hr, hmem, hheap, -, -, -⟩ := @reset_present _ _ _ _ now hout _ _ he hcb
      have hins := addTimer_spec h1
      rw [hr]
      apply h.arm
      · rw [hins.heap, hheap, Function.update_self]
        refine Timer.armedAt_add ?_ rfl (hw hi)
        cases from_now with
        | true => rfl
        | false =>
          -- the reading from which the old deadline was counted
          obtain ⟨hnext, hms⟩ := h i hi
          show ((m.heap i).m_next - (m.heap i).m_ms).toNat = (g.armed i).now
          rw [UInt64.toNat_sub_of_le _ _ (UInt64.le_iff_toNat_le.mpr (by omega)), hnext, hms]
          omega
      · intro j hne hj
        have hm : j ∈ m1.m_timers := ((hins.mem j).mp hj).resolve_left hne
        refine ⟨(hmem j).mpr (.inr hm), ?_⟩
        rw [hins.heap, hheap, Function.update_of_ne hne]

theorem map_fst_delivered (X : List ℕ) (f : ℕ → Option (Callback W F)) :
    (X.map fun i => (i, f i)).map Prod.fst = X := by
  rw [List.map_map]
  exact List.map_id X

/-- **A delivery of timers that are due is not early, and arms the recurring ones again.** -/
theorem Armed.listExpiredCb (h : Armed m g) (hout : Out [] m) (addr : ℕ)
    (hroll : (m.detectClockRollover now).1 = true → ∀ i ∈ m.m_timers, (m.heap i).m_next ≤ now)
    (hw : ∀ i ∈ m.m_timers, (m.heap i).m_recurring = true → (m.heap i).m_next ≤ now →
      now.toNat + (m.heap i).m_ms.toNat < 2 ^ 64) (hearly : NeverEarly g) :
    Armed (m.listExpiredCb now addr).2
        (g.fire m ((m.listExpiredCb now addr).1.map Prod.fst) now) ∧
      NeverEarly (g.fire m ((m.listExpiredCb now addr).1.map Prod.fst) now) := by
  obtain ⟨X, R, he, hcbs, hX, hafter⟩ := due_listExpiredCb hout addr hroll
  have hin : ∀ j ∈ X, j ∈ m.m_timers := by
    intro j hj
    rw [he]
    exact List.mem_append_left _ hj
  rw [hcbs, map_fst_delivered]
  constructor
  · intro j hj
    rcases hafter j hj with ⟨hjX, hj', hk⟩ | ⟨hjX, hrec, hk⟩
    · have harm : (g.fire m X now).armed j = g.armed j := if_neg fun hc => hjX hc.1
      rw [harm, hk]
      exact h j hj'
    · have harm : (g.fire m X now).armed j = ⟨now.toNat, (m.heap j).m_ms.toNat⟩ := if_pos ⟨hjX, hrec⟩
      rw [harm, hk]
      refine Timer.armedAt_add rfl rfl ?_
      exact hw j (hin j hjX) hrec (UInt64.le_iff_toNat_le.mpr (hX j hjX))
  · intro f hf
    rcases List.mem_append.mp hf with hf | hf
    · exact hearly f hf
    · obtain ⟨j, hj, rfl⟩ := List.mem_map.mp hf
      have hnext := (h j (hin j hj)).1
      have hle := hX j hj
      show (g.armed j).now + (g.armed j).ms ≤ now.toNat
      omega

theorem NeverEarly.arm (h : NeverEarly g) (i : ℕ) (x : Arming) : NeverEarly (g.arm i x) := h

theorem note_of_reading {tid : Tid} {addr : ℕ} (hcan : s.CanMake tid now addr) :
    (∀ ms cb recurring addr', Watch.note s (.addTimer tid ms cb recurring addr') g =
      g.arm s.mgr.count ⟨now.toNat, ms.toNat⟩) ∧
    (∀ ms cb weak_cond recurring addr',
      Watch.note s (.addConditionTimer tid ms cb weak_cond recurring addr') g =
        g.arm s.mgr.count ⟨now.toNat, ms.toNat⟩) ∧
    ∀ addr', Watch.note s (.listExpiredCb tid addr') g =
      g.fire s.mgr ((s.mgr.listExpiredCb now addr').1.map Prod.fst) now := by
  have hr : s.reading? tid = some now := hcan.reading
  unfold Watch.note
  simp only [hr, implies_true, and_self]

/-- **A step that is on time keeps every deadline right and fires no timer early.** -/
theorem armed_step (h : Armed s.mgr g) (hearly : NeverEarly g) (hout : Out [] s.mgr)
    {a : Act Tid W F} (ha : InTime s a ∧ NoRollover s a) (hst : step s a = some s') :
    Armed s'.mgr (Watch.note s a g) ∧ NeverEarly (Watch.note s a g) := by
  obtain ⟨ha, hroll⟩ := ha
  cases step_cases hst with
  | FiberGetCurrentTimeMs tid now => exact ⟨h, hearly⟩
  | addTimer tid ms cb recurring now addr hcan =>
    rw [(note_of_reading hcan).1]
    exact ⟨h.addNew hout hcan.2 (ha now hcan.reading), hearly⟩
  | addConditionTimer tid ms cb weak_cond recurring now addr hcan =>
    rw [(note_of_reading hcan).2.1]
    exact ⟨h.addNew hout hcan.2 (ha now hcan.reading), hearly⟩
  | cancel tid i =>
    obtain ⟨-, -, hafter, -⟩ := cancel_spec hout i
    refine ⟨fun j hj => ?_, hearly⟩
    obtain ⟨hj', he⟩ := hafter j hj
    show ((s.mgr.cancel i).2.heap j).ArmedAt (g.armed j)
    rw [he]
    exact h j hj'
  | refresh tid i now =>
    refine ⟨h.refresh hout ha.2, ?_⟩
    show NeverEarly (if _ then _ else _)
    split
    · exact hearly.arm _ _
    · exact hearly
  | reset tid i ms from_now now =>
    refine ⟨h.reset hout ha.2, ?_⟩
    show NeverEarly (if _ then _ else _)
    split
    · exact hearly.arm _ _
    · exact hearly
  | listExpiredCb tid now addr hcan =>
    rw [(note_of_reading hcan).2.2]
    exact h.listExpiredCb hout addr (hroll now hcan.reading) (ha now hcan.reading) hearly
  | getNextTimer tid now =>
    refine ⟨?_, hearly⟩
    show Armed (s.mgr.getNextTimer now).2 g
    rw [getNextTimer_snd]
    exact h
  | onTimerInsertedAtFront tid =>
    exact ⟨h, hearly⟩
  | release i =>
    have hnext : ∀ j, ((s.mgr.release i).heap j).m_next = (s.mgr.heap j).m_next :=
      modify_congr Timer.m_next rfl
    have hms : ∀ j, ((s.mgr.release i).heap j).m_ms = (s.mgr.heap j).m_ms :=
      modify_congr Timer.m_ms rfl
    refine ⟨fun j hj => ?_, hearly⟩
    show ((s.mgr.release i).heap j).ArmedAt (g.armed j)
    unfold Timer.ArmedAt
    rw [hnext, hms]
    exact h j hj

/-! ## runs -/

variable {p : State Tid W F × Watch} {start : UInt64}

/-- **In every run whose readings never decrease, in which no deadline wraps and no rollover is reported
while a timer is not due, no timer fires early.** -/
theorem neverEarly_reach (h : (watched start : Machine (State Tid W F × Watch) _).Reach
    (fun p a => OnTime p.1 a) p) : NeverEarly p.2 := by
  have hout : ∀ s, (timers start : Machine (State Tid W F) _).Reach OnTime s → Out [] s.mgr :=
    fun s hr => (past_reach hr.reachable).1
  refine (h.inv_ghost (I := fun s g => Armed s.mgr g ∧ NeverEarly g) hout
    ⟨fun i hi => absurd hi List.not_mem_nil, fun f hf => absurd hf List.not_mem_nil⟩ ?_).2.2
  intro s g a s' hJ hI ha hst
  exact armed_step hI.1 hI.2 hJ (inTime_of ha) hst

/-- a recurring timer fires twice, and one that is reset to a later time once, at a reading that was
overtaken -/
theorem neverEarly_run : ∃ p : State Bool Unit Bool × Watch, NeverEarly p.2 ∧
    p.2.fired = [⟨0, ⟨100, 5⟩, 106⟩, ⟨0, ⟨106, 5⟩, 120⟩, ⟨1, ⟨100, 20⟩, 120⟩] := by
  let as : List (Act Bool Unit Bool) := [.FiberGetCurrentTimeMs true 100,
    .addTimer true 5 (some true) true 4, .onTimerInsertedAtFront true,
    .FiberGetCurrentTimeMs true 100, .addTimer true 9 (some false) false 5, .reset true 1 20 false 101,
    .FiberGetCurrentTimeMs true 106, .listExpiredCb true 6, .FiberGetCurrentTimeMs false 120,
    .getNextTimer true 121, .listExpiredCb false 6]
  have h : ((watched 100).execIf (fun p a => OnTime p.1 a)
      (Fiber.start 100, Watch.start) as).map (fun p => p.2.fired) =
        some [⟨0, ⟨100, 5⟩, 106⟩, ⟨0, ⟨106, 5⟩, 120⟩, ⟨1, ⟨100, 20⟩, 120⟩] := by decide +kernel
  obtain ⟨p, hp, e⟩ := Option.map_eq_some_iff.mp h
  exact ⟨p, neverEarly_reach (.of_execIf as .init hp), e⟩

theorem not_neverEarly_fire {X : List ℕ} (hi : i ∈ X)
    (hlt : now.toNat < (g.armed i).now + (g.armed i).ms) : ¬ NeverEarly (g.fire m X now) := by
  intro hearly
  have hle := hearly ⟨i, g.armed i, now.toNat⟩
    (List.mem_append_right _ (List.mem_map.mpr ⟨i, hi, rfl⟩))
  exact absurd hle (Nat.not_le_of_lt hlt)

/-- **A timer that was armed with a sum that wraps is early whenever it is delivered.** -/
theorem early_of_wrapped {tid : Tid} {addr : ℕ} (hcan : s.CanMake tid now addr)
    (hi : i ∈ (s.mgr.listExpiredCb now addr).1.map Prod.fst)
    (hw : 2 ^ 64 ≤ (g.armed i).now + (g.armed i).ms) :
    ¬ NeverEarly (Watch.note s (.listExpiredCb tid addr) g) := by
  rw [(note_of_reading hcan).2.2]
  exact not_neverEarly_fire hi (Nat.lt_of_lt_of_le now.toNat_lt hw)

/-- **A timer that is delivered at a rollover before it is due is early.** -/
theorem early_of_rollover {tid : Tid} {addr : ℕ} (hcan : s.CanMake tid now addr)
    (hout : Out [] s.mgr) (h : Armed s.mgr g) (hroll : (s.mgr.detectClockRollover now).1 = true)
    (hi : i ∈ s.mgr.m_timers) (hlt : now < (s.mgr.heap i).m_next) :
    ¬ NeverEarly (Watch.note s (.listExpiredCb tid addr) g) := by
  have hne : s.mgr.m_timers ≠ [] := List.ne_nil_of_mem hi
  have hdel : i ∈ (s.mgr.listExpiredCb now addr).1.map Prod.fst := by
    rw [(listExpiredCb_expires hout hne now addr).delivered, map_fst_delivered]
    exact mem_expired.mpr ⟨hi, due_iff.mpr (.inl hroll)⟩
  rw [(note_of_reading hcan).2.2]
  refine not_neverEarly_fire hdel ?_
  rw [← (h i hi).1]
  exact UInt64.lt_iff_toNat_lt.mp hlt

/-- and with the wrapped deadline it is due at once -/
theorem wrapped_lt {ms : UInt64} (hw : 2 ^ 64 ≤ now.toNat + ms.toNat) : now + ms < now := by
  have hms := ms.toNat_lt
  have hnow := now.toNat_lt
  rw [UInt64.lt_iff_toNat_lt, UInt64.toNat_add]
  omega

/-- a timer with the largest period, made at the reading 1000, fires at 1000 -/
theorem not_neverEarly : ¬ ∀ p : State Unit Unit Bool × Watch,
    (watched 1000 : Machine (State Unit Unit Bool × Watch) _).Reach (fun p a => Forward p.1 a) p →
      NeverEarly p.2 := by
  intro hall
  let as : List (Act Unit Unit Bool) := [.FiberGetCurrentTimeMs () 1000,
    .addTimer () 0xFFFFFFFFFFFFFFFF (some true) false 4, .onTimerInsertedAtFront (),
    .FiberGetCurrentTimeMs () 1000, .listExpiredCb () 6]
  have h : ((watched 1000).execIf (fun p a => Forward p.1 a)
      (Fiber.start 1000, Watch.start) as).map (fun p => p.2.fired) =
        some [⟨0, ⟨1000, 0xFFFFFFFFFFFFFFFF⟩, 1000⟩] := by decide
  obtain ⟨p, hp, e⟩ := Option.map_eq_some_iff.mp h
  have hearly := hall p (.of_execIf as .init hp)
  rw [NeverEarly, e] at hearly
  exact absurd (hearly _ (List.mem_singleton_self _)) (by decide)

end
end Fiber
end CppCores
