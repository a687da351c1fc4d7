import CppCores.Lib.Calls
import CppCores.Coroutine.Uthread.Nested

/-!
# The uthread scheduler: the indices of the array

`uthread_create` never fails: when all of the `MAX_UTHREAD_SIZE` slots are taken it takes the index
behind the last one.  The calls may come from everywhere.

* `accessed`         the indices at which a call reads or writes `threads`;
* `selected_busy`    when no slot is free, the index selected is outside of the array;
* `bounded_iff`      **the indices of a sequence of calls are those of the array iff no uthread is
                     created while all slots are taken**;
* `filled`           a slot for each of `n` uthreads that yield, whatever `n` is.
-/

namespace CppCores
namespace Uthread

namespace Nested
variable {s s' : State}

/-- the indices at which the call reads or writes `schedule.threads` -/
def accessed (s : State) : Act → List ℕ
  | .create => List.range (selected s + 1)
  | .resume id => if 0 ≤ id ∧ id < s.max_index then [id.toNat] else []
  | .yield => if s.running_thread ≠ -1 then [s.running_thread.toNat] else []
  | .ended => match s.control with
    | .main => []
    | .uthread id => [id]

/-- one of the slots of the array is free -/
def HasSlot (s : State) : Prop := ∃ i < MAX_UTHREAD_SIZE, (s.threads i).state = .FREE

/-- a call stays within the array, and a create that finds no slot leaves the schedule as it is -/
structure RightCall (s : State) (a : Act) : Prop where
  bounds : ∀ i ∈ accessed s a, i < MAX_UTHREAD_SIZE
  fails : a = .create → ¬ HasSlot s → uthread_create s = s

/-- the context of a uthread whose index is in use, or the main context -/
def Known (s : State) : Flow → Prop
  | .main => True
  | .uthread id => id < s.max_index

/-- the indices in use are those of the array, and the others were never used -/
structure Bounded (s : State) : Prop where
  max : s.max_index ≤ MAX_UTHREAD_SIZE
  unused : ∀ i, s.max_index ≤ i → (s.threads i).state = .FREE
  running : s.running_thread = -1 ∨ 0 ≤ s.running_thread ∧ s.running_thread < s.max_index
  control : Known s s.control
  main : ∀ flow ∈ s.main, Known s flow
  ctx : ∀ i, ∀ flow ∈ (s.threads i).ctx, Known s flow

theorem known_none : ∀ flow ∈ (none : ucontext_t), Known s flow := by
  intro flow h
  cases h

theorem bounded_start : Bounded start :=
  ⟨Nat.zero_le _, fun _ _ => rfl, .inl rfl, trivial, known_none, fun _ => known_none⟩

/-- **When as many uthreads are live as the array has slots, the index selected is behind them.** -/
theorem selected_busy (h : Bounded s) (hlive : MAX_UTHREAD_SIZE ≤ live s) :
    selected s = MAX_UTHREAD_SIZE := by
  have hle : live s ≤ s.max_index := busy_le _ _
  have hmax := h.max
  have hall : live s = s.max_index := by omega
  have hsel : selected s = s.max_index := firstFree_eq_iff.mpr hall
  omega

theorem hasSlot_of_live (h : Bounded s) (hlive : live s < MAX_UTHREAD_SIZE) : HasSlot s := by
  refine ⟨selected s, firstFree_lt h.max hlive, ?_⟩
  obtain heq | hlt := Nat.eq_or_lt_of_le (firstFree_le (fun i => (s.threads i).state) s.max_index)
  · exact h.unused _ (Nat.le_of_eq heq.symm)
  · exact firstFree_free hlt

theorem Bounded.call (h : Bounded s) {a : Act} (ha : Called s a) : RightCall s a where
  bounds := by
    intro i hi
    have hmax := h.max
    cases a with
    | create =>
      have hlt : selected s < MAX_UTHREAD_SIZE := firstFree_lt h.max ha
      have hle := List.mem_range.mp hi
      omega
    | resume id =>
      rw [accessed] at hi
      split at hi
      · rw [List.mem_singleton] at hi
        omega
      · exact absurd hi List.not_mem_nil
    | yield =>
      have hrun := h.running
      rw [accessed] at hi
      split at hi
      · rw [List.mem_singleton] at hi
        omega
      · exact absurd hi List.not_mem_nil
    | ended =>
      have hctl := h.control
      rw [accessed] at hi
      split at hi
      · exact absurd hi List.not_mem_nil
      · rename_i id hc
        rw [hc] at hctl
        rw [List.mem_singleton.mp hi]
        exact Nat.lt_of_lt_of_le hctl hmax
  fails := by
    rintro rfl hno
    exact absurd (hasSlot_of_live h ha) hno

theorem Known.mono {flow : Flow} (h : Known s flow) (hle : s.max_index ≤ s'.max_index) :
    Known s' flow := by
  cases flow with
  | main => trivial
  | uthread id => exact Nat.lt_of_lt_of_le h hle

theorem unused_update {threads : ℕ → Thread} {n id : ℕ} (hid : id < n)
    (h : ∀ i, n ≤ i → (threads i).state = .FREE) (t : Thread) :
    ∀ i, n ≤ i → (Function.update threads id t i).state = .FREE := by
  intro i hi
  rw [Function.update_of_ne (by omega)]
  exact h i hi

theorem ctx_update {threads : ℕ → Thread} (h : ∀ i, ∀ flow ∈ (threads i).ctx, Known s flow) (id : ℕ)
    {t : Thread} (ht : ∀ flow ∈ t.ctx, Known s flow) :
    ∀ i, ∀ flow ∈ (Function.update threads id t i).ctx, Known s flow := by
  intro i flow hflow
  by_cases hi : i = id
  · subst hi
    rw [Function.update_self] at hflow
    exact ht flow hflow
  · rw [Function.update_of_ne hi] at hflow
    exact h i flow hflow

theorem Bounded.create (h : Bounded s) (ha : live s < MAX_UTHREAD_SIZE) :
    Bounded (uthread_create s) := by
  have hlt : selected s < MAX_UTHREAD_SIZE := firstFree_lt h.max ha
  have hfirst : selected s ≤ s.max_index := firstFree_le _ _
  have hmax := h.max
  have hle : s.max_index ≤ (uthread_create s).max_index := by
    show s.max_index ≤ if selected s = s.max_index then s.max_index + 1 else s.max_index
    split <;> omega
  have hsel : selected s < (uthread_create s).max_index := by
    show selected s < if selected s = s.max_index then s.max_index + 1 else s.max_index
    split <;> omega
  have hctx : ∀ i, ∀ flow ∈ (s.threads i).ctx, Known (uthread_create s) flow :=
    fun i flow hf => (h.ctx i flow hf).mono hle
  refine ⟨?_, ?_, .inr ⟨Int.natCast_nonneg _, Int.ofNat_lt.mpr hsel⟩, hsel, ?_,
    ctx_update hctx _ known_none⟩
  · show (if selected s = s.max_index then s.max_index + 1 else s.max_index) ≤ _
    split <;> omega
  · exact unused_update hsel (fun i hi => h.unused i (Nat.le_trans hle hi)) _
  · intro flow hf
    rw [← Option.some.inj hf]
    exact h.control.mono hle

/-- a `ucontext_t` that saves the context that runs -/
theorem Bounded.saved (h : Bounded s) : ∀ flow ∈ some s.control, Known s flow := by
  intro flow hf
  rw [← Option.some.inj hf]
  exact h.control

theorem Bounded.resume (h : Bounded s) {id : ℤ} (hst : uthread_resume s id = some s') :
    Bounded s' := by
  rw [uthread_resume] at hst
  split at hst
  · rename_i hc
    obtain ⟨flow, hflow, rfl⟩ := Option.map_eq_some_iff.mp hst
    exact ⟨h.max, unused_update (by omega) h.unused _, h.running, h.ctx _ flow hflow, h.saved,
      ctx_update h.ctx _ known_none⟩
  · obtain rfl := Option.some.inj hst
    exact h

theorem Bounded.yield (h : Bounded s) (hst : uthread_yield s = some s') : Bounded s' := by
  have hrun := h.running
  rw [uthread_yield] at hst
  split at hst
  · rename_i hc
    obtain ⟨flow, hflow, rfl⟩ := Option.map_eq_some_iff.mp hst
    exact ⟨h.max, unused_update (by omega) h.unused _, .inl rfl, h.main flow hflow, known_none,
      ctx_update h.ctx _ h.saved⟩
  · obtain rfl := Option.some.inj hst
    exact h

theorem Bounded.ended (h : Bounded s) (hst : uthread_body_end s = some s') : Bounded s' := by
  have hctl := h.control
  rw [uthread_body_end] at hst
  split at hst
  · cases hst
  · rename_i id hc
    rw [hc] at hctl
    obtain ⟨flow, hflow, rfl⟩ := Option.map_eq_some_iff.mp hst
    exact ⟨h.max, unused_update hctl h.unused _, .inl rfl, h.main flow hflow, known_none,
      ctx_update h.ctx _ (h.ctx id)⟩

/-- **A call that meets its condition leaves the indices in use in the array.** -/
theorem Bounded.step (h : Bounded s) {a : Act} (ha : Called s a) (hst : step s a = some s') :
    Bounded s' := by
  cases a with
  | create =>
    obtain rfl := Option.some.inj hst
    exact h.create ha
  | resume id => exact h.resume hst
  | yield => exact h.yield hst
  | ended => exact h.ended hst

/-- the calls of a run: what they access, and `max_index` in the states they go through -/
def RightCalls (acts : List Act) : Prop :=
  Along machine.step (fun s => s.max_index ≤ MAX_UTHREAD_SIZE) RightCall start acts

/-- **The indices of a run are those of the array iff fewer than `MAX_UTHREAD_SIZE` uthreads are live
whenever another is created**, from whichever context. -/
theorem bounded_iff (acts : List Act) : RightCalls acts ↔ Each machine.step Called start acts := by
  apply Along.iff (I := Bounded) (fun s h => h.max)
  · intro s a h ha
    exact ⟨h.call ha, fun s' hst => h.step ha hst⟩
  · intro s a h ha hright
    cases a with
    | create =>
      have hsel := selected_busy h (Nat.not_lt.mp ha)
      have hlt := hright.bounds (selected s) List.self_mem_range_succ
      omega
    | resume id => exact absurd trivial ha
    | yield => exact absurd trivial ha
    | ended => exact absurd trivial ha
  · exact bounded_start

end Nested

/-! ## a uthread too many -/

section
variable {α : Type*} {s : State α}

/-- `n` uthreads that yield -/
def fill : ℕ → List (Act α)
  | 0 => []
  | n + 1 => fill n ++ [.create [.yield], .run]

/-- `n` uthreads are suspended, and nothing else was created -/
structure Filled (s : State α) (n : ℕ) : Prop where
  max : s.max_index = n
  main : s.control = .main
  busy : ∀ i < n, (s.threads i).state = .SUSPEND

/-- no slot is free: the index selected is behind them -/
theorem Filled.selected {n : ℕ} (h : Filled s n) : selected s = n := by
  have hall : ∀ i ∈ List.range s.max_index, decide ((s.threads i).state ≠ .FREE) = true := by
    intro i hi
    rw [List.mem_range, h.max] at hi
    rw [h.busy i hi]
    rfl
  have hbusy := (List.countP_eq_length.mpr hall).trans List.length_range
  exact (firstFree_eq_iff.mpr hbusy).trans h.max

theorem Filled.succ {n : ℕ} (h : Filled s n) : ∃ s',
    (machine α).exec s [.create [.yield], .run] = some s' ∧ Filled s' (n + 1) := by
  have hcreate : (machine α).step s (.create [.yield]) = some (uthread_create s [.yield]) := by
    show step s _ = _
    simp only [step, h.main]
  have hbody := uthread_create_spec s [.yield]
  rw [h.selected, if_pos h.max.symm, h.max] at hbody
  have hctl : (uthread_create s [.yield]).control = .uthread n [.yield] := by rw [hbody]
  have hrun := step_yield hctl
  have hne : ((n : ℕ) : ℤ) ≠ -1 := by omega
  refine ⟨uthread_yield { uthread_create s [.yield] with control := .uthread n [] }, ?_, ?_⟩
  · rw [Machine.exec, hcreate, Option.bind_some, Machine.exec, hrun]
    rfl
  · rw [hbody, uthread_yield, if_pos hne]
    simp only [Int.toNat_natCast]
    refine ⟨rfl, rfl, fun i hi => ?_⟩
    by_cases heq : i = n
    · subst heq
      exact congrArg uthread_t.state (State.setThread_self _ i _)
    · refine (congrArg uthread_t.state (State.setThread_of_ne _ heq _)).trans ?_
      refine (congrArg uthread_t.state (s.setThread_of_ne heq _)).trans ?_
      exact h.busy i (by omega)

theorem filled (n : ℕ) : ∃ s : State α, (machine α).exec start (fill n) = some s ∧ Filled s n := by
  induction n with
  | zero => exact ⟨start, rfl, rfl, rfl, nofun⟩
  | succ n ih =>
    obtain ⟨s, hs, h⟩ := ih
    obtain ⟨s', hs', h'⟩ := h.succ
    refine ⟨s', ?_, h'⟩
    rw [fill, Machine.exec_append, hs]
    exact hs'

/-- one uthread more than there are slots -/
theorem create_out_of_bounds : ¬ ∀ acts : List Nested.Act, Nested.RightCalls acts := by
  intro h
  obtain ⟨s, hs, hfilled⟩ := filled (α := Unit) MAX_UTHREAD_SIZE
  obtain ⟨calls, hcalls⟩ := exec_nested _ inv_start hs
  rw [Machine.exec_eq_foldlM] at hcalls
  obtain ⟨hmax, hright, -⟩ := (h (calls ++ [.create])).of_append _ hcalls
  have hsel : selected s = MAX_UTHREAD_SIZE := hfilled.selected
  have hlt := hright.bounds (selected s) List.self_mem_range_succ
  omega

end
end Uthread
end CppCores
