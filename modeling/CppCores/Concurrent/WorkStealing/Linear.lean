import CppCores.Concurrent.WorkStealing.Inv

/-!
# WorkStealingQueue: every run is a history of one bounded double-ended queue

`DequeRun cap s` says of a state what its two logs and its slots have to do with a queue of capacity
`cap`.  `dequeRun_reach` proves it of every state that is reached while the pushes have room to
count, and `not_dequeRun` shows that fewer than `2 ^ 64` pushes alone are not enough: when `_top`
reaches `2 ^ 64 - cap`, the sum `t + _capacity` in `push` wraps and an empty queue answers "full".
-/

set_option linter.unusedSectionVars false

namespace CppCores
namespace WorkStealing
variable {Tid T : Type*}

/-- no operation is in progress -/
def Quiet (s : State Tid T) : Prop := s.owner = .idle ∧ ∀ tid, s.thief tid = .idle

/-- `_buffer[i & (_capacity - 1)]` for `_top ≤ i < _bottom`, in that order -/
def slots (cap : UInt64) (s : State Tid T) : List (Elem T) :=
  (List.range' s.top.toNat (s.bottom.toNat - s.top.toNat)).map fun i =>
    s.buffer (i &&& (cap.toNat - 1))

/-- what a run of the queue has to look like -/
structure DequeRun (cap : UInt64) (s : State Tid T) : Prop where
  /-- no element is returned by two operations -/
  once : ((taken s.rets).map Elem.id).Nodup
  /-- an element taken by `pop` is the newest at that moment, by `steal` the oldest; `push` answers
  false when `cap` elements are outstanding, `pop` when none is -/
  fits : ∀ pre op post, s.log = pre ++ op :: post → op.Fits cap.toNat (held Elem.id pre)
  /-- each operation returns what it took effect with -/
  answered : s.log.Perm (s.rets ++ s.owner.pending)
  /-- at rest the elements pushed and not returned are those of the slots -/
  content : Quiet s → held Elem.id s.rets = slots cap s

section
variable [DecidableEq Tid] {cap : UInt64} {s : State Tid T}

theorem window_eq_slots (hc : cap.toNat.isPowerOfTwo) :
    window s.buffer cap.toNat s.top.toNat s.bottom.toNat = slots cap s := by
  obtain ⟨k, hk⟩ := hc
  apply List.map_congr_left
  intro i _
  rw [hk, Nat.and_two_pow_sub_one_eq_mod]

/-- the elements not yet returned are those not yet taken, up to what is pending -/
theorem held_rets (h : Answered s) (ho : s.owner = .idle) :
    held Elem.id s.rets = held Elem.id s.log := by
  have hp : s.log.Perm s.rets := by
    have := h.perm
    have h0 : (Owner.idle : Owner T).pending = [] := rfl
    rwa [ho, h0, List.append_nil] at this
  have ht : ∀ i, i ∈ (taken s.rets).map Elem.id ↔ i ∈ (taken s.log).map Elem.id := fun i =>
    ((hp.filterMap _).map Elem.id).mem_iff.symm
  unfold held
  simp only [h.pushes, ht]

/-- **Every run with room to count is a history of a queue of capacity `cap`.** -/
theorem dequeRun_reach (hc : cap.toNat.isPowerOfTwo) (junk : ℕ → Elem T)
    (h : (queue cap junk : Machine (State Tid T) _).Reach (Room cap) s) : DequeRun cap s := by
  have hinv := Inv.reach hc junk h
  have hans := Answered.reach junk h.reachable
  have hnamed := Named.reach junk h.reachable
  have hn : ((pushed s.log).map Elem.id).Nodup := by
    refine hnamed.nodup.sublist (List.Sublist.map _ ?_)
    exact List.sublist_append_left _ _
  have hlegal := hinv.holds.legal
  refine ⟨?_, ?_, hans.perm, ?_⟩
  · have hsub : (s.rets ++ s.owner.pending).Perm s.log := hans.perm.symm
    have ht : (taken (s.rets ++ s.owner.pending)).Perm (taken s.log) := hsub.filterMap _
    have hnd := (ht.map Elem.id).nodup_iff.mpr (hlegal.taken_nodup Elem.id hn)
    rw [taken_append, List.map_append] at hnd
    exact hnd.of_append_left
  · intro pre op post e
    obtain ⟨q, hq, hfit⟩ := hlegal.fits pre op post e
    have hnp : ((pushed pre).map Elem.id).Nodup := by
      refine hn.sublist (List.Sublist.map _ ?_)
      rw [e, pushed_append]
      exact List.sublist_append_left _ _
    rw [← hq.eq_held Elem.id hnp]
    exact hfit
  · intro hquiet
    have hhi : s.hi = s.bottom.toNat := by simp only [State.hi, hquiet.1]
    rw [hhi, window_eq_slots hc] at hlegal
    rw [held_rets hans hquiet.1, ← hlegal.eq_held Elem.id hn]

instance (cap : UInt64) (s : State Tid T) (a : Act Tid T) : Decidable (Room cap s a) :=
  match a with
  | .push _ => inferInstanceAs (Decidable (_ < _))
  | .pop | .owner | .steal _ | .thief _ => .isTrue trivial

/-- two elements, of which a thief takes the first -/
theorem dequeRun_two :
    ∃ s : State Unit Bool, DequeRun 2 s ∧ taken s.rets = [⟨0, true⟩] ∧ slots 2 s = [⟨1, false⟩] := by
  let junk : ℕ → Elem Bool := fun _ => ⟨0, false⟩
  let as : List (Act Unit Bool) := [.push true, .owner, .steal (), .owner, .owner, .push false,
    .thief (), .owner, .thief (), .owner, .thief (), .owner, .thief ()]
  have h : ((queue 2 junk).execIf (Room 2) (start junk) as).map
      (fun s => (taken s.rets, slots 2 s)) = some ([⟨0, true⟩], [⟨1, false⟩]) := by decide
  obtain ⟨s, hs, e⟩ := Option.map_eq_some_iff.mp h
  obtain ⟨e1, e2⟩ := Prod.mk.inj e
  exact ⟨s, dequeRun_reach ⟨1, rfl⟩ junk (.of_execIf as .init hs), e1, e2⟩

end

/-! ## the sum `t + _capacity` wraps -/

section
variable {s : State Unit Unit}

/-- after `n` rounds of a `push` and a `pop` -/
structure Round (n : ℕ) (s : State Unit Unit) : Prop where
  bottom : s.bottom.toNat = n + 1
  top : s.top = s.bottom
  owner : s.owner = .idle
  calls : s.calls = n
  held : held Elem.id s.log = []

theorem held_round {l : List (DequeOp (Elem Unit))} (h : held Elem.id l = []) (v : Elem Unit) :
    held Elem.id (l ++ [.pushBack v] ++ [.popBack v]) = [] := by
  rw [held, List.filter_eq_nil_iff] at h ⊢
  intro a ha
  simp only [pushed_append, pushed_cons, pushed?_pushBack, pushed?_popBack, Option.toList_some,
    Option.toList_none, pushed_nil, List.append_nil, List.mem_append,
    List.mem_singleton] at ha
  simp only [taken_append, taken_cons, taken?_pushBack, taken?_popBack, Option.toList_some,
    Option.toList_none, taken_nil, List.append_nil, List.map_append,
    List.mem_append, decide_eq_true_eq, not_not]
  rcases ha with ha | rfl
  · left
    simpa only [decide_eq_true_eq, not_not] using h a ha
  · right
    exact List.mem_singleton.mpr rfl

theorem round_step {n : ℕ} {junk : ℕ → Elem Unit} (h : Round n s) (hn : n + 2 < 2 ^ 64)
    (hr : (queue 1 junk).Reachable s) : ∃ s', Round (n + 1) s' ∧ (queue 1 junk).Reachable s' := by
  obtain ⟨hb, ht, ho, hc, hh⟩ := h
  have hb1 : (s.bottom + 1).toNat = n + 2 := by rw [toNat_add_one _ (by omega), hb]
  have hlt : ¬ s.bottom ≥ s.bottom + 1 := by
    rw [ge_iff_le, UInt64.le_iff_toNat_le]
    omega
  have hsub : s.bottom + 1 - 1 = s.bottom := by
    refine UInt64.toNat_inj.mp ?_
    rw [toNat_sub_one _ (by omega), hb1, hb]
    rfl
  have hirr : ¬ s.bottom > s.bottom := by
    rw [gt_iff_lt, UInt64.lt_iff_toNat_lt]
    exact Nat.lt_irrefl _
  set v : Elem Unit := ⟨s.calls, ()⟩ with hv
  let as : List (Act Unit Unit) :=
    [.push (), .owner, .owner, .owner, .pop, .owner, .owner, .owner, .owner, .owner, .owner]
  let s' : State Unit Unit :=
    { s with
      bottom := s.bottom + 1
      top := s.bottom + 1
      buffer := Function.update s.buffer (slot 1 s.bottom) v
      calls := s.calls + 1
      log := s.log ++ [.pushBack v] ++ [.popBack v]
      rets := s.rets ++ [.pushBack v] ++ [.popBack v] }
  have he : (queue 1 junk).exec s as = some s' := by
    simp [as, s', Machine.exec, queue, step, stepOwner, ho, ht, hlt, hirr, hsub, State.goto,
      State.effect, State.ret, State.storeBottom, State.setTop, State.writeSlot, popResult, hv]
  exact ⟨s', ⟨hb1, rfl, ho, by rw [← hc], held_round hh v⟩, .of_exec as hr he⟩

theorem round_reach (junk : ℕ → Elem Unit) (n : ℕ) (hn : n + 1 < 2 ^ 64) :
    ∃ s, Round n s ∧ (queue 1 junk).Reachable s := by
  induction n with
  | zero => exact ⟨start junk, ⟨rfl, rfl, rfl, rfl, rfl⟩, .init⟩
  | succ n ih =>
    obtain ⟨s, h, hr⟩ := ih (by omega)
    exact round_step h (by omega) hr

/-- after `2 ^ 64 - 2` rounds an empty queue refuses a `push` -/
theorem not_dequeRun : ¬ ∀ (cap : UInt64) (junk : ℕ → Elem Unit) (s : State Unit Unit),
    cap.toNat.isPowerOfTwo → (queue cap junk).Reachable s → s.calls < 2 ^ 64 → DequeRun cap s := by
  intro hall
  obtain ⟨s, ⟨hb, ht, ho, hc, hh⟩, hr⟩ := round_reach (fun _ => ⟨0, ()⟩) (2 ^ 64 - 2) (by omega)
  have hb' : s.bottom = 0xFFFFFFFFFFFFFFFF := UInt64.toNat_inj.mp (by rw [hb]; rfl)
  have he : (queue 1 fun _ => ⟨0, ()⟩).exec s [.push (), .owner] =
      some { s with calls := s.calls + 1, log := s.log ++ [.full], rets := s.rets ++ [.full] } := by
    simp [Machine.exec, queue, step, stepOwner, ho, ht, hb', State.effect, State.ret]
  have hrun := hall 1 _ _ ⟨0, rfl⟩ (.of_exec _ hr he) (by simp only [hc]; omega)
  have hfull : (held Elem.id s.log).length = 1 := hrun.fits s.log .full [] rfl
  rw [hh] at hfull
  simp at hfull

end

end WorkStealing
end CppCores
