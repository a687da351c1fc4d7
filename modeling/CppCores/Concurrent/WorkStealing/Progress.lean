import CppCores.Lib.Amortized
import CppCores.Concurrent.WorkStealing.Linear

/-!
# WorkStealingQueue: progress, and the estimate `volatile_size`

A compare-exchange of a thief fails only when `_top` has moved on since the thief loaded it, and then
an element has been taken.  So the elements taken pay for the failures: over a run a thief does four
accesses for each of its calls, the first of the call included, and three for each element that anybody
has taken.  The owner has no loop.

`volatile_size` loads `_bottom` and then `_top`, with any number of steps of the others in between.

* `top_step`             `_top` stays, or moves on by one and an element is taken;
* `steal_lock_free`      **the accesses of a thief and of the owner over a run;**
* `volatile_size_le`     **the estimate never exceeds the capacity, nor the number of elements that were
                         outstanding at its first load.**
-/

set_option linter.unusedSectionVars false

namespace CppCores
namespace WorkStealing
open Machine
variable {Tid T : Type*}

/-- `volatile_size`, with `_bottom` at its first load and `_top` at its second -/
def volatile_size (b t : UInt64) : UInt64 := if b ≤ t then 0 else b - t

section
variable [DecidableEq Tid] {cap : UInt64} {s s' : State Tid T} {a : Act Tid T} {tid : Tid}

/-! ## `_top` -/

/-- what a step does to `_top` and to the elements taken -/
def Moved (s s' : State Tid T) : Prop :=
  s'.top = s.top ∧ (taken s.log).length ≤ (taken s'.log).length ∨
    s'.top.toNat = s.top.toNat + 1 ∧ (taken s'.log).length = (taken s.log).length + 1

theorem moved_of_log {new : List (DequeOp (Elem T))} (ht : s'.top = s.top)
    (hl : s'.log = s.log ++ new) : Moved s s' := by
  refine .inl ⟨ht, ?_⟩
  rw [hl, taken_append, List.length_append]
  exact Nat.le_add_right _ _

theorem top_owner (h : Inv cap s) (hst : stepOwner cap s = some s') : Moved s s' := by
  obtain ⟨-, new, -, hl, -⟩ := stepOwner_logs hst
  cases ho : s.owner with
  | popCas b t v =>
    obtain ⟨-, -, htb, -⟩ : s.bottom.toNat + 1 = b.toNat ∧ t.toNat ≤ s.top.toNat ∧
        t.toNat + 1 = b.toNat ∧ v = s.buffer (slot cap t) := by
      simpa only [State.OwnerOk, ho] using h.owner
    have hb64 := b.toNat_lt
    simp only [stepOwner, ho] at hst
    by_cases heq : s.top = t
    · rw [if_pos heq] at hst
      obtain rfl := Option.some.inj hst
      refine .inr ⟨?_, ?_⟩
      · show (t + 1).toNat = s.top.toNat + 1
        rw [heq, toNat_add_one t (by omega)]
      · show (taken (s.log ++ [.popBack v])).length = _
        rw [taken_append, List.length_append]
        rfl
    · rw [if_neg heq] at hst
      obtain rfl := Option.some.inj hst
      exact moved_of_log rfl hl
  | idle => simp [stepOwner, ho] at hst
  | pushWrite | pushStore | popDec | popRestore =>
    simp only [stepOwner, ho] at hst
    obtain rfl := Option.some.inj hst
    exact moved_of_log rfl hl
  | pushTop | popTop | popTop2 | popRead =>
    simp only [stepOwner, ho] at hst
    split at hst
    · obtain rfl := Option.some.inj hst
      exact moved_of_log rfl hl
    · obtain rfl := Option.some.inj hst
      exact moved_of_log rfl hl

/-- a thief whose compare-exchange succeeds moves `_top` on by one -/
theorem top_cas (h : Inv cap s) {t : UInt64} {v : Elem T} (hp : s.thief tid = .cas t v)
    (heq : s.top = t) : (t + 1).toNat = s.top.toNat + 1 := by
  have hok := h.thief tid
  rw [hp] at hok
  have hhi := (hok.2 heq.symm).1
  have h64 : s.hi < 2 ^ 64 := by
    unfold State.hi
    split <;> exact UInt64.toNat_lt _
  rw [heq, toNat_add_one t (by omega)]

theorem top_thief (h : Inv cap s) (hst : stepThief cap s tid = some s') : Moved s s' := by
  cases hp : s.thief tid with
  | idle => simp [stepThief, hp] at hst
  | bottom | loop =>
    simp only [stepThief, hp] at hst
    split at hst
    · obtain rfl := Option.some.inj hst
      exact .inl ⟨rfl, Nat.le_refl _⟩
    · obtain rfl := Option.some.inj hst
      exact .inl ⟨rfl, Nat.le_refl _⟩
  | read =>
    simp only [stepThief, hp] at hst
    obtain rfl := Option.some.inj hst
    exact .inl ⟨rfl, Nat.le_refl _⟩
  | cas t v =>
    simp only [stepThief, hp] at hst
    by_cases heq : s.top = t
    · rw [if_pos heq] at hst
      obtain rfl := Option.some.inj hst
      refine .inr ⟨top_cas h hp heq, ?_⟩
      show (taken (s.log ++ [.popFront v])).length = _
      rw [taken_append, List.length_append]
      rfl
    · rw [if_neg heq] at hst
      obtain rfl := Option.some.inj hst
      exact .inl ⟨rfl, Nat.le_refl _⟩

/-- **`_top` moves only when an element is taken.** -/
theorem top_step (h : Inv cap s) (hst : Step cap s a s') : Moved s s' := by
  cases hst with
  | push | pop | steal => exact .inl ⟨rfl, Nat.le_refl _⟩
  | owner hst => exact top_owner h hst
  | thief hst => exact top_thief h hst

theorem Moved.le (h : Moved s s') : s.top.toNat ≤ s'.top.toNat := by
  rcases h with ⟨h, -⟩ | ⟨h, -⟩
  · exact Nat.le_of_eq (congrArg UInt64.toNat h.symm)
  · omega

theorem top_le_taken (hc : cap.toNat.isPowerOfTwo) (junk : ℕ → Elem T)
    (h : (queue cap junk : Machine (State Tid T) _).Reach (Room cap) s) :
    s.top.toNat ≤ (taken s.log).length + 1 := by
  refine h.inv_with (I := fun s => s.top.toNat ≤ (taken s.log).length + 1)
    (fun _ => Inv.reach hc junk) (Nat.le_refl 1) ?_
  intro s a s' hi ih _ hst
  rcases top_step hi (step_cases hst) with ⟨h1, h2⟩ | ⟨h1, h2⟩
  · rw [h1]
    omega
  · omega

/-! ## the steps of a thief -/

/-- the accesses that a thief has left up to its compare-exchange -/
def Thief.rank : Thief T → ℕ
  | .idle => 0
  | .bottom _ => 3
  | .loop _ => 2
  | .read _ => 1
  | .cas _ _ => 0

/-- how far `_top` has moved on since the thief has loaded it -/
def Thief.behind (top : ℕ) : Thief T → ℕ
  | .idle => 0
  | .bottom t | .loop t | .read t | .cas t _ => top - t.toNat

def State.debt (tid : Tid) (s : State Tid T) : ℕ :=
  (s.thief tid).rank + 3 * (s.thief tid).behind s.top.toNat

namespace Act

/-- an access of the thief `tid`; a call takes its first one with it -/
def ofThief (tid : Tid) : Act Tid T → Bool
  | .steal u | .thief u => u = tid
  | _ => false

def steals (tid : Tid) : Act Tid T → Bool
  | .steal u => u = tid
  | _ => false

def ofOwner : Act Tid T → Bool
  | .push _ | .pop | .owner => true
  | _ => false

def pushes : Act Tid T → Bool
  | .push _ => true
  | _ => false

def pops : Act Tid T → Bool
  | .pop => true
  | _ => false

end Act

theorem Thief.behind_le (pc : Thief T) {m n : ℕ} (h : m ≤ n) :
    pc.behind n ≤ pc.behind m + (n - m) := by
  cases pc with
  | idle => exact Nat.zero_le _
  | bottom t | loop t | read t | cas t =>
    show n - t.toNat ≤ m - t.toNat + (n - m)
    omega

theorem debt_other (tid : Tid) (hm : s.top.toNat ≤ s'.top.toNat)
    (ht : s'.thief tid = s.thief tid) :
    s'.debt tid + 3 * s.top.toNat ≤ s.debt tid + 3 * s'.top.toNat := by
  unfold State.debt
  rw [ht]
  have hb := (s.thief tid).behind_le hm
  omega

/-- a step of the thief is paid for by what it has left to do, or by the element that was taken -/
theorem debt_thief (h : Inv cap s) (hst : stepThief cap s tid = some s') :
    1 + s'.debt tid + 3 * s.top.toNat ≤ s.debt tid + 3 * s'.top.toNat := by
  have hm := (top_thief h hst).le
  have hok := h.thief tid
  unfold State.debt
  cases hp : s.thief tid with
  | idle => simp [stepThief, hp] at hst
  | bottom t =>
    simp only [stepThief, hp] at hst
    split at hst
    · obtain rfl := Option.some.inj hst
      simp only [State.thiefGoto, Function.update_self, Thief.rank, Thief.behind]
      omega
    · obtain rfl := Option.some.inj hst
      simp only [State.thiefGoto, Function.update_self, Thief.rank, Thief.behind]
      omega
  | loop t =>
    simp only [stepThief, hp] at hst
    split at hst
    · obtain rfl := Option.some.inj hst
      simp only [State.thiefGoto, Function.update_self, Thief.rank, Thief.behind]
      omega
    · obtain rfl := Option.some.inj hst
      simp only [State.thiefGoto, Function.update_self, Thief.rank, Thief.behind]
      omega
  | read t =>
    simp only [stepThief, hp] at hst
    obtain rfl := Option.some.inj hst
    simp only [State.thiefGoto, Function.update_self, Thief.rank, Thief.behind]
    omega
  | cas t v =>
    rw [hp] at hok
    have hle : t.toNat ≤ s.top.toNat := hok.1
    simp only [stepThief, hp] at hst
    by_cases heq : s.top = t
    · rw [if_pos heq] at hst
      obtain rfl := Option.some.inj hst
      have hone : ((s.setTop (t + 1)).stolen v).top.toNat = s.top.toNat + 1 := top_cas h hp heq
      simp only [State.thiefGoto, Function.update_self, Thief.rank, Thief.behind]
      omega
    · rw [if_neg heq] at hst
      obtain rfl := Option.some.inj hst
      have hne : t.toNat ≠ s.top.toNat := fun e => heq (UInt64.toNat_inj.mp e.symm)
      simp only [State.thiefGoto, Function.update_self, Thief.rank, Thief.behind]
      omega

theorem stepOwner_thief (hst : stepOwner cap s = some s') : s'.thief = s.thief := by
  unfold stepOwner at hst
  split at hst
  · cases hst
  · simp only at hst
    split at hst <;> (obtain rfl := Option.some.inj hst; rfl)
  · obtain rfl := Option.some.inj hst
    rfl
  · obtain rfl := Option.some.inj hst
    rfl
  · simp only at hst
    split at hst <;> (obtain rfl := Option.some.inj hst; rfl)
  · obtain rfl := Option.some.inj hst
    rfl
  · simp only at hst
    split at hst <;> (obtain rfl := Option.some.inj hst; rfl)
  · simp only at hst
    split at hst <;> (obtain rfl := Option.some.inj hst; rfl)
  · split at hst <;> (obtain rfl := Option.some.inj hst; rfl)
  · obtain rfl := Option.some.inj hst
    rfl

theorem stepThief_other {u : Tid} (hu : tid ≠ u) (hst : stepThief cap s u = some s') :
    s'.thief tid = s.thief tid := by
  unfold stepThief at hst
  split at hst
  · cases hst
  · simp only at hst
    split at hst <;> (obtain rfl := Option.some.inj hst; exact Function.update_of_ne hu ..)
  · simp only at hst
    split at hst <;> (obtain rfl := Option.some.inj hst; exact Function.update_of_ne hu ..)
  · obtain rfl := Option.some.inj hst
    exact Function.update_of_ne hu ..
  · split at hst <;> (obtain rfl := Option.some.inj hst; exact Function.update_of_ne hu ..)

/-- **A step is paid for by a call, or by an element taken.** -/
theorem debt_step (h : Inv cap s) (hst : Step cap s a s') (tid : Tid) :
    (if a.ofThief tid then 1 else 0) + s'.debt tid + 3 * s.top.toNat ≤
      s.debt tid + (if a.steals tid then 4 else 0) + 3 * s'.top.toNat := by
  have hm := (top_step h hst).le
  cases hst with
  | push | pop =>
    have hd := debt_other tid hm rfl
    show 0 + _ + _ ≤ _ + 0 + _
    omega
  | owner hst =>
    have hd := debt_other tid hm (congrFun (stepOwner_thief hst) tid)
    show 0 + _ + _ ≤ _ + 0 + _
    omega
  | @steal u hp =>
    show (if decide (u = tid) then 1 else 0) + _ + _ ≤ _ + (if decide (u = tid) then 4 else 0) + _
    by_cases hu : u = tid
    · subst hu
      rw [if_pos (decide_eq_true rfl), if_pos (decide_eq_true rfl)]
      simp only [State.debt, State.thiefGoto, Function.update_self, Thief.rank, Thief.behind]
      omega
    · rw [if_neg (by simpa using hu), if_neg (by simpa using hu)]
      have hd := debt_other tid hm (Function.update_of_ne (Ne.symm hu) ..)
      omega
  | @thief u s' hst =>
    show (if decide (u = tid) then 1 else 0) + _ + _ ≤ _ + 0 + _
    by_cases hu : u = tid
    · subst hu
      rw [if_pos (decide_eq_true rfl)]
      have hd := debt_thief h hst
      omega
    · rw [if_neg (by simpa using hu)]
      have hd := debt_other tid hm (stepThief_other (Ne.symm hu) hst)
      omega

/-! ## the steps of the owner -/

/-- the steps that the owner has left at most -/
def Owner.rank : Owner T → ℕ
  | .idle => 0
  | .pushTop _ _ => 3
  | .pushWrite _ _ => 2
  | .pushStore _ _ => 1
  | .popTop _ => 6
  | .popDec _ => 5
  | .popTop2 _ => 4
  | .popRead _ _ => 3
  | .popCas _ _ _ => 2
  | .popRestore _ _ => 1

theorem stepOwner_rank (hst : stepOwner cap s = some s') : s'.owner.rank + 1 ≤ s.owner.rank := by
  cases ho : s.owner with
  | idle => simp [stepOwner, ho] at hst
  | pushWrite | pushStore | popDec | popRestore =>
    simp only [stepOwner, ho] at hst
    obtain rfl := Option.some.inj hst
    exact Nat.le_refl _
  | pushTop | popTop | popTop2 | popRead | popCas =>
    simp only [stepOwner, ho] at hst
    split at hst
    · obtain rfl := Option.some.inj hst
      exact Nat.le_of_ble_eq_true rfl
    · obtain rfl := Option.some.inj hst
      exact Nat.le_of_ble_eq_true rfl

theorem rank_step (hst : Step cap s a s') :
    (if a.ofOwner then 1 else 0) + s'.owner.rank ≤
      s.owner.rank + ((if a.pushes then 4 else 0) + (if a.pops then 7 else 0)) := by
  cases hst with
  | push value ho =>
    rw [ho]
    exact Nat.le_refl 4
  | pop ho =>
    rw [ho]
    exact Nat.le_refl 7
  | owner hst =>
    have hr := stepOwner_rank hst
    show 1 + _ ≤ _ + 0
    omega
  | steal =>
    show 0 + s.owner.rank ≤ s.owner.rank + 0
    omega
  | thief hst =>
    have ho := (stepThief_logs hst).2.1
    show 0 + _ ≤ _ + 0
    rw [ho]
    omega

/-! ## runs -/

/-- **The owner is wait-free, and a thief is lock-free**: over a run, it does four accesses for each of
its calls, and three for each element that was taken. -/
theorem steal_lock_free (hc : cap.toNat.isPowerOfTwo) (junk : ℕ → Elem T)
    (ls : List (Act Tid T)) (h : (queue cap junk).execIf (Room cap) (start junk) ls = some s) :
    ls.countP Act.ofOwner ≤ 4 * ls.countP Act.pushes + 7 * ls.countP Act.pops ∧
      ∀ tid, ls.countP (Act.ofThief tid) ≤
        4 * ls.countP (Act.steals tid) + 3 * (taken s.log).length := by
  have hI : ∀ (s : State Tid T) a s', Inv cap s → Room cap s a →
      (queue cap junk).step s a = some s' → Inv cap s' :=
    fun s a s' hi hr hst => inv_step hi hc hr (step_cases hst)
  have h0 : Inv cap (start junk : State Tid T) := inv_start cap junk
  constructor
  · have hp := exec_amortized (fun s a s' hi hr hst => hI s a s' hi hr hst)
      (fun s a s' _ _ hst => Nat.add_le_add_right (rank_step (step_cases hst)) 0) ls h0 h
    rw [List.sum_map_add, sum_ite, sum_ite, sum_ite] at hp
    have hd : (start junk : State Tid T).owner.rank = 0 := rfl
    omega
  · intro tid
    have htop := top_le_taken hc junk (Reach.of_execIf ls .init h)
    have hp := exec_amortized hI (fun s a s' hi _ hst => debt_step hi (step_cases hst) tid) ls h0 h
    rw [sum_ite, sum_ite] at hp
    have hd : (start junk : State Tid T).debt tid = 0 := rfl
    have ht : (start junk : State Tid T).top.toNat = 1 := rfl
    omega

/-- a thief that loses its element to another one -/
theorem steal_lock_free_two : ∃ s : State Bool ℕ,
    [Act.push 7, .owner, .owner, .owner, .steal false, .steal true, .thief false, .thief true,
      .thief false, .thief true, .thief false, .thief true, .thief false, .thief true,
      .thief true].countP (Act.ofThief true) = 6 ∧ (taken s.log).length = 1 ∧
    6 ≤ 4 * 1 + 3 * (taken s.log).length := by
  have h : ((queue 4 fun _ => ⟨0, 0⟩).execIf (Room 4) (start fun _ => ⟨0, 0⟩ : State Bool ℕ)
      [Act.push 7, .owner, .owner, .owner, .steal false, .steal true, .thief false, .thief true,
        .thief false, .thief true, .thief false, .thief true, .thief false, .thief true,
        .thief true]).map (fun s => (taken s.log).length) = some 1 := by decide
  obtain ⟨s, hs, hv⟩ := Option.map_eq_some_iff.mp h
  exact ⟨s, by decide, hv, (steal_lock_free ⟨2, by decide⟩ (fun _ => ⟨0, 0⟩) _ hs).2 true⟩

/-! ## the estimate -/

theorem bottom_le_hi (h : Inv cap s) : s.bottom.toNat ≤ s.hi := by
  have ho := h.owner
  unfold State.OwnerOk at ho
  unfold State.hi
  cases hp : s.owner with
  | idle | pushTop | pushWrite | pushStore | popTop | popDec => exact Nat.le_refl _
  | popTop2 =>
    rw [hp] at ho
    exact Nat.le_of_succ_le (Nat.le_of_eq ho)
  | popRead | popCas | popRestore =>
    rw [hp] at ho
    exact Nat.le_of_succ_le (Nat.le_of_eq ho.1)

theorem held_length (hc : cap.toNat.isPowerOfTwo) (junk : ℕ → Elem T)
    (h : (queue cap junk : Machine (State Tid T) _).Reach (Room cap) s) :
    (held Elem.id s.log).length = s.hi - s.top.toNat := by
  have hn : ((pushed s.log).map Elem.id).Nodup := by
    refine (Named.reach junk h.reachable).nodup.sublist (List.Sublist.map _ ?_)
    exact List.sublist_append_left _ _
  rw [← (Inv.reach hc junk h).holds.legal.eq_held Elem.id hn, window_length]

/-- **The estimate of `volatile_size` never exceeds what was outstanding at its first load.** -/
theorem volatile_size_le (hc : cap.toNat.isPowerOfTwo) (junk : ℕ → Elem T)
    (h : (queue cap junk : Machine (State Tid T) _).Reach (Room cap) s) (ls : List (Act Tid T))
    (he : (queue cap junk).execIf (Room cap) s ls = some s') :
    (volatile_size s.bottom s'.top).toNat ≤ (held Elem.id s.log).length ∧
      (held Elem.id s.log).length ≤ cap.toNat ∧
      (s.owner = .idle → s'.top = s.top →
        (volatile_size s.bottom s'.top).toNat = (held Elem.id s.log).length) := by
  have hi := Inv.reach hc junk h
  have hb := bottom_le_hi hi
  have hle := hi.holds.le
  have hroom := hi.holds.room
  have hI : ∀ (s : State Tid T) a s', Inv cap s → Room cap s a →
      (queue cap junk).step s a = some s' → Inv cap s' :=
    fun s a s' hi hr hst => inv_step hi hc hr (step_cases hst)
  have hmono : s.top.toNat ≤ s'.top.toNat :=
    exec_mono (f := fun s => s.top.toNat) hI
      (fun s a s' hi _ hst => (top_step hi (step_cases hst)).le) ls hi he
  have hsize : (volatile_size s.bottom s'.top).toNat = s.bottom.toNat - s'.top.toNat := by
    unfold volatile_size
    split
    · next hle =>
      have hle := UInt64.le_iff_toNat_le.mp hle
      exact (Nat.sub_eq_zero_of_le hle).symm
    · next hlt =>
      refine UInt64.toNat_sub_of_le _ _ ?_
      exact Std.le_of_not_ge hlt
  rw [held_length hc junk h, hsize]
  refine ⟨by omega, by omega, ?_⟩
  intro ho ht
  have hhi : s.hi = s.bottom.toNat := by simp only [State.hi, ho]
  rw [hhi, ht]

/-- the only element is stolen between the two loads -/
theorem volatile_size_le_stolen : ∃ s s' : State Bool ℕ, s.owner = .idle ∧
    volatile_size s.bottom s'.top = 0 ∧
      (volatile_size s.bottom s'.top).toNat ≤ (held Elem.id s.log).length ∧
        (held Elem.id s.log).length ≤ (4 : UInt64).toNat ∧
        (s.owner = .idle → s'.top = s.top →
          (volatile_size s.bottom s'.top).toNat = (held Elem.id s.log).length) := by
  have h : ((queue 4 fun _ => ⟨0, 0⟩).execIf (Room 4) (start fun _ => ⟨0, 0⟩ : State Bool ℕ)
      [Act.push 7, .owner, .owner, .owner]).map (fun s => (s.owner.rank,
        ((queue 4 fun _ => ⟨0, 0⟩).execIf (Room 4) s
          [.steal false, .thief false, .thief false, .thief false, .thief false]).map
            fun s' => volatile_size s.bottom s'.top)) = some (0, some 0) := by decide
  obtain ⟨s, hs, hv⟩ := Option.map_eq_some_iff.mp h
  obtain ⟨hrank, hv⟩ := Prod.mk.inj hv
  obtain ⟨s', hs', hv⟩ := Option.map_eq_some_iff.mp hv
  have ho : s.owner = .idle := by
    cases hp : s.owner with
    | idle => rfl
    | _ =>
      rw [hp] at hrank
      cases hrank
  exact ⟨s, s', ho, hv, volatile_size_le ⟨2, by decide⟩ _ (.of_execIf _ .init hs) _ hs'⟩

end
end WorkStealing
end CppCores
