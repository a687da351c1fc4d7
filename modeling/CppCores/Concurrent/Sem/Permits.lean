import CppCores.Lib.Machine

/-!
# Semaphore: the permits of `concurrent/sem.h`

Any number of threads share a `Semaphore`.  `Acquire` does not look at what `sem_wait` answers, so that
it returns without a permit when a signal interrupts the wait; `Release` does not look at what `sem_post`
answers, which refuses to go beyond `SEM_VALUE_MAX`.  `sem_timedwait` may fail at any time.

A holder is a thread that has been told that it has a permit: by a return of `Acquire`, or by `true`.
Only holders call `Release`.

* `step_moves`      what a step does to the permits;
* `Inv`             no permit is lost but by a refusal, none is made but by an interruption, and there
                    are at least as many as at first;
* `permits_reach`   **how many holders there are, how many there can be, and that whoever waits can go
                    on as soon as one of them releases.**
-/

namespace CppCores
namespace Sem
open Machine
variable {Tid : Type*}

def SEM_VALUE_MAX : ℕ := 2147483647

structure State (Tid : Type*) where
  m_sem : ℕ
  /-- in `sem_wait`, called by `Acquire` -/
  waiting : Tid → Bool
  /-- one entry for each permit that a thread has been told of -/
  holders : List Tid
  /-- the waits that a signal has ended, read by no step -/
  interrupted : ℕ
  /-- the calls of `sem_post` that failed, read by no step -/
  refused : ℕ

/-- `Semaphore(value)` -/
def start (value : ℕ) : State Tid := ⟨value, fun _ => false, [], 0, 0⟩

namespace State

/-- the value is lowered, and `t` told so -/
def take (s : State Tid) (t : Tid) : Option (State Tid) :=
  if 0 < s.m_sem then some { s with m_sem := s.m_sem - 1, holders := t :: s.holders } else none

theorem take_pos (s : State Tid) (t : Tid) (h : 0 < s.m_sem) :
    s.take t = some { s with m_sem := s.m_sem - 1, holders := t :: s.holders } := if_pos h

theorem take_zero (s : State Tid) (t : Tid) (h : s.m_sem = 0) : s.take t = none :=
  if_neg (h ▸ Nat.lt_irrefl 0)

variable [DecidableEq Tid]

/-- `Acquire` up to the wait -/
def Acquire (s : State Tid) (t : Tid) : State Tid :=
  { s with waiting := Function.update s.waiting t true }

/-- `sem_wait` and `Acquire` return; `eintr` if a signal has ended the wait -/
def returns (s : State Tid) (t : Tid) (eintr : Bool) : Option (State Tid) :=
  let s := { s with waiting := Function.update s.waiting t false }
  if eintr then some { s with holders := t :: s.holders, interrupted := s.interrupted + 1 }
  else s.take t

/-- `sem_trywait(sem) == 0` -/
def TryAcquire (s : State Tid) (t : Tid) : Bool × State Tid :=
  match s.take t with
  | some s => (true, s)
  | none => (false, s)

/-- `sem_timedwait(sem, &ts) == 0`, with the answer that it gives -/
def TimedAcquire (s : State Tid) (t : Tid) : Bool → Option (State Tid)
  | true => s.take t
  | false => some s

/-- `sem_post` -/
def Release (s : State Tid) (t : Tid) : State Tid :=
  if s.m_sem < SEM_VALUE_MAX then { s with m_sem := s.m_sem + 1, holders := s.holders.erase t }
  else { s with holders := s.holders.erase t, refused := s.refused + 1 }

def GetValue (s : State Tid) : ℕ := s.m_sem

end State

variable [DecidableEq Tid]

inductive Act (Tid : Type*) where
  | acquire (t : Tid)
  | returns (t : Tid) (eintr : Bool)
  | tryAcquire (t : Tid)
  | timedAcquire (t : Tid) (answer : Bool)
  | release (t : Tid)
  deriving DecidableEq, Repr

def step (s : State Tid) : Act Tid → Option (State Tid)
  | .acquire t => if s.waiting t then none else some (s.Acquire t)
  | .returns t eintr => if s.waiting t then s.returns t eintr else none
  | .tryAcquire t => if s.waiting t then none else some (s.TryAcquire t).2
  | .timedAcquire t answer => if s.waiting t then none else s.TimedAcquire t answer
  | .release t => if s.waiting t = false ∧ t ∈ s.holders then some (s.Release t) else none

def machine (value : ℕ) : Machine (State Tid) (Act Tid) := ⟨start value, step⟩

variable {s s' : State Tid} {t u : Tid} {value : ℕ}

/-! ## what a step does -/

/-- the amounts of a state: the value, the holders, the interruptions and the refusals -/
def State.amounts (s : State Tid) : ℕ × ℕ × ℕ × ℕ :=
  (s.m_sem, s.holders.length, s.interrupted, s.refused)

/-- **What a step does to the amounts.** -/
inductive Moves : ℕ × ℕ × ℕ × ℕ → ℕ × ℕ × ℕ × ℕ → Prop where
  | none (v h i r : ℕ) : Moves (v, h, i, r) (v, h, i, r)
  | takes (v h i r : ℕ) : Moves (v + 1, h, i, r) (v, h + 1, i, r)
  | interrupted (v h i r : ℕ) : Moves (v, h, i, r) (v, h + 1, i + 1, r)
  | gives (v h i r : ℕ) (hv : v < SEM_VALUE_MAX) : Moves (v, h + 1, i, r) (v + 1, h, i, r)
  | refused (v h i r : ℕ) (hv : SEM_VALUE_MAX ≤ v) : Moves (v, h + 1, i, r) (v, h, i, r + 1)

omit [DecidableEq Tid] in
theorem take_moves (h : s.take t = some s') : Moves s.amounts s'.amounts := by
  obtain ⟨v, w, hs, i, r⟩ := s
  cases v with
  | zero => cases (State.take_zero _ t rfl).symm.trans h
  | succ v =>
    obtain rfl := Option.some.inj ((State.take_pos _ t (Nat.succ_pos v)).symm.trans h)
    exact .takes v hs.length i r

theorem release_moves (ht : t ∈ s.holders) : Moves s.amounts (s.Release t).amounts := by
  have hlen : s.holders.length = (s.holders.erase t).length + 1 := by
    rw [List.length_erase_of_mem ht]
    have := List.length_pos_of_mem ht
    omega
  unfold State.amounts
  rw [hlen]
  unfold State.Release
  split
  · exact .gives _ _ _ _ ‹_›
  · exact .refused _ _ _ _ (Nat.le_of_not_lt ‹_›)

theorem step_moves {a : Act Tid} (h : step s a = some s') : Moves s.amounts s'.amounts := by
  cases a with
  | acquire t =>
    obtain ⟨-, rfl⟩ : s.waiting t ≠ true ∧ s.Acquire t = s' := by simpa [step] using h
    exact .none ..
  | returns t eintr =>
    obtain ⟨-, h⟩ : s.waiting t = true ∧ s.returns t eintr = some s' := by simpa [step] using h
    cases eintr with
    | true =>
      obtain rfl := Option.some.inj h
      exact .interrupted ..
    | false => exact take_moves (s := { s with waiting := Function.update s.waiting t false }) h
  | tryAcquire t =>
    obtain ⟨-, rfl⟩ : s.waiting t ≠ true ∧ (s.TryAcquire t).2 = s' := by simpa [step] using h
    cases hk : s.take t with
    | none =>
      rw [State.TryAcquire, hk]
      exact .none ..
    | some s' =>
      rw [State.TryAcquire, hk]
      exact take_moves hk
  | timedAcquire t answer =>
    obtain ⟨-, h⟩ : s.waiting t ≠ true ∧ s.TimedAcquire t answer = some s' := by
      simpa [step] using h
    cases answer with
    | true => exact take_moves h
    | false =>
      obtain rfl := Option.some.inj h
      exact .none ..
  | release t =>
    obtain ⟨⟨-, ht⟩, rfl⟩ : (s.waiting t = false ∧ t ∈ s.holders) ∧ s.Release t = s' := by
      simpa [step] using h
    exact release_moves ht

/-! ## the invariant -/

/-- the permits are those of the beginning and those that interruptions made, less the refused ones -/
structure Inv (value : ℕ) (s : State Tid) : Prop where
  fits : s.m_sem ≤ SEM_VALUE_MAX
  balance : s.m_sem + s.holders.length + s.refused = value + s.interrupted
  refused_le : s.refused ≤ s.interrupted

omit [DecidableEq Tid] in
theorem inv_start (hv : value ≤ SEM_VALUE_MAX) : Inv value (start value : State Tid) :=
  ⟨hv, rfl, Nat.le_refl 0⟩

/-- a permit is refused only when there is one more than at first -/
theorem Inv.step (hv : value ≤ SEM_VALUE_MAX) (hi : Inv value s) {a : Act Tid}
    (h : step s a = some s') : Inv value s' := by
  obtain ⟨hf, hb, hr⟩ := hi
  have hm := step_moves h
  obtain ⟨v, w, hs, i, r⟩ := s
  obtain ⟨v', w', hs', i', r'⟩ := s'
  dsimp only [State.amounts] at hf hb hr hm
  generalize hs.length = n at hb hm
  generalize hl : hs'.length = n' at hm
  refine ⟨?_, ?_, ?_⟩ <;> dsimp only <;> cases hm <;> omega

theorem Inv.reach (hv : value ≤ SEM_VALUE_MAX) (h : (machine value).Reachable s) : Inv value s :=
  h.inv (inv_start hv) fun _ _ _ hi _ hst => hi.step hv hst

/-! ## what can happen next -/

/-- a thread that is not in `Acquire` can take all permits that are left -/
theorem exec_tryAcquire (value : ℕ) (hw : s.waiting t = false) : ∃ s', (machine value).exec s
    (List.replicate s.m_sem (.tryAcquire t)) = some s' ∧ s'.m_sem = 0 ∧
      s'.holders = List.replicate s.m_sem t ++ s.holders := by
  induction hv : s.m_sem generalizing s with
  | zero => exact ⟨s, rfl, hv, rfl⟩
  | succ v ih =>
    have hk := State.take_pos s t (hv ▸ Nat.succ_pos v)
    have hst : step s (.tryAcquire t) =
        some { s with m_sem := s.m_sem - 1, holders := t :: s.holders } := by
      simp only [step, hw, Bool.false_eq_true, if_false, State.TryAcquire, hk]
    obtain ⟨s', he, h0, hh⟩ := ih (s := { s with m_sem := s.m_sem - 1, holders := t :: s.holders }) hw
      (by rw [hv, Nat.add_sub_cancel])
    refine ⟨s', ?_, h0, ?_⟩
    · rw [List.replicate_succ, Machine.exec]
      exact Option.bind_eq_some_iff.mpr ⟨_, hst, he⟩
    · rw [hh, List.replicate_succ', List.append_assoc]
      rfl

theorem returns_of_pos (hw : s.waiting t = true) (h : 0 < s.m_sem) :
    ∃ s', step s (.returns t false) = some s' := by
  have hk := State.take_pos { s with waiting := Function.update s.waiting t false } t h
  exact ⟨_, (if_pos hw : step s (.returns t false) = s.returns t false).trans hk⟩

/-- **The permits of a semaphore.** -/
theorem permits_reach (hv : value ≤ SEM_VALUE_MAX) (h : (machine value).Reachable s) :
    (s.GetValue ≤ SEM_VALUE_MAX ∧
      s.GetValue + s.holders.length + s.refused = value + s.interrupted ∧
      s.refused ≤ s.interrupted) ∧
    (∀ t, s.waiting t = false → ∃ s', (machine value).exec s
      (List.replicate s.m_sem (.tryAcquire t)) = some s' ∧
        s'.holders.length + s.refused = value + s.interrupted) ∧
    ∀ t, s.waiting t = true → 0 < value → (∃ s', step s (.returns t false) = some s') ∨
      s.holders ≠ [] ∧ ∀ u ∈ s.holders, s.waiting u = false →
        ∃ s₁ s₂, step s (.release u) = some s₁ ∧ step s₁ (.returns t false) = some s₂ := by
  have hi := Inv.reach hv h
  refine ⟨⟨hi.fits, hi.balance, hi.refused_le⟩, fun t hw => ?_, fun t hw hpos => ?_⟩
  · obtain ⟨s', he, -, hh⟩ := exec_tryAcquire value hw
    refine ⟨s', he, ?_⟩
    rw [hh, List.length_append, List.length_replicate]
    exact hi.balance
  · by_cases h0 : 0 < s.m_sem
    · exact .inl (returns_of_pos hw h0)
    · have h0 : s.m_sem = 0 := Nat.eq_zero_of_not_pos h0
      have hb := hi.balance
      have hr := hi.refused_le
      refine .inr ⟨fun hnil => ?_, fun u hu hwu => ?_⟩
      · rw [hnil, h0] at hb
        simp only [List.length_nil] at hb
        omega
      · have hrel : s.Release u = { s with m_sem := s.m_sem + 1, holders := s.holders.erase u } :=
          if_pos (h0 ▸ (by decide : 0 < SEM_VALUE_MAX))
        have hst : step s (.release u) =
            some { s with m_sem := s.m_sem + 1, holders := s.holders.erase u } := by
          rw [step, if_pos ⟨hwu, hu⟩, hrel]
        obtain ⟨s₂, h₂⟩ := returns_of_pos
          (s := { s with m_sem := s.m_sem + 1, holders := s.holders.erase u }) hw (Nat.succ_pos _)
        exact ⟨_, s₂, hst, h₂⟩

/-- one permit, and a wait that a signal ends: two holders -/
theorem permits_reach_interrupted : ∃ s : State (Fin 3), (machine 1).Reachable s ∧
    s.holders = [1, 0] ∧ s.waiting 2 = true ∧
    s.GetValue + s.holders.length + s.refused = 1 + s.interrupted ∧
    ((∃ s', step s (.returns 2 false) = some s') ∨
      s.holders ≠ [] ∧ ∀ u ∈ s.holders, s.waiting u = false →
      ∃ s₁ s₂, step s (.release u) = some s₁ ∧ step s₁ (.returns 2 false) = some s₂) := by
  have hrun : ((machine 1).exec (start 1) [.acquire 0, .returns 0 false, .acquire 1, .returns 1 true,
      .tryAcquire (2 : Fin 3), .acquire 2]).any (fun s => s.holders = [1, 0] && s.waiting 2) = true := by
    decide
  obtain ⟨s, hs, hp⟩ := (Option.any_eq_true _ _).mp hrun
  obtain ⟨hh, hw⟩ := Bool.and_eq_true_iff.mp hp
  have hr : (machine 1).Reachable s := Machine.Reach.of_exec _ .init hs
  obtain ⟨⟨-, hb, -⟩, -, hgo⟩ := permits_reach (by decide) hr
  exact ⟨s, hr, of_decide_eq_true hh, hw, hb, hgo 2 hw Nat.one_pos⟩

end Sem
end CppCores
