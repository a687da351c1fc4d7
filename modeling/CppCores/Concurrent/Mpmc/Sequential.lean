import CppCores.Concurrent.Mpmc.Inv

/-!
# MpmcLockFreeQueue: calls that do not overlap

`Sequential` lets a call begin only when all others have returned.  Then the two counts that `push`
loads are equal, as they are loaded from one counter and nobody stores to it in between, so that
`push` answers neither false nor true.

* `pushing_exec`       **a `push` that runs alone never returns**, with or without spurious failures;
* `fresh_of_quiescent` so a queue between two calls is as it was at the start;
* `fits_iff`           and the next call works like one of a bounded FIFO iff it is a `pop`.
-/

namespace CppCores
namespace Mpmc
open Machine

set_option linter.unusedSectionVars false

variable {P C T : Type*} [DecidableEq P] [DecidableEq C]
variable {N : ℕ} {arg : P → T} {junk : ℕ → T} {s s' : State P C T} {a : Act P C}

/-- the call has begun and not returned -/
def PushPc.active : PushPc → Bool
  | .idle | .returned _ => false
  | .loadPush _ | .loadPop .. | .acquire .. | .write .. | .store .. | .reload => true

def PopPc.active : PopPc T → Bool
  | .idle | .returned _ => false
  | .loadPop _ | .loadPush .. | .acquire .. | .read .. | .store .. | .reload => true

/-- no call is going on -/
def Quiescent (s : State P C T) : Prop :=
  (∀ p, (s.pusher p).active = false) ∧ ∀ c, (s.popper c).active = false

/-- calls do not overlap -/
def Sequential (s : State P C T) : Act P C → Prop
  | .push _ | .pop _ => Quiescent s
  | .pusher _ | .spuriousPush _ | .popper _ | .spuriousPop _ => True

/-- the elements of the tickets that were won by a `push` and by no `pop`, the oldest first -/
def held (N : ℕ) (s : State P C T) : List T :=
  (List.range' s.r_count (s.w_count - s.r_count)).map fun k => (s.data (k % N)).val

/-- counters and slots are the same -/
def Same (s s' : State P C T) : Prop :=
  s'.w_count = s.w_count ∧ s'.r_count = s.r_count ∧ s'.data = s.data

inductive Call (P C : Type*) where
  | push (p : P)
  | pop (c : C)

/-- the call is yet to be made -/
def Call.Idle (s : State P C T) : Call P C → Prop
  | .push p => s.pusher p = .idle
  | .pop c => s.popper c = .idle

/-- the call, made alone, returns after finitely many steps and does what it does on a FIFO of
capacity `N` -/
def Fits (N : ℕ) (arg : P → T) (junk : ℕ → T) (s : State P C T) : Call P C → Prop
  | .push p => ∃ n s', (queue N arg junk).exec s (.push p :: List.replicate n (.pusher p)) = some s' ∧
      if (held N s).length < N then
        s'.pusher p = .returned true ∧ held N s' = held N s ++ [arg p]
      else s'.pusher p = .returned false ∧ Same s s'
  | .pop c => ∃ n s', (queue N arg junk).exec s (.pop c :: List.replicate n (.popper c)) = some s' ∧
      match held N s with
      | [] => s'.popper c = .returned none ∧ Same s s'
      | v :: vs => s'.popper c = .returned (some v) ∧ held N s' = vs

/-! ## a `push` alone -/

/-- the call goes on, and the two counts that it compares are the same -/
def PushPc.Alone (N : ℕ) (data : ℕ → Slot T) : PushPc → Prop
  | .loadPop w push_count => (data (w % N)).push_count = push_count
  | .loadPush _ | .acquire .. | .write .. | .store .. | .reload => True
  | .idle | .returned _ => False

theorem PushPc.Alone.active {data : ℕ → Slot T} {pc : PushPc} (h : pc.Alone N data) :
    pc.active = true := by
  cases pc with
  | idle | returned => cases h
  | loadPush | loadPop | acquire | write | store | reload => rfl

theorem alone_test (data : ℕ → Slot T) (w k : ℕ) : (testPush N w k k).Alone N data := by
  unfold testPush
  rw [if_neg (Nat.lt_irrefl k)]
  split <;> trivial

theorem pusherAt_pusher {p : P} {pc : PushPc} : (s.pusherAt p pc).pusher p = pc :=
  Function.update_self ..

theorem alone_stepPusher {p : P} (h : (s.pusher p).Alone N s.data)
    (hst : stepPusher N arg s p = some s') : (s'.pusher p).Alone N s'.data := by
  unfold stepPusher at hst
  split at hst
  · cases hst
  · obtain rfl := Option.some.inj hst
    rw [pusherAt_pusher]
    exact rfl
  · rename_i w k hp
    rw [hp] at h
    obtain rfl := Option.some.inj hst
    obtain rfl : (s.data (w % N)).push_count = k := h
    rw [pusherAt_pusher]
    exact alone_test ..
  · split at hst
    all_goals
      obtain rfl := Option.some.inj hst
      rw [pusherAt_pusher]
      trivial
  · obtain rfl := Option.some.inj hst
    rw [pusherAt_pusher]
    trivial
  · obtain rfl := Option.some.inj hst
    rw [pusherAt_pusher]
    trivial
  · obtain rfl := Option.some.inj hst
    rw [pusherAt_pusher]
    trivial
  · cases hst

theorem alone_spuriousPush {p : P} (hst : step N arg s (.spuriousPush p) = some s') :
    (s'.pusher p).Alone N s'.data := by
  simp only [step] at hst
  split at hst
  · obtain rfl := Option.some.inj hst
    rw [pusherAt_pusher]
    trivial
  · cases hst

/-- **A `push` that runs alone has not returned after any number of steps.** -/
theorem pushing_exec {p : P} (acts : List (Act P C)) (h : (s.pusher p).Alone N s.data)
    (hacts : ∀ a ∈ acts, a = .pusher p ∨ a = .spuriousPush p)
    (he : (queue N arg junk).exec s acts = some s') : (s'.pusher p).Alone N s'.data := by
  induction acts generalizing s with
  | nil =>
    obtain rfl := Option.some.inj he
    exact h
  | cons a acts ih =>
    obtain ⟨s1, h1, h2⟩ := Option.bind_eq_some_iff.mp he
    have hst : step N arg s a = some s1 := h1
    apply ih _ (fun b hb => hacts b (List.mem_cons_of_mem a hb)) h2
    rcases hacts a List.mem_cons_self with rfl | rfl
    · exact alone_stepPusher h hst
    · exact alone_spuriousPush hst

theorem push_begins {p : P} (hst : (queue N arg junk).step s (.push p) = some s') :
    (s'.pusher p).Alone N s'.data := by
  obtain ⟨-, hst⟩ := Option.ite_none_right_eq_some.mp hst
  obtain rfl := Option.some.inj hst
  rw [pusherAt_pusher]
  trivial

theorem not_fits_push (p : P) : ¬ Fits N arg junk s (.push p) := by
  intro h
  obtain ⟨n, s', he, hans⟩ := h
  obtain ⟨s1, h1, h2⟩ := Option.bind_eq_some_iff.mp he
  have halone : (s'.pusher p).Alone N s'.data :=
    pushing_exec _ (push_begins h1) (fun a ha => .inl (List.eq_of_mem_replicate ha)) h2
  split at hans
  · rw [hans.1] at halone
    cases halone
  · rw [hans.1] at halone
    cases halone

/-! ## calls that do not overlap -/

/-- where a `pop` of the empty queue can be -/
def PopPc.Empty : PopPc T → Prop
  | .idle | .returned none => True
  | .loadPop r => r = 0
  | .loadPush r pop_count => r = 0 ∧ pop_count = 0
  | .acquire .. | .read .. | .store .. | .reload | .returned (some _) => False

/-- no `push` has been made -/
structure Fresh (s : State P C T) : Prop where
  w_count : s.w_count = 0
  r_count : s.r_count = 0
  counts : ∀ i, (s.data i).pop_count = 0 ∧ (s.data i).push_count = 0
  push : ∀ p, (s.pusher p).active = false
  pop : ∀ c, (s.popper c).Empty

/-- one `push` goes on, alone -/
structure Pushing (N : ℕ) (s : State P C T) (p : P) : Prop where
  alone : (s.pusher p).Alone N s.data
  push : ∀ q, q ≠ p → (s.pusher q).active = false
  pop : ∀ c, (s.popper c).active = false

theorem stepPusher_inactive {p : P} (h : (s.pusher p).active = false) : stepPusher N arg s p = none := by
  unfold stepPusher
  cases hp : s.pusher p with
  | idle | returned => rfl
  | loadPush | loadPop | acquire | write | store | reload =>
    rw [hp] at h
    cases h

theorem stepPopper_inactive {c : C} (h : (s.popper c).active = false) : stepPopper N s c = none := by
  unfold stepPopper
  cases hp : s.popper c with
  | idle | returned => rfl
  | loadPop | loadPush | acquire | read | store | reload =>
    rw [hp] at h
    cases h

theorem stepPusher_frame {p : P} (hst : stepPusher N arg s p = some s') :
    (∀ q, q ≠ p → s'.pusher q = s.pusher q) ∧ s'.popper = s.popper := by
  unfold stepPusher at hst
  split at hst
  · cases hst
  · obtain rfl := Option.some.inj hst
    exact ⟨fun q hq => Function.update_of_ne hq .., rfl⟩
  · obtain rfl := Option.some.inj hst
    exact ⟨fun q hq => Function.update_of_ne hq .., rfl⟩
  · split at hst
    all_goals
      obtain rfl := Option.some.inj hst
      exact ⟨fun q hq => Function.update_of_ne hq .., rfl⟩
  · obtain rfl := Option.some.inj hst
    exact ⟨fun q hq => Function.update_of_ne hq .., rfl⟩
  · obtain rfl := Option.some.inj hst
    exact ⟨fun q hq => Function.update_of_ne hq .., rfl⟩
  · obtain rfl := Option.some.inj hst
    exact ⟨fun q hq => Function.update_of_ne hq .., rfl⟩
  · cases hst

/-- **Only the `push` that goes on can move.** -/
theorem Pushing.step {p : P} (h : Pushing N s p) (hok : Sequential s a)
    (hst : step N arg s a = some s') : Pushing N s' p := by
  have hbusy : ¬ Quiescent s := by
    intro hq
    have hp := hq.1 p
    rw [h.alone.active] at hp
    cases hp
  cases a with
  | push q => exact absurd hok hbusy
  | pop c => exact absurd hok hbusy
  | popper c =>
    have hst : stepPopper N s c = some s' := hst
    rw [stepPopper_inactive (h.pop c)] at hst
    cases hst
  | spuriousPop c =>
    have hc := h.pop c
    simp only [Mpmc.step] at hst
    split at hst
    · rename_i hp
      rw [hp] at hc
      cases hc
    · cases hst
  | pusher q =>
    have hst : stepPusher N arg s q = some s' := hst
    by_cases hq : q = p
    · subst hq
      obtain ⟨hother, hpop⟩ := stepPusher_frame hst
      exact
        { alone := alone_stepPusher h.alone hst
          push := fun r hr => by rw [hother r hr]; exact h.push r hr
          pop := fun c => by rw [hpop]; exact h.pop c }
    · rw [stepPusher_inactive (h.push q hq)] at hst
      cases hst
  | spuriousPush q =>
    by_cases hq : q = p
    · subst hq
      have halone := alone_spuriousPush hst
      simp only [Mpmc.step] at hst
      split at hst
      · obtain rfl := Option.some.inj hst
        exact
          { alone := halone
            push := fun r hr => by
              rw [show (s.pusherAt q _).pusher r = s.pusher r from Function.update_of_ne hr ..]
              exact h.push r hr
            pop := h.pop }
      · cases hst
    · have hin := h.push q hq
      simp only [Mpmc.step] at hst
      split at hst
      · rename_i hp
        rw [hp] at hin
        cases hin
      · cases hst

theorem PopPc.Empty.forall_update {pc : PopPc T} {c : C} (h : ∀ d, (s.popper d).Empty) (hp : pc.Empty) :
    ∀ d, (Function.update s.popper c pc d).Empty :=
  (Function.forall_update_iff s.popper fun _ pc => pc.Empty).mpr ⟨hp, fun d _ => h d⟩

/-- a `pop` of the queue that no `push` has reached -/
theorem Fresh.stepPopper {c : C} (h : Fresh s) (hst : stepPopper N s c = some s') : Fresh s' := by
  have hc := h.pop c
  unfold Mpmc.stepPopper at hst
  split at hst
  · cases hst
  · rename_i r hp
    rw [hp] at hc
    obtain rfl := Option.some.inj hst
    exact { h with pop := PopPc.Empty.forall_update h.pop ⟨hc, (h.counts _).1⟩ }
  · rename_i r k hp
    rw [hp] at hc
    obtain ⟨rfl, rfl⟩ := hc
    obtain rfl := Option.some.inj hst
    refine { h with pop := PopPc.Empty.forall_update h.pop ?_ }
    rw [(h.counts (0 % N)).2, testPop, if_pos rfl]
    trivial
  · rename_i hp
    rw [hp] at hc
    cases hc
  · rename_i hp
    rw [hp] at hc
    cases hc
  · rename_i hp
    rw [hp] at hc
    cases hc
  · rename_i hp
    rw [hp] at hc
    cases hc
  · cases hst

/-- **A run whose calls do not overlap has had no `push`, or is in one for ever.** -/
theorem sequential_reach (h : (queue N arg junk : Machine (State P C T) _).Reach Sequential s) :
    Fresh s ∨ ∃ p, Pushing N s p := by
  apply h.inv (I := fun s => Fresh s ∨ ∃ p, Pushing N s p)
  · left
    exact
      { w_count := rfl
        r_count := rfl
        counts := fun _ => ⟨rfl, rfl⟩
        push := fun _ => rfl
        pop := fun _ => trivial }
  · intro s a s' hs hok hst
    have hst' : step N arg s a = some s' := hst
    rcases hs with hfresh | ⟨p, hp⟩
    · cases a with
      | push p =>
        right
        have halone := push_begins hst
        obtain ⟨-, hst'⟩ := Option.ite_none_right_eq_some.mp hst'
        obtain rfl := Option.some.inj hst'
        refine ⟨p, halone, fun q hq => ?_, hok.2⟩
        rw [show (s.pusherAt p _).pusher q = s.pusher q from Function.update_of_ne hq ..]
        exact hfresh.push q
      | pusher p =>
        have hst' : stepPusher N arg s p = some s' := hst
        rw [stepPusher_inactive (hfresh.push p)] at hst'
        cases hst'
      | spuriousPush p =>
        have hp := hfresh.push p
        simp only [step] at hst'
        split at hst'
        · rename_i hpc
          rw [hpc] at hp
          cases hp
        · cases hst'
      | pop c =>
        left
        simp only [step] at hst'
        split at hst'
        · obtain rfl := Option.some.inj hst'
          exact { hfresh with pop := PopPc.Empty.forall_update hfresh.pop hfresh.r_count }
        · cases hst'
      | popper c => exact .inl (hfresh.stepPopper hst)
      | spuriousPop c =>
        have hc := hfresh.pop c
        simp only [step] at hst'
        split at hst'
        · rename_i hpc
          rw [hpc] at hc
          cases hc
        · cases hst'
    · exact .inr ⟨p, hp.step hok hst'⟩

/-- **Between two calls the queue is as it was at the start.** -/
theorem fresh_of_quiescent (h : (queue N arg junk : Machine (State P C T) _).Reach Sequential s)
    (hq : Quiescent s) : Fresh s := by
  refine (sequential_reach h).resolve_right ?_
  intro hp
  obtain ⟨p, hp⟩ := hp
  have hactive := hq.1 p
  rw [hp.alone.active] at hactive
  cases hactive

theorem Fresh.fits_pop {c : C} (h : Fresh s) (hc : s.popper c = .idle) :
    Fits N arg junk s (.pop c) := by
  have hheld : held N s = [] := by
    rw [held, h.w_count, h.r_count]
    rfl
  let s1 := s.popperAt c (.loadPop s.r_count)
  let s2 := s1.popperAt c (.loadPush s.r_count (s.data (s.r_count % N)).pop_count)
  let s3 := s2.popperAt c (testPop N s.r_count (s.data (s.r_count % N)).pop_count
    (s.data (s.r_count % N)).push_count)
  have h1 : step N arg s (.pop c) = some s1 := by
    simp only [step, hc]
    rfl
  have h2 : step N arg s1 (.popper c) = some s2 := by
    have hpc : s1.popper c = .loadPop s.r_count := Function.update_self ..
    simp only [step, Mpmc.stepPopper, hpc]
    rfl
  have h3 : step N arg s2 (.popper c) = some s3 := by
    have hpc : s2.popper c = .loadPush s.r_count (s.data (s.r_count % N)).pop_count :=
      Function.update_self ..
    simp only [step, Mpmc.stepPopper, hpc]
    rfl
  refine ⟨2, s3, ?_, ?_⟩
  · show (step N arg s (.pop c)).bind (fun s' => (step N arg s' (.popper c)).bind fun s' =>
      (step N arg s' (.popper c)).bind some) = some s3
    rw [h1, Option.bind_some, h2, Option.bind_some, h3, Option.bind_some]
  · rw [hheld]
    refine ⟨?_, rfl, rfl, rfl⟩
    show Function.update s2.popper c _ c = .returned none
    rw [Function.update_self, (h.counts _).1, (h.counts _).2, testPop, if_pos rfl]

/-- **From every state between calls that do not overlap, the next call returns and works as on a FIFO
of capacity `N` iff it is a `pop`.** -/
theorem fits_iff (h : (queue N arg junk : Machine (State P C T) _).Reach Sequential s)
    (hq : Quiescent s) (call : Call P C) (hidle : call.Idle s) :
    Fits N arg junk s call ↔ ∃ c, call = .pop c := by
  cases call with
  | push p =>
    refine iff_of_false (not_fits_push p) ?_
    intro hc
    obtain ⟨c, hc⟩ := hc
    cases hc
  | pop c => exact iff_of_true ((fresh_of_quiescent h hq).fits_pop hidle) ⟨c, rfl⟩

/-- after a first `pop`, another one fits and a `push` does not -/
theorem fits_second : ∃ s : State (Fin 1) (Fin 2) ℕ, s.popper 0 = .returned none ∧
    Fits 3 (fun _ => 7) id s (.pop 1) ∧ ¬ Fits 3 (fun _ => 7) id s (.push 0) := by
  let Q : Machine (State (Fin 1) (Fin 2) ℕ) _ := queue 3 (fun _ => 7) id
  let s1 : State (Fin 1) (Fin 2) ℕ := (start id).popperAt 0 (.loadPop 0)
  let s2 := s1.popperAt 0 (.loadPush 0 0)
  let s3 := s2.popperAt 0 (.returned none)
  have hr1 : Q.Reach Sequential s1 := .step .init ⟨fun _ => rfl, fun _ => rfl⟩ (l := .pop 0) rfl
  have hr2 : Q.Reach Sequential s2 := .step hr1 trivial (l := .popper 0) rfl
  have hr3 : Q.Reach Sequential s3 := .step hr2 trivial (l := .popper 0) rfl
  have hq : Quiescent s3 := by
    refine ⟨fun _ => rfl, fun c => ?_⟩
    match c with
    | 0 => rfl
    | 1 => rfl
  refine ⟨s3, rfl, (fits_iff hr3 hq (.pop 1) rfl).mpr ⟨1, rfl⟩, fun h => ?_⟩
  obtain ⟨c, hc⟩ := (fits_iff hr3 hq (.push 0) rfl).mp h
  cases hc

/-- the first `push` does not return -/
theorem not_fits : ¬ ∀ (s : State (Fin 1) (Fin 1) ℕ) (call : Call (Fin 1) (Fin 1)),
    (queue 3 (fun _ => 7) id : Machine (State (Fin 1) (Fin 1) ℕ) _).Reach Sequential s →
      Quiescent s → call.Idle s → Fits 3 (fun _ => 7) id s call := by
  intro hall
  have hq : Quiescent (start id : State (Fin 1) (Fin 1) ℕ) := ⟨fun _ => rfl, fun _ => rfl⟩
  exact not_fits_push 0 (hall (start id) (.push 0) .init hq rfl)

end Mpmc
end CppCores
