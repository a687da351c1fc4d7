import CppCores.Concurrent.WorkStealing.Model

/-!
# WorkStealingQueue: the two logs

`log` has the operations in the order in which they take effect, `rets` in the order in which they
return.  `stepOwner_logs` and `stepThief_logs` say once what a step enters; from them:

* `Answered.reach`   the two logs agree up to order and up to the one operation of the owner that has
                     taken effect and not returned, and the pushes stand in the same order in both;
* `Named.reach`      the elements pushed, and the one being brought, have different names.
-/

set_option linter.unusedSectionVars false

namespace CppCores
namespace WorkStealing
variable {Tid T : Type*}

/-- the element of a `push` that is not yet stored -/
def Owner.bringing : Owner T → List (Elem T)
  | .pushTop v _ => [v]
  | .pushWrite v _ => [v]
  | .pushStore v _ => [v]
  | _ => []

/-- an operation that has taken effect and has not returned -/
def Owner.pending : Owner T → List (DequeOp (Elem T))
  | .popRestore _ r => [popResult r]
  | _ => []

/-! ## what a step does to the logs -/

/-- **A step of the owner, seen from the logs.**  It enters `new` when it takes effect and `ret` when
it returns; what has taken effect and not returned is `pending`, and an element is either stored,
still being brought, or refused. -/
theorem stepOwner_logs {cap : UInt64} {s s' : State Tid T} (hst : stepOwner cap s = some s') :
    s'.calls = s.calls ∧ ∃ new ret, s'.log = s.log ++ new ∧ s'.rets = s.rets ++ ret ∧
      s.owner.pending ++ new = ret ++ s'.owner.pending ∧ pushed new = pushed ret ∧
      (s.owner.bringing = pushed new ++ s'.owner.bringing ∨
        pushed new = [] ∧ s'.owner.bringing = []) := by
  cases ho : s.owner with
  | idle => simp [stepOwner, ho] at hst
  | pushTop v b =>
    simp only [stepOwner, ho] at hst
    by_cases h : b ≥ s.top + cap
    · rw [if_pos h] at hst
      obtain rfl := Option.some.inj hst
      exact ⟨rfl, [.full], [.full], rfl, rfl, rfl, rfl, .inr ⟨rfl, rfl⟩⟩
    · rw [if_neg h] at hst
      obtain rfl := Option.some.inj hst
      exact ⟨rfl, [], [], (List.append_nil _).symm, (List.append_nil _).symm, rfl, rfl, .inl rfl⟩
  | pushWrite v b =>
    simp only [stepOwner, ho] at hst
    obtain rfl := Option.some.inj hst
    exact ⟨rfl, [], [], (List.append_nil _).symm, (List.append_nil _).symm, rfl, rfl, .inl rfl⟩
  | pushStore v b =>
    simp only [stepOwner, ho] at hst
    obtain rfl := Option.some.inj hst
    exact ⟨rfl, [.pushBack v], [.pushBack v], rfl, rfl, rfl, rfl, .inl rfl⟩
  | popTop b =>
    simp only [stepOwner, ho] at hst
    by_cases h : s.top ≥ b
    · rw [if_pos h] at hst
      obtain rfl := Option.some.inj hst
      exact ⟨rfl, [.empty], [.empty], rfl, rfl, rfl, rfl, .inl rfl⟩
    · rw [if_neg h] at hst
      obtain rfl := Option.some.inj hst
      exact ⟨rfl, [], [], (List.append_nil _).symm, (List.append_nil _).symm, rfl, rfl, .inl rfl⟩
  | popDec b =>
    simp only [stepOwner, ho] at hst
    obtain rfl := Option.some.inj hst
    exact ⟨rfl, [], [], (List.append_nil _).symm, (List.append_nil _).symm, rfl, rfl, .inl rfl⟩
  | popTop2 b =>
    simp only [stepOwner, ho] at hst
    by_cases h : s.top > b - 1
    · rw [if_pos h] at hst
      obtain rfl := Option.some.inj hst
      exact ⟨rfl, [.empty], [], rfl, (List.append_nil _).symm, rfl, rfl, .inl rfl⟩
    · rw [if_neg h] at hst
      obtain rfl := Option.some.inj hst
      exact ⟨rfl, [], [], (List.append_nil _).symm, (List.append_nil _).symm, rfl, rfl, .inl rfl⟩
  | popRead b t =>
    simp only [stepOwner, ho] at hst
    by_cases h : t ≠ b - 1
    · rw [if_pos h] at hst
      obtain rfl := Option.some.inj hst
      exact ⟨rfl, [.popBack _], [.popBack _], rfl, rfl, rfl, rfl, .inl rfl⟩
    · rw [if_neg h] at hst
      obtain rfl := Option.some.inj hst
      exact ⟨rfl, [], [], (List.append_nil _).symm, (List.append_nil _).symm, rfl, rfl, .inl rfl⟩
  | popCas b t v =>
    simp only [stepOwner, ho] at hst
    by_cases h : s.top = t
    · rw [if_pos h] at hst
      obtain rfl := Option.some.inj hst
      exact ⟨rfl, [.popBack v], [], rfl, (List.append_nil _).symm, rfl, rfl, .inl rfl⟩
    · rw [if_neg h] at hst
      obtain rfl := Option.some.inj hst
      exact ⟨rfl, [.empty], [], rfl, (List.append_nil _).symm, rfl, rfl, .inl rfl⟩
  | popRestore b r =>
    simp only [stepOwner, ho] at hst
    obtain rfl := Option.some.inj hst
    have hr : pushed [] = pushed [popResult r] := by cases r <;> rfl
    exact ⟨rfl, [], [popResult r], (List.append_nil _).symm, rfl, rfl, hr, .inl rfl⟩

/-- a step of a thief enters the same in both logs and leaves the owner where it is -/
theorem stepThief_logs [DecidableEq Tid] {cap : UInt64} {s s' : State Tid T} {tid : Tid}
    (hst : stepThief cap s tid = some s') :
    s'.calls = s.calls ∧ s'.owner = s.owner ∧ ∃ new, s'.log = s.log ++ new ∧
      s'.rets = s.rets ++ new ∧ pushed new = [] := by
  have quiet : ∀ pc, s.thiefGoto tid pc = s' → s'.calls = s.calls ∧ s'.owner = s.owner ∧
      ∃ new, s'.log = s.log ++ new ∧ s'.rets = s.rets ++ new ∧ pushed new = [] := by
    rintro pc rfl
    exact ⟨rfl, rfl, [], (List.append_nil _).symm, (List.append_nil _).symm, rfl⟩
  cases hp : s.thief tid with
  | idle => simp [stepThief, hp] at hst
  | bottom t =>
    simp only [stepThief, hp] at hst
    by_cases h : t ≥ s.bottom
    · rw [if_pos h] at hst; exact quiet _ (Option.some.inj hst)
    · rw [if_neg h] at hst; exact quiet _ (Option.some.inj hst)
  | loop t =>
    simp only [stepThief, hp] at hst
    by_cases h : t ≥ s.bottom
    · rw [if_pos h] at hst; exact quiet _ (Option.some.inj hst)
    · rw [if_neg h] at hst; exact quiet _ (Option.some.inj hst)
  | read t =>
    simp only [stepThief, hp] at hst
    exact quiet _ (Option.some.inj hst)
  | cas t v =>
    simp only [stepThief, hp] at hst
    by_cases h : s.top = t
    · rw [if_pos h] at hst
      obtain rfl := Option.some.inj hst
      exact ⟨rfl, rfl, [.popFront v], rfl, rfl, rfl⟩
    · rw [if_neg h] at hst; exact quiet _ (Option.some.inj hst)

/-! ## returned and pending -/

section
variable [DecidableEq Tid] {cap : UInt64} {s s' : State Tid T} {a : Act Tid T}

/-- the steps of the queue, one constructor for each kind; a call begins when the thread is idle -/
inductive Step (cap : UInt64) (s : State Tid T) : Act Tid T → State Tid T → Prop
  | push (value : T) : s.owner = .idle → Step cap s (.push value)
      { s with owner := .pushTop ⟨s.calls, value⟩ s.bottom, calls := s.calls + 1 }
  | pop : s.owner = .idle → Step cap s .pop (s.goto (.popTop s.bottom))
  | owner {s' : State Tid T} : stepOwner cap s = some s' → Step cap s .owner s'
  | steal {tid : Tid} : s.thief tid = .idle →
      Step cap s (.steal tid) (s.thiefGoto tid (.bottom s.top))
  | thief {tid : Tid} {s' : State Tid T} : stepThief cap s tid = some s' →
      Step cap s (.thief tid) s'

theorem step_cases (h : step cap s a = some s') : Step cap s a s' := by
  cases a with
  | push value =>
    cases ho : s.owner with
    | idle =>
      simp only [step, ho] at h
      obtain rfl := Option.some.inj h
      exact .push value ho
    | _ => simp [step, ho] at h
  | pop =>
    cases ho : s.owner with
    | idle =>
      simp only [step, ho] at h
      obtain rfl := Option.some.inj h
      exact .pop ho
    | _ => simp [step, ho] at h
  | owner => exact .owner h
  | steal tid =>
    cases hp : s.thief tid with
    | idle =>
      simp only [step, hp] at h
      obtain rfl := Option.some.inj h
      exact .steal hp
    | _ => simp [step, hp] at h
  | thief tid => exact .thief h

/-- every operation that took effect has returned with the answer it took effect with, or it is the
owner's and still to return -/
structure Answered (s : State Tid T) : Prop where
  perm : s.log.Perm (s.rets ++ s.owner.pending)
  pushes : pushed s.log = pushed s.rets

theorem answered_step (h : Answered s) (hst : Step cap s a s') : Answered s' := by
  cases hst with
  | push _ ho | pop ho =>
    have hp := h.perm
    rw [ho] at hp
    exact ⟨hp, h.pushes⟩
  | owner hst =>
    obtain ⟨_, new, ret, hl, hr, hpend, hpush, _⟩ := stepOwner_logs hst
    refine ⟨?_, by rw [hl, hr, pushed_append, pushed_append, h.pushes, hpush]⟩
    have h1 : (s.log ++ new).Perm (s.rets ++ (s.owner.pending ++ new)) := by
      rw [← List.append_assoc]
      exact h.perm.append_right new
    rw [hl, hr, List.append_assoc, ← hpend]
    exact h1
  | steal _ => exact ⟨h.perm, h.pushes⟩
  | thief hst =>
    obtain ⟨_, ho, new, hl, hr, _⟩ := stepThief_logs hst
    refine ⟨?_, by rw [hl, hr, pushed_append, pushed_append, h.pushes]⟩
    have h1 : (s.rets ++ s.owner.pending ++ new).Perm (s.rets ++ new ++ s.owner.pending) := by
      rw [List.append_assoc, List.append_assoc]
      exact List.perm_append_comm.append_left s.rets
    rw [hl, hr, ho]
    exact (h.perm.append_right new).trans h1

theorem Answered.reach (junk : ℕ → Elem T)
    (h : (queue cap junk : Machine (State Tid T) _).Reachable s) : Answered s :=
  h.inv ⟨List.Perm.refl _, rfl⟩ fun _ _ _ ih _ hst => answered_step ih (step_cases hst)

/-! ## names -/

/-- the elements pushed and the one being brought -/
def State.brought (s : State Tid T) : List (Elem T) := pushed s.log ++ s.owner.bringing

structure Named (s : State Tid T) : Prop where
  nodup : (s.brought.map Elem.id).Nodup
  lt : ∀ e ∈ s.brought, e.id < s.calls

theorem Named.of_sublist (h : Named s) (hb : s'.brought.Sublist s.brought)
    (hc : s'.calls = s.calls) : Named s' :=
  ⟨h.nodup.sublist (hb.map _), fun e he => by rw [hc]; exact h.lt e (hb.subset he)⟩

theorem named_step (h : Named s) (hst : Step cap s a s') : Named s' := by
  cases hst with
  | push value ho =>
    have hb : s.brought = pushed s.log := by
      rw [State.brought, ho]
      exact List.append_nil _
    have hlt := h.lt
    have hnd := h.nodup
    rw [hb] at hlt hnd
    -- the new name is the number of calls, larger than every name given before
    refine ⟨?_, fun e he => ?_⟩
    · show ((pushed s.log ++ ([⟨s.calls, value⟩] : List (Elem T))).map Elem.id).Nodup
      rw [List.map_append]
      apply hnd.append (List.nodup_singleton _)
      intro i hi hi'
      obtain ⟨e, he, rfl⟩ := List.mem_map.mp hi
      have := hlt e he
      have h2 : e.id = s.calls := List.mem_singleton.mp hi'
      omega
    · show e.id < s.calls + 1
      rcases List.mem_append.mp he with he | he
      · have := hlt e he
        omega
      · obtain rfl := List.mem_singleton.mp he
        exact Nat.lt_succ_self _
  | pop _ =>
    refine h.of_sublist ?_ rfl
    show (pushed s.log ++ []).Sublist (pushed s.log ++ s.owner.bringing)
    exact (List.nil_sublist _).append_left _
  | owner hst =>
    obtain ⟨hc, new, ret, hl, _, _, _, hbr⟩ := stepOwner_logs hst
    refine h.of_sublist ?_ hc
    rw [State.brought, State.brought, hl, pushed_append, List.append_assoc]
    rcases hbr with hbr | ⟨h1, h2⟩
    · rw [hbr]
    · rw [h1, h2]
      exact (List.nil_sublist _).append_left _
  | steal _ => exact ⟨h.nodup, h.lt⟩
  | thief hst =>
    obtain ⟨hc, ho, new, hl, _, hn⟩ := stepThief_logs hst
    refine h.of_sublist ?_ hc
    rw [State.brought, State.brought, hl, ho, pushed_append, hn, List.append_nil]

theorem Named.reach (junk : ℕ → Elem T)
    (h : (queue cap junk : Machine (State Tid T) _).Reachable s) : Named s :=
  h.inv ⟨List.nodup_nil, fun _ he => absurd he List.not_mem_nil⟩
    fun _ _ _ ih _ hst => named_step ih (step_cases hst)

end

end WorkStealing
end CppCores
