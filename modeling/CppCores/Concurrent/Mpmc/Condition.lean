import Mathlib.Tactic.Common
import CppCores.Concurrent.Mpmc.Steps

/-!
# MpmcLockFreeQueue: the runs that meet the condition

If every step is `TicketOk` the queue works (`mpmcRun_reach`).
Both halves of the condition are needed: a step that is not `TicketOk` leads to a state that is not
`MpmcRun` with the next step of the same call (`broken_of_not_ticketOk`), and `not_mpmcRun` is a run
of one producer alone.  `push_ne_true` holds of every run.
-/

namespace CppCores
namespace Mpmc

set_option linter.unusedSectionVars false

variable {P C T : Type*} [DecidableEq P] [DecidableEq C]
variable {N : ℕ} {arg : P → T} {s s' : State P C T} {a : Act P C}
variable {log : List (Event P C T)} {e : Event P C T}

/-! ## the runs that meet the condition -/

theorem inv_reach {junk : ℕ → T} (hN : 0 < N)
    (h : (queue N arg junk : Machine (State P C T) _).Reach (TicketOk N) s) : Inv N arg s :=
  h.inv (inv_start junk) fun _ _ _ hi hok hst => hi.step hN hok (step_cases hst)

theorem Kept.concat (h : Kept N log)
    (he : ∀ p k, e = .placed p k → N ≤ k → k - N ∈ gotTickets log) : Kept N (log ++ [e]) := by
  intro pre p k post hlog hk
  rcases concat_split hlog with ⟨rfl, hb⟩ | ⟨post', hlog'⟩
  · exact he p k hb hk
  · exact h pre p k post' hlog' hk

theorem Kept.step (h : Kept N s.log) (hi : Inv N arg s) (hst : Step N arg s a s') :
    Kept N s'.log := by
  cases hst with
  | movePush | movePop | loadPop | testPop | storePush | storePop => exact h
  | win | take | read => exact h.concat nofun
  | @write p w k hp =>
    have hpush := hi.calls.push p
    rw [hp] at hpush
    apply h.concat
    intro q j he hj
    obtain ⟨rfl, rfl⟩ := Event.placed.inj he
    exact hi.slots.lapped w hj (hi.tickets.ticket_lt hpush.1)

theorem kept_reach {junk : ℕ → T} (hN : 0 < N)
    (h : (queue N arg junk : Machine (State P C T) _).Reach (TicketOk N) s) : Kept N s.log := by
  refine h.inv_with (I := fun s => Kept N s.log) (J := Inv N arg) (fun _ => inv_reach hN) ?_ ?_
  · intro pre p k post hlog
    cases pre <;> cases hlog
  · intro s a s' hi hk _ hst
    exact hk.step hi (step_cases hst)

theorem mpmcRun_reach {junk : ℕ → T} (hN : 2 < N)
    (h : (queue N arg junk : Machine (State P C T) _).Reach (TicketOk N) s) : MpmcRun N arg s := by
  have hN0 : 0 < N := Nat.zero_lt_of_lt hN
  have hi : Inv N arg s := inv_reach hN0 h
  constructor
  · exact hi.tickets.once
  · intro p hp
    have hpush := hi.calls.push p
    rw [hp] at hpush
    cases hpush
  · intro c v hc
    have hpop := hi.calls.pop c
    rw [hc] at hpop
    exact hpop
  · intro c k v hg
    obtain ⟨p, hp, hv⟩ := hi.slots.delivered c k v hg
    exact ⟨hi.tickets.got c k v hg, p, hi.tickets.placed p k hp, hp, hv⟩
  · exact ⟨hi.tickets.writes, hi.tickets.reads⟩
  · intro p c c' k k' v v' hg hg' hk hk'
    obtain rfl := hi.tickets.ticket_eq hk hk'
    exact ⟨hi.tickets.reader (hi.tickets.got c k v hg) (hi.tickets.got c' k v' hg'), rfl⟩
  · exact kept_reach hN0 h

/-- four calls push and two pop; the fourth element goes to the slot of the first -/
theorem mpmcRun_four : ∃ s : State ℕ ℕ ℕ, MpmcRun 3 (· + 10) s ∧ placers s.log = [0, 1, 2, 3] ∧
    s.popper 0 = .returned (some 10) ∧ s.popper 1 = .returned (some 11) := by
  have h : ((queue 3 (· + 10) id : Machine (State ℕ ℕ ℕ) _).execIf (TicketOk 3) (start id)
      [.push 0, .pusher 0, .pusher 0, .pusher 0, .pusher 0, .pusher 0,
       .push 1, .pusher 1, .pusher 1, .pusher 1, .pop 0, .pusher 1, .popper 0, .popper 0, .popper 0,
       .push 2, .pusher 2, .pusher 2, .pusher 2, .popper 0, .pusher 1, .pusher 2, .pusher 2,
       .push 3, .pusher 3, .pusher 3, .popper 0, .pop 1, .popper 1, .popper 1, .popper 1,
       .pusher 3, .popper 1, .pusher 3, .popper 1, .pusher 3]).map
      (fun s => (placers s.log, s.popper 0, s.popper 1))
      = some ([0, 1, 2, 3], .returned (some 10), .returned (some 11)) := by decide
  obtain ⟨s, hs, e⟩ := Option.map_eq_some_iff.mp h
  obtain ⟨h1, h23⟩ := Prod.mk.inj e
  obtain ⟨h2, h3⟩ := Prod.mk.inj h23
  exact ⟨s, mpmcRun_reach (by decide) (.of_execIf _ .init hs), h1, h2, h3⟩

/-! ## without the condition -/

/-- a call that has a ticket has placed its element, or is about to -/
def Placing (s : State P C T) : Prop :=
  ∀ p k, .ticket p k ∈ s.log → .placed p k ∈ s.log ∨ ∃ j, s.pusher p = .write k j

theorem Placing.pusherAt {p : P} {pc : PushPc}
    (h : ∀ q, q ≠ p → ∀ k, .ticket q k ∈ s.log →
      .placed q k ∈ s.log ∨ ∃ j, s.pusher q = .write k j)
    (hp : ∀ k, .ticket p k ∈ s.log → .placed p k ∈ s.log ∨ ∃ j, pc = .write k j) :
    Placing (s.pusherAt p pc) :=
  (Function.forall_update_iff s.pusher fun q pc =>
    ∀ k, Event.ticket q k ∈ s.log → Event.placed q k ∈ s.log ∨ ∃ j, pc = .write k j).mpr ⟨hp, h⟩

/-- the call is not about to place an element, so it has placed those of its tickets -/
theorem Placing.of_ne_write {p : P} {k : ℕ} (h : Placing s) (hp : ∀ w j, s.pusher p ≠ .write w j)
    (hk : .ticket p k ∈ s.log) : .placed p k ∈ s.log :=
  (h p k hk).resolve_right fun ⟨j, hj⟩ => hp k j hj

theorem Placing.record (h : Placing s) (he : ∀ p k, e ≠ .ticket p k) : Placing (s.record e) := by
  intro p k hk
  have hk' := (mem_concat.mp hk).resolve_right fun h' => he p k h'.symm
  exact (h p k hk').imp_left fun hp => mem_concat.mpr (.inl hp)

theorem Placing.step (h : Placing s) (hst : Step N arg s a s') : Placing s' := by
  cases hst with
  | movePush p hne => exact .pusherAt (fun q _ => h q) fun k hk => .inl (h.of_ne_write hne hk)
  | @win p w k hp =>
    have hne : ∀ w j, s.pusher p ≠ .write w j := by simp [hp]
    apply Placing.pusherAt
    · intro q hq j hj
      refine (h q j ((mem_concat.mp hj).resolve_right fun he => ?_)).imp_left fun hpl => ?_
      · exact hq (Event.ticket.inj he).1
      · exact mem_concat.mpr (.inl hpl)
    · intro j hj
      rcases mem_concat.mp hj with hj | hj
      · exact .inl (mem_concat.mpr (.inl (h.of_ne_write hne hj)))
      · obtain ⟨-, rfl⟩ := Event.ticket.inj hj
        exact .inr ⟨k, rfl⟩
  | @write p w k hp =>
    apply Placing.pusherAt
    · intro q hq j hj
      apply (h q j ((mem_concat.mp hj).resolve_right nofun)).imp_left
      intro hpl
      exact mem_concat.mpr (.inl hpl)
    · intro j hj
      left
      rcases h p j ((mem_concat.mp hj).resolve_right nofun) with hpl | ⟨i, hi⟩
      · exact mem_concat.mpr (.inl hpl)
      · rw [hp] at hi
        obtain ⟨rfl, -⟩ := PushPc.write.inj hi
        exact mem_concat.mpr (.inr rfl)
  | @storePush p w k hp =>
    have hne : ∀ w j, s.pusher p ≠ .write w j := by simp [hp]
    exact .pusherAt (fun q _ => h q) fun k hk => .inl (h.of_ne_write hne hk)
  | movePop | loadPop | testPop | storePop => exact h
  | take | read => exact h.record nofun

theorem placing_reach {junk : ℕ → T}
    (h : (queue N arg junk : Machine (State P C T) _).Reachable s) : Placing s :=
  h.inv nofun fun _ _ _ hi _ hst => hi.step (step_cases hst)

theorem exists_of_not_ticketOk (hok : ¬ TicketOk N s a) : ∃ p w k, a = .pusher p ∧
    s.pusher p = .acquire w k ∧ s.w_count = w ∧
    (p ∈ winners s.log ∨ N ≤ w ∧ w - N ∉ gotTickets s.log) := by
  cases a with
  | push | spuriousPush | pop | popper | spuriousPop => exact absurd trivial hok
  | pusher p =>
    have hok' : ¬ AcquireOk N s p (s.pusher p) := hok
    cases hp : s.pusher p with
    | acquire w k =>
      rw [hp] at hok'
      obtain ⟨hw, hbad⟩ := Classical.not_imp.mp hok'
      refine ⟨p, w, k, rfl, hp, hw, ?_⟩
      exact (not_and_or.mp hbad).imp not_not.mp Classical.not_imp.mp
    | idle | loadPush | loadPop | write | store | reload | returned =>
      rw [hp] at hok'
      exact absurd trivial hok'

theorem stepPusher_win {p : P} {w k : ℕ} (hp : s.pusher p = .acquire w k) (hw : s.w_count = w) :
    stepPusher N arg s p =
      some (((s.setW (w + 1)).record (.ticket p w)).pusherAt p (.write w k)) := by
  unfold stepPusher
  rw [hp]
  exact if_pos hw

theorem stepPusher_write {p : P} {w k : ℕ} (hp : s.pusher p = .write w k) :
    stepPusher N arg s p =
      some (((s.setVal (w % N) (arg p)).record (.placed p w)).pusherAt p (.store w k)) := by
  unfold stepPusher
  rw [hp]

/-- a call with a ticket that is about to win another has placed its element -/
theorem Placing.placer {p : P} {w k : ℕ} (h : Placing s) (hp : s.pusher p = .acquire w k)
    (hwon : p ∈ winners s.log) : p ∈ placers s.log := by
  obtain ⟨j, hj⟩ := exists_ticket hwon
  have hne : ∀ w j, s.pusher p ≠ .write w j := by simp [hp]
  exact mem_placers (h.of_ne_write hne hj)

/-- **A step that is not `TicketOk` breaks the queue** with the next step of its call: it places an
element a second time, or over one that has not been read. -/
theorem broken_of_not_ticketOk {junk : ℕ → T}
    (h : (queue N arg junk : Machine (State P C T) _).Reachable s) (hok : ¬ TicketOk N s a)
    (hst : (queue N arg junk).step s a = some s') :
    ∃ p s'', a = .pusher p ∧ (queue N arg junk).step s' (.pusher p) = some s'' ∧
      ¬ MpmcRun N arg s'' := by
  obtain ⟨p, w, k, rfl, hp, hw, hbad⟩ := exists_of_not_ticketOk hok
  have hst' : stepPusher N arg s p = some s' := hst
  rw [stepPusher_win hp hw] at hst'
  obtain rfl := Option.some.inj hst'
  refine ⟨p, _, rfl, stepPusher_write (Function.update_self ..), ?_⟩
  intro hrun
  rcases hbad with hwon | ⟨hk, hunread⟩
  · have hone : (placers (s.log ++ [.ticket p w] ++ [.placed p w])).Nodup := hrun.once
    rw [placers_concat, placers_concat, List.nodup_append] at hone
    have hpl : p ∈ placers s.log := (placing_reach h).placer hp hwon
    exact hone.2.2 p (List.mem_append_left _ hpl) p (List.mem_singleton_self p) rfl
  · have hkept : w - N ∈ gotTickets (s.log ++ [.ticket p w]) := hrun.kept _ p w [] rfl hk
    rw [gotTickets_concat] at hkept
    exact hunread ((List.mem_append.mp hkept).resolve_right nofun)

/-- `push` never answers true, with the condition or without it -/
theorem push_ne_true {junk : ℕ → T}
    (h : (queue N arg junk : Machine (State P C T) _).Reachable s) (p : P) :
    s.pusher p ≠ .returned true := by
  revert p
  apply h.inv (I := fun s => ∀ p, s.pusher p ≠ .returned true)
  · intro p
    exact nofun
  · intro s a s' hs _ hst
    have hall : ∀ {p : P} {pc : PushPc}, pc ≠ .returned true →
        ∀ q, Function.update s.pusher p pc q ≠ .returned true := fun hpc =>
      (Function.forall_update_iff s.pusher fun _ pc => pc ≠ .returned true).mpr
        ⟨hpc, fun q _ => hs q⟩
    cases step_cases hst with
    | movePop | loadPop | testPop | take | read | storePop => exact hs
    | @movePush _ p pc _ hpc =>
      apply hall
      intro heq
      rw [heq] at hpc
      cases hpc
    | win | write | storePush => exact hall nofun

/-- one producer alone places its element twice -/
theorem not_mpmcRun : ¬ ∀ s : State ℕ ℕ ℕ,
    (queue 3 id id : Machine (State ℕ ℕ ℕ) _).Reachable s → MpmcRun 3 id s := by
  intro hall
  let as : List (Act ℕ ℕ) := [.push 0, .pusher 0, .pusher 0, .pusher 0, .pusher 0, .pusher 0,
    .pusher 0, .pusher 0, .pusher 0, .pusher 0, .pusher 0, .pusher 0, .pusher 0]
  have h : ((queue 3 id id : Machine (State ℕ ℕ ℕ) _).exec (start id) as).map
      (fun s => placers s.log) = some [0, 0] := by decide
  obtain ⟨s, hs, e⟩ := Option.map_eq_some_iff.mp h
  have hone := (hall s (.of_exec as .init hs)).once
  rw [e] at hone
  exact absurd hone (by decide)

end Mpmc
end CppCores
