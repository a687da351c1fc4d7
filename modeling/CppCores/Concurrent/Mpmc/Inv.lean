import Mathlib.Tactic.Common
import CppCores.Concurrent.Mpmc.Model
import CppCores.Lib.Logs

/-!
# MpmcLockFreeQueue: when the queue works

`TicketOk` excludes the two branches that go wrong: a call that has its ticket wins another one, and a
ticket is won for a slot whose element has not been read.  Without them

* `Tickets`   each ticket has one call and each call one ticket;
* `Calls`     a call that is at the slot of a ticket holds it;
* `Slots`     a slot that has been stored to holds the element of its ticket until it is read.

`inv_reach` has the three for every state reached.
-/

namespace CppCores
namespace Mpmc

set_option linter.unusedSectionVars false

variable {P C T : Type*} [DecidableEq P] [DecidableEq C]
variable {N : ℕ} {arg : P → T} {s s' : State P C T} {a : Act P C}
variable {log : List (Event P C T)} {e : Event P C T}

/-! ## the steps -/

/-- not at the slot of a ticket -/
def PushPc.outside : PushPc → Bool
  | .write .. | .store .. | .returned true => false
  | .idle | .loadPush _ | .loadPop .. | .acquire .. | .reload | .returned false => true

def PopPc.outside : PopPc T → Bool
  | .loadPush .. | .acquire .. | .read .. | .store .. | .returned (some _) => false
  | .idle | .loadPop _ | .reload | .returned none => true

/-- the steps of the queue; those that only move a call outside of the slots are together -/
inductive Step (N : ℕ) (arg : P → T) (s : State P C T) : Act P C → State P C T → Prop
  | movePush {a : Act P C} (p : P) {pc : PushPc} : (∀ w k, s.pusher p ≠ .write w k) → pc.outside →
      Step N arg s a (s.pusherAt p pc)
  | win {p : P} {w k : ℕ} : s.pusher p = .acquire w k → s.w_count = w →
      Step N arg s (.pusher p) (((s.setW (w + 1)).record (.ticket p w)).pusherAt p (.write w k))
  | write {p : P} {w k : ℕ} : s.pusher p = .write w k →
      Step N arg s (.pusher p)
        (((s.setVal (w % N) (arg p)).record (.placed p w)).pusherAt p (.store w k))
  | storePush {p : P} {w k : ℕ} : s.pusher p = .store w k →
      Step N arg s (.pusher p) ((s.setPush (w % N) (k + 1)).pusherAt p (.loadPush w))
  | movePop {a : Act P C} (c : C) {pc : PopPc T} : pc.outside → Step N arg s a (s.popperAt c pc)
  | loadPop {c : C} {r : ℕ} : s.popper c = .loadPop r →
      Step N arg s (.popper c) (s.popperAt c (.loadPush r (s.data (r % N)).pop_count))
  | testPop {c : C} {r k : ℕ} : s.popper c = .loadPush r k →
      Step N arg s (.popper c) (s.popperAt c (testPop N r k (s.data (r % N)).push_count))
  | take {c : C} {r k : ℕ} : s.popper c = .acquire r k → s.r_count = r →
      Step N arg s (.popper c) (((s.setR (r + 1)).record (.taken c r)).popperAt c (.read r k))
  | read {c : C} {r k : ℕ} : s.popper c = .read r k →
      Step N arg s (.popper c) ((s.record (.got c r (s.data (r % N)).val)).popperAt c
        (.store r k (s.data (r % N)).val))
  | storePop {c : C} {r k : ℕ} {v : T} : s.popper c = .store r k v →
      Step N arg s (.popper c) ((s.setPush (r % N) (k + 1)).popperAt c (.returned (some v)))

theorem testPush_outside {w push_count pop_count : ℕ} :
    (testPush N w push_count pop_count).outside := by
  unfold testPush
  split
  · rfl
  · split <;> rfl

theorem stepPusher_cases {p : P} (h : stepPusher N arg s p = some s') :
    Step N arg s (.pusher p) s' := by
  unfold stepPusher at h
  split at h
  · cases h
  · next hp =>
    obtain rfl := Option.some.inj h
    exact .movePush p (by simp [hp]) rfl
  · next hp =>
    obtain rfl := Option.some.inj h
    exact .movePush p (by simp [hp]) testPush_outside
  · next w k hp =>
    split at h
    · next hw =>
      obtain rfl := Option.some.inj h
      exact .win hp hw
    · obtain rfl := Option.some.inj h
      exact .movePush p (by simp [hp]) rfl
  · next hp =>
    obtain rfl := Option.some.inj h
    exact .write hp
  · next hp =>
    obtain rfl := Option.some.inj h
    exact .storePush hp
  · next hp =>
    obtain rfl := Option.some.inj h
    exact .movePush p (by simp [hp]) rfl
  · cases h

theorem stepPopper_cases {c : C} (h : stepPopper N s c = some s') :
    Step N arg s (.popper c) s' := by
  unfold stepPopper at h
  split at h
  · cases h
  · next hp =>
    obtain rfl := Option.some.inj h
    exact .loadPop hp
  · next hp =>
    obtain rfl := Option.some.inj h
    exact .testPop hp
  · next r k hp =>
    split at h
    · next hr =>
      obtain rfl := Option.some.inj h
      exact .take hp hr
    · obtain rfl := Option.some.inj h
      exact .movePop c rfl
  · next hp =>
    obtain rfl := Option.some.inj h
    exact .read hp
  · next hp =>
    obtain rfl := Option.some.inj h
    exact .storePop hp
  · obtain rfl := Option.some.inj h
    exact .movePop c rfl
  · cases h

theorem step_cases (h : step N arg s a = some s') : Step N arg s a s' := by
  cases a with
  | push p =>
    obtain ⟨hp, h⟩ := Option.ite_none_right_eq_some.mp h
    obtain rfl := Option.some.inj h
    exact .movePush p (by simp [hp]) rfl
  | pusher p => exact stepPusher_cases h
  | spuriousPush p =>
    simp only [step] at h
    split at h
    · next hp =>
      obtain rfl := Option.some.inj h
      exact .movePush p (by simp [hp]) rfl
    · cases h
  | pop c =>
    simp only [step] at h
    split at h
    · obtain rfl := Option.some.inj h
      exact .movePop c rfl
    · cases h
  | popper c => exact stepPopper_cases h
  | spuriousPop c =>
    simp only [step] at h
    split at h
    · obtain rfl := Option.some.inj h
      exact .movePop c rfl
    · cases h

/-! ## the condition -/

/-- the call `p` may win the ticket that it is about to win -/
def AcquireOk (N : ℕ) (s : State P C T) (p : P) : PushPc → Prop
  | .acquire w _ => s.w_count = w → p ∉ winners s.log ∧ (N ≤ w → w - N ∈ gotTickets s.log)
  | _ => True

/-- a step that wins a ticket does so for a call that has none yet, and for a slot whose last element
has been read -/
def TicketOk (N : ℕ) (s : State P C T) : Act P C → Prop
  | .pusher p => AcquireOk N s p (s.pusher p)
  | _ => True

instance (s : State P C T) (p : P) (pc : PushPc) : Decidable (AcquireOk N s p pc) :=
  match pc with
  | .acquire _ _ => inferInstanceAs (Decidable (_ → _ ∧ (_ → _)))
  | .idle | .loadPush _ | .loadPop .. | .write .. | .store .. | .reload | .returned _ =>
    .isTrue trivial

instance (s : State P C T) (a : Act P C) : Decidable (TicketOk N s a) :=
  match a with
  | .pusher p => inferInstanceAs (Decidable (AcquireOk N s p (s.pusher p)))
  | .push _ | .spuriousPush _ | .pop _ | .popper _ | .spuriousPop _ => .isTrue trivial

theorem TicketOk.win {p : P} {w k : ℕ} (h : TicketOk N s (.pusher p))
    (hp : s.pusher p = .acquire w k) (hw : s.w_count = w) :
    p ∉ winners s.log ∧ (N ≤ w → w - N ∈ gotTickets s.log) := by
  have h' : AcquireOk N s p (s.pusher p) := h
  rw [hp] at h'
  exact h' hw

/-! ## readings of the log -/

theorem mem_tickets {p : P} {k : ℕ} (h : .ticket p k ∈ log) : k ∈ tickets log :=
  List.mem_filterMap.mpr ⟨_, h, rfl⟩

theorem mem_readTickets {c : C} {k : ℕ} (h : .taken c k ∈ log) : k ∈ readTickets log :=
  List.mem_filterMap.mpr ⟨_, h, rfl⟩

theorem mem_placers {p : P} {k : ℕ} (h : .placed p k ∈ log) : p ∈ placers log :=
  List.mem_filterMap.mpr ⟨_, h, rfl⟩

theorem mem_gotTickets {k : ℕ} : k ∈ gotTickets log ↔ ∃ c v, .got c k v ∈ log := by
  unfold gotTickets
  rw [List.mem_filterMap]
  constructor
  · intro hex
    obtain ⟨e, he, hp⟩ := hex
    cases e with
    | got c j v =>
      obtain rfl := Option.some.inj hp
      exact ⟨c, v, he⟩
    | ticket | placed | taken => cases hp
  · intro hex
    obtain ⟨c, v, he⟩ := hex
    exact ⟨_, he, rfl⟩

theorem exists_ticket {p : P} (h : p ∈ winners log) : ∃ k, .ticket p k ∈ log := by
  obtain ⟨e, he, hp⟩ := List.mem_filterMap.mp h
  cases e with
  | ticket q k =>
    obtain rfl := Option.some.inj hp
    exact ⟨k, he⟩
  | placed | taken | got => cases hp

theorem exists_placed {p : P} (h : p ∈ placers log) : ∃ k, .placed p k ∈ log := by
  obtain ⟨e, he, hp⟩ := List.mem_filterMap.mp h
  cases e with
  | placed q k =>
    obtain rfl := Option.some.inj hp
    exact ⟨k, he⟩
  | ticket | taken | got => cases hp

theorem tickets_concat : tickets (log ++ [e]) = tickets log ++ tickets [e] := List.filterMap_append

theorem winners_concat : winners (log ++ [e]) = winners log ++ winners [e] := List.filterMap_append

theorem placers_concat : placers (log ++ [e]) = placers log ++ placers [e] := List.filterMap_append

theorem readTickets_concat : readTickets (log ++ [e]) = readTickets log ++ readTickets [e] :=
  List.filterMap_append

theorem gotTickets_concat : gotTickets (log ++ [e]) = gotTickets log ++ gotTickets [e] :=
  List.filterMap_append

theorem mem_concat {b : Event P C T} : b ∈ log ++ [e] ↔ b ∈ log ∨ b = e := by
  rw [List.mem_append, List.mem_singleton]

/-! ## the three parts of the invariant -/

structure Tickets (s : State P C T) : Prop where
  writes : tickets s.log = List.range s.w_count
  reads : readTickets s.log = List.range s.r_count
  single : (winners s.log).Nodup
  once : (placers s.log).Nodup
  placed : ∀ p k, .placed p k ∈ s.log → .ticket p k ∈ s.log
  got : ∀ c k v, .got c k v ∈ s.log → .taken c k ∈ s.log

/-- what a call to `push` has done, by its place -/
def PushOk (log : List (Event P C T)) (p : P) : PushPc → Prop
  | .write w _ => .ticket p w ∈ log ∧ p ∉ placers log
  | .store w _ => .placed p w ∈ log
  | .returned answer => answer = false
  | .idle | .loadPush _ | .loadPop .. | .acquire .. | .reload => True

/-- what a call to `pop` has seen and done, by its place; `pop_count` stays 0 -/
def PopOk (N : ℕ) (data : ℕ → Slot T) (log : List (Event P C T)) (c : C) : PopPc T → Prop
  | .loadPush _ k => k = 0
  | .acquire r k => k = 0 ∧ r < N ∧ (data r).push_count ≠ 0
  | .read r k => k = 0 ∧ r < N ∧ (data r).push_count ≠ 0 ∧ .taken c r ∈ log ∧ r ∉ gotTickets log
  | .store r k v => k = 0 ∧ r < N ∧ .got c r v ∈ log
  | .returned (some v) => ∃ k, .got c k v ∈ log
  | .idle | .loadPop _ | .reload | .returned none => True

structure Calls (N : ℕ) (s : State P C T) : Prop where
  push : ∀ p, PushOk s.log p (s.pusher p)
  pop : ∀ c, PopOk N s.data s.log c (s.popper c)

structure Slots (N : ℕ) (arg : P → T) (s : State P C T) : Prop where
  pop_count : ∀ i, (s.data i).pop_count = 0
  stored : ∀ i < N, (s.data i).push_count ≠ 0 → ∃ p, .placed p i ∈ s.log
  value : ∀ i < N, ∀ p, .placed p i ∈ s.log → i ∉ gotTickets s.log → (s.data i).val = arg p
  delivered : ∀ c k v, .got c k v ∈ s.log → ∃ p, .placed p k ∈ s.log ∧ v = arg p
  lapped : ∀ k, N ≤ k → k < s.w_count → k - N ∈ gotTickets s.log
  bound : s.r_count ≤ N

structure Inv (N : ℕ) (arg : P → T) (s : State P C T) : Prop where
  tickets : Tickets s
  calls : Calls N s
  slots : Slots N arg s

namespace Tickets

theorem writer (h : Tickets s) {p p' : P} {k : ℕ} (hp : .ticket p k ∈ s.log)
    (hp' : .ticket p' k ∈ s.log) : p = p' := by
  have hn : (tickets s.log).Nodup := h.writes ▸ List.nodup_range
  exact (Event.ticket.inj (eq_of_nodup_filterMap hn hp hp' rfl rfl)).1

theorem reader (h : Tickets s) {c c' : C} {k : ℕ} (hc : .taken c k ∈ s.log)
    (hc' : .taken c' k ∈ s.log) : c = c' := by
  have hn : (readTickets s.log).Nodup := h.reads ▸ List.nodup_range
  exact (Event.taken.inj (eq_of_nodup_filterMap hn hc hc' rfl rfl)).1

theorem ticket_eq (h : Tickets s) {p : P} {k k' : ℕ} (hk : .ticket p k ∈ s.log)
    (hk' : .ticket p k' ∈ s.log) : k = k' :=
  (Event.ticket.inj (eq_of_nodup_filterMap h.single hk hk' rfl rfl)).2

theorem ticket_lt (h : Tickets s) {p : P} {k : ℕ} (hk : .ticket p k ∈ s.log) : k < s.w_count :=
  List.mem_range.mp (h.writes ▸ mem_tickets hk)

theorem taken_lt (h : Tickets s) {c : C} {k : ℕ} (hk : .taken c k ∈ s.log) : k < s.r_count :=
  List.mem_range.mp (h.reads ▸ mem_readTickets hk)

end Tickets

end Mpmc
end CppCores
