import CppCores.Coroutine.Uthread.Switching
import CppCores.Lib.Ghost

/-!
# The uthread scheduler: slots and completion

`Bodies` is what a run has done: the bodies created, each with its index, the steps it has executed
and whether it has returned, and for an index the body created in it last.

* `Owned`              of every run: an index below `max_index` is `FREE` iff the body created in it last
                       has returned, and a body that has not returned is the last one of its index;
* `Owned.step`         kept by every step, the steps executed and those `left` being those of the body;
* `completes_reach`    **no index is given away before its body has returned, every step is executed
                       once and in order, and `schedule_finished` tells when all have returned.**
-/

namespace CppCores
namespace Uthread
open Machine
variable {α : Type*}

/-- a body handed to `uthread_create` -/
structure Body (α : Type*) where
  slot : ℕ
  func : List (Instr α)
  /-- the steps executed -/
  ran : List α
  returned : Bool

structure Bodies (α : Type*) where
  created : ℕ
  body : ℕ → Body α
  /-- the body created last in an index -/
  owner : ℕ → ℕ

namespace Bodies

def start : Bodies α := ⟨0, fun _ => ⟨0, [], [], false⟩, fun _ => 0⟩

/-- the body of index `id` becomes `b` -/
def set (g : Bodies α) (id : ℕ) (b : Body α) : Bodies α :=
  { g with body := Function.update g.body (g.owner id) b }

/-- the body of index `id` -/
def of (g : Bodies α) (id : ℕ) : Body α := g.body (g.owner id)

/-- another body, in index `id` -/
def add (g : Bodies α) (id : ℕ) (func : List (Instr α)) : Bodies α where
  created := g.created + 1
  body := Function.update g.body g.created ⟨id, func, [], false⟩
  owner := Function.update g.owner id g.created

end Bodies

/-- what a step adds to it -/
def note (s : State α) (a : Act α) (g : Bodies α) : Bodies α :=
  match s.control, a with
  | .main, .create func => g.add (selected s) func
  | .uthread id [], .run => g.set id { g.of id with returned := true }
  | .uthread id (.step a :: _), .run => g.set id { g.of id with ran := (g.of id).ran ++ [a] }
  | _, _ => g

/-- the scheduler, and what its run has done -/
def noted (α : Type*) : Machine (State α × Bodies α) (Act α) :=
  (machine α).withGhost Bodies.start note

/-- the steps of a body -/
def steps : List (Instr α) → List α
  | [] => []
  | .step a :: rest => a :: steps rest
  | .yield :: rest => steps rest

/-- what a body has still to do -/
def left (s : State α) (b : Body α) : List (Instr α) :=
  if b.returned then []
  else match s.control with
    | .main => (s.threads b.slot).ctx
    | .uthread id rest => if id = b.slot then rest else (s.threads b.slot).ctx

structure Completes (s : State α) (g : Bodies α) : Prop where
  /-- the index that `uthread_create` would return -/
  selected : s.control = .main → ∀ k < g.created, (g.body k).slot = selected s →
    (g.body k).returned = true
  /-- the indices that it has returned -/
  reused : ∀ j k, j < k → k < g.created → (g.body j).slot = (g.body k).slot →
    (g.body j).returned = true
  free : ∀ id < s.max_index, (s.threads id).state = .FREE →
    (∃ k < g.created, (g.body k).slot = id) ∧
      ∀ k < g.created, (g.body k).slot = id → (g.body k).returned = true
  once : ∀ k < g.created, (g.body k).ran ++ steps (left s (g.body k)) = steps (g.body k).func
  ran : ∀ k < g.created, (g.body k).returned = true → (g.body k).ran = steps (g.body k).func
  resumed : s.control = .main → ∀ k < g.created, (g.body k).returned = false →
    (uthread_resume s (g.body k).slot).control = .uthread (g.body k).slot (left s (g.body k))
  finished : s.control = .main →
    (schedule_finished s = 1 ↔ ∀ k < g.created, (g.body k).returned = true)
  array : s.max_index ≤ MAX_UTHREAD_SIZE

variable {s s' : State α} {g : Bodies α}

/-! ## what is left of a body -/

theorem left_returned {b : Body α} (h : b.returned = true) : left s b = [] := by
  rw [left, if_pos h]

theorem left_inside {b : Body α} {rest : List (Instr α)} (h : b.returned = false)
    (hc : s.control = .uthread b.slot rest) : left s b = rest := by
  rw [left, if_neg (by simp [h]), hc]
  exact if_pos rfl

theorem left_outside {b : Body α} (h : b.returned = false)
    (hc : ∀ rest, s.control ≠ .uthread b.slot rest) : left s b = (s.threads b.slot).ctx := by
  rw [left, if_neg (by simp [h])]
  cases he : s.control with
  | main => rfl
  | uthread id rest =>
    refine if_neg fun hid => ?_
    subst hid
    exact hc rest he

theorem left_eq {b : Body α} (hc : ∀ rest, s.control ≠ .uthread b.slot rest)
    (hc' : ∀ rest, s'.control ≠ .uthread b.slot rest)
    (ht : s'.threads b.slot = s.threads b.slot) : left s' b = left s b := by
  cases h : b.returned with
  | true => rw [left_returned h, left_returned h]
  | false => rw [left_outside h hc, left_outside h hc', ht]

/-! ## the bodies and their indices -/

structure Slot (s : State α) (g : Bodies α) (id : ℕ) : Prop where
  lt : g.owner id < g.created
  slot : (g.of id).slot = id
  free : (s.threads id).state = .FREE ↔ (g.of id).returned = true
  parked : (∀ rest, s.control ≠ .uthread id rest) →
    (s.threads id).state = .FREE ∨ (s.threads id).state = .SUSPEND

structure Owner (s : State α) (g : Bodies α) (k : ℕ) : Prop where
  lt : (g.body k).slot < s.max_index
  newest : k ≤ g.owner (g.body k).slot
  last : (g.body k).returned = false → g.owner (g.body k).slot = k
  once : (g.body k).ran ++ steps (left s (g.body k)) = steps (g.body k).func

structure Owned (s : State α) (g : Bodies α) : Prop where
  slots : ∀ id < s.max_index, Slot s g id
  bodies : ∀ k < g.created, Owner s g k

theorem owned_start : Owned (start : State α) Bodies.start where
  slots id h := absurd h (Nat.not_lt_zero id)
  bodies k h := absurd h (Nat.not_lt_zero k)

/-- **The body of the index in control has not returned.** -/
theorem Owned.running (h : Owned s g) (hi : Inv s) {id : ℕ} {rest : List (Instr α)}
    (hc : s.control = .uthread id rest) : Slot s g id ∧ (g.of id).returned = false := by
  obtain ⟨hlt, hin⟩ := hi.inside id rest hc
  have hs := h.slots id hlt
  refine ⟨hs, Bool.eq_false_iff.mpr fun hr => ?_⟩
  have hfree := hs.free.mpr hr
  rcases hin with ⟨-, he⟩ | ⟨-, he⟩
  · rw [hfree] at he
    cases he
  · rw [hfree] at he
    cases he

/-- **An index that is `FREE` is one whose bodies have all returned.** -/
theorem Owned.free_returned (h : Owned s g) {id : ℕ} (hlt : id < s.max_index)
    (hfree : (s.threads id).state = .FREE) {k : ℕ} (hk : k < g.created)
    (hslot : (g.body k).slot = id) : (g.body k).returned = true := by
  by_contra hr
  have hlast := (h.bodies k hk).last (Bool.eq_false_iff.mpr hr)
  rw [hslot] at hlast
  have hown := (h.slots id hlt).free.mp hfree
  rw [Bodies.of, hlast] at hown
  exact hr hown

/-- **The index selected is that of no body that has not returned.** -/
theorem Owned.selected_returned (h : Owned s g) {k : ℕ} (hk : k < g.created)
    (hslot : (g.body k).slot = selected s) : (g.body k).returned = true := by
  have hlt := (h.bodies k hk).lt
  rw [hslot] at hlt
  exact h.free_returned hlt (selected_free s hlt) hk hslot

theorem Owned.body_ne (h : Owned s g) {id k : ℕ} (hk : k < g.created) (hne : k ≠ g.owner id)
    (hr : (g.body k).returned = false) : (g.body k).slot ≠ id := by
  rintro rfl
  exact hne ((h.bodies k hk).last hr).symm

theorem Owned.running_once (h : Owned s g) (hi : Inv s) {id : ℕ} {rest : List (Instr α)}
    (hc : s.control = .uthread id rest) : (g.of id).ran ++ steps rest = steps (g.of id).func := by
  obtain ⟨hs, hr⟩ := h.running hi hc
  have hin : left s (g.of id) = rest := left_inside hr (by rw [hs.slot]; exact hc)
  calc (g.of id).ran ++ steps rest
      = (g.of id).ran ++ steps (left s (g.of id)) := by rw [hin]
    _ = steps (g.of id).func := (h.bodies _ hs.lt).once

/-! ## the steps -/

theorem note_create (hc : s.control = .main) (func : List (Instr α)) :
    note s (.create func) g = g.add (selected s) func := by
  simp only [note, hc]

theorem note_resume (hc : s.control = .main) (id : ℤ) : note s (.resume id) g = g := by
  simp only [note, hc]

theorem note_ended {id : ℕ} (hc : s.control = .uthread id []) :
    note s .run g = g.set id { g.of id with returned := true } := by
  simp only [note, hc]

theorem note_stepped {id : ℕ} {a : α} {rest : List (Instr α)}
    (hc : s.control = .uthread id (.step a :: rest)) :
    note s .run g = g.set id { g.of id with ran := (g.of id).ran ++ [a] } := by
  simp only [note, hc]

theorem note_yielded {id : ℕ} {rest : List (Instr α)}
    (hc : s.control = .uthread id (.yield :: rest)) : note s .run g = g := by
  simp only [note, hc]

namespace Bodies

@[simp] theorem set_of (g : Bodies α) (id : ℕ) (b : Body α) : (g.set id b).of id = b :=
  Function.update_self ..

theorem set_self (g : Bodies α) (id : ℕ) : g.set id (g.of id) = g :=
  congrArg (fun f => { g with body := f }) (Function.update_eq_self _ g.body)

theorem set_body_of_ne (g : Bodies α) {id k : ℕ} (h : k ≠ g.owner id) (b : Body α) :
    (g.set id b).body k = g.body k := Function.update_of_ne h ..

theorem add_body_self (g : Bodies α) (id : ℕ) (func : List (Instr α)) :
    (g.add id func).body g.created = ⟨id, func, [], false⟩ := Function.update_self ..

theorem add_body_of_lt (g : Bodies α) {id k : ℕ} (h : k < g.created) (func : List (Instr α)) :
    (g.add id func).body k = g.body k := Function.update_of_ne (Nat.ne_of_lt h) ..

theorem add_owner_self (g : Bodies α) (id : ℕ) (func : List (Instr α)) :
    (g.add id func).owner id = g.created := Function.update_self ..

theorem add_owner_of_ne (g : Bodies α) {id i : ℕ} (h : i ≠ id) (func : List (Instr α)) :
    (g.add id func).owner i = g.owner i := Function.update_of_ne h ..

end Bodies

theorem Slot.of_eq {g' : Bodies α} {id : ℕ} (h : Slot s g id) (hn : g.created ≤ g'.created)
    (ho : g'.owner id = g.owner id) (hb : g'.of id = g.of id)
    (ht : s'.threads id = s.threads id) (hout : ∀ rest, s.control ≠ .uthread id rest) :
    Slot s' g' id where
  lt := ho ▸ Nat.lt_of_lt_of_le h.lt hn
  slot := hb ▸ h.slot
  free := by rw [ht, hb]; exact h.free
  parked _ := by rw [ht]; exact h.parked hout

theorem Owner.of_eq {g' : Bodies α} {k : ℕ} (h : Owner s g k) (hm : s.max_index ≤ s'.max_index)
    (hb : g'.body k = g.body k) (hn : g.owner (g.body k).slot ≤ g'.owner (g.body k).slot)
    (ho : (g.body k).returned = false → g'.owner (g.body k).slot = g.owner (g.body k).slot)
    (hl : left s' (g.body k) = left s (g.body k)) : Owner s' g' k where
  lt := hb ▸ Nat.lt_of_lt_of_le h.lt hm
  newest := hb ▸ Nat.le_trans h.newest hn
  last hr := by
    rw [hb] at hr ⊢
    exact (ho hr).trans (h.last hr)
  once := by rw [hb, hl]; exact h.once

theorem out_of_main (hc : s.control = .main) (id : ℕ) : ∀ rest, s.control ≠ .uthread id rest := by
  rw [hc]
  exact nofun

theorem out_of_ne {i id : ℕ} {rest : List (Instr α)} (hc : s.control = .uthread i rest)
    (hne : id ≠ i) : ∀ rest, s.control ≠ .uthread id rest := by
  intro rest' he
  exact hne (Control.uthread.inj (he.symm.trans hc)).1

theorem slot_new (s : State α) (g : Bodies α) (func : List (Instr α)) :
    Slot (uthread_create s func) (g.add (selected s) func) (selected s) := by
  rw [uthread_create_spec]
  have hof : (g.add (selected s) func).of (selected s) = ⟨selected s, func, [], false⟩ := by
    rw [Bodies.of, g.add_owner_self, g.add_body_self]
  have ht := congrArg uthread_t.state (s.setThread_self (selected s) ⟨[], func, .RUNNABLE⟩)
  refine ⟨?_, congrArg Body.slot hof, ?_, fun hout => absurd rfl (hout func)⟩
  · rw [g.add_owner_self]
    exact Nat.lt_succ_self _
  · rw [hof]
    exact ⟨fun hst => absurd (ht.symm.trans hst) nofun, nofun⟩

theorem owner_new (s : State α) (g : Bodies α) (func : List (Instr α)) :
    Owner (uthread_create s func) (g.add (selected s) func) g.created := by
  rw [uthread_create_spec]
  refine ⟨?_, ?_, ?_, ?_⟩
  · rw [g.add_body_self]
    exact selected_lt_max s
  · apply Nat.le_of_eq
    rw [g.add_body_self, g.add_owner_self]
  · rw [g.add_body_self, g.add_owner_self]
    exact fun _ => rfl
  · rw [g.add_body_self]
    exact congrArg steps (left_inside rfl rfl)

/-- the bodies that were there: one of the index selected has returned -/
theorem Owned.owner_old (h : Owned s g) (hc : s.control = .main) (func : List (Instr α)) {k : ℕ}
    (hk : k < g.created) : Owner (uthread_create s func) (g.add (selected s) func) k := by
  have hold := h.bodies k hk
  have hsel : (g.body k).returned = false → (g.body k).slot ≠ selected s := by
    intro hr he
    rw [h.selected_returned hk he] at hr
    cases hr
  rw [uthread_create_spec]
  refine hold.of_eq ?_ (g.add_body_of_lt hk func) ?_ (fun hr => g.add_owner_of_ne (hsel hr) func) ?_
  · show s.max_index ≤ if selected s = s.max_index then s.max_index + 1 else s.max_index
    split <;> omega
  · by_cases he : (g.body k).slot = selected s
    · rw [he, g.add_owner_self]
      exact Nat.le_of_lt (h.slots _ (he ▸ hold.lt)).lt
    · exact Nat.le_of_eq (g.add_owner_of_ne he func).symm
  · cases hr : (g.body k).returned with
    | true => rw [left_returned hr, left_returned hr]
    | false =>
      have hne := hsel hr
      refine left_eq (out_of_main hc _) (fun rest he => ?_) (s.setThread_of_ne hne _)
      exact hne (Control.uthread.inj he).1.symm

/-- **`uthread_create` gives the index that it selects to the new body.** -/
theorem Owned.create (h : Owned s g) (hc : s.control = .main) (func : List (Instr α)) :
    Owned (uthread_create s func) (g.add (selected s) func) where
  slots id hid := by
    by_cases he : id = selected s
    · rw [he]
      exact slot_new s g func
    · have hle := selected_le s
      rw [uthread_create_spec] at hid ⊢
      have hid : id < if selected s = s.max_index then s.max_index + 1 else s.max_index := hid
      have hold := h.slots id (by split at hid <;> omega)
      have ho := g.add_owner_of_ne he func
      refine hold.of_eq (Nat.le_succ _) ho ?_ (s.setThread_of_ne he _) (out_of_main hc id)
      rw [Bodies.of, ho, g.add_body_of_lt hold.lt]
      rfl
  bodies k hk := by
    obtain hlt | rfl := Nat.lt_succ_iff_lt_or_eq.mp hk
    · exact h.owner_old hc func hlt
    · exact owner_new s g func

theorem Owned.run (h : Owned s g) {id : ℕ} {rest : List (Instr α)} {b : Body α}
    (hc : s.control = .uthread id rest) (hs : Slot s g id) (hm : s'.max_index = s.max_index)
    (hslot : b.slot = id) (ht : ∀ i, i ≠ id → s'.threads i = s.threads i)
    (hout : ∀ i, i ≠ id → ∀ r, s'.control ≠ .uthread i r)
    (hfree : (s'.threads id).state = .FREE ↔ b.returned = true)
    (hparked : (∀ r, s'.control ≠ .uthread id r) →
      (s'.threads id).state = .FREE ∨ (s'.threads id).state = .SUSPEND)
    (honce : b.ran ++ steps (left s' b) = steps b.func) : Owned s' (g.set id b) := by
  refine ⟨fun i hi => ?_, fun k hk => ?_⟩
  · by_cases he : i = id
    · subst he
      refine ⟨hs.lt, ?_, ?_, hparked⟩
      · rw [g.set_of]
        exact hslot
      · rw [g.set_of]
        exact hfree
    · have hold := h.slots i (hm ▸ hi)
      refine hold.of_eq (Nat.le_refl _) rfl ?_ (ht i he) (out_of_ne hc he)
      refine g.set_body_of_ne (fun ho => he ?_) b
      have ho : g.owner i = g.owner id := ho
      rw [← hold.slot, ← hs.slot, Bodies.of, Bodies.of, ho]
  · by_cases he : k = g.owner id
    · subst he
      have hb : (g.set id b).body (g.owner id) = b := g.set_of id b
      refine ⟨?_, ?_, ?_, ?_⟩
      · rw [hb, hslot, hm, ← hs.slot]
        exact (h.bodies _ hs.lt).lt
      · rw [hb, hslot]
        exact Nat.le_refl _
      · rw [hb, hslot]
        exact fun _ => rfl
      · rw [hb]
        exact honce
    · refine (h.bodies k hk).of_eq (Nat.le_of_eq hm.symm) (g.set_body_of_ne he b) (Nat.le_refl _)
        (fun _ => rfl) ?_
      cases hr : (g.body k).returned with
      | true => rw [left_returned hr, left_returned hr]
      | false =>
        have hne := h.body_ne hk he hr
        exact left_eq (out_of_ne hc hne) (hout _ hne) (ht _ hne)

theorem Owned.goes_on (h : Owned s g) (hi : Inv s) {id : ℕ} {instr : Instr α}
    {rest : List (Instr α)} {b : Body α} (hc : s.control = .uthread id (instr :: rest))
    (hslot : b.slot = id) (hret : b.returned = (g.of id).returned)
    (honce : b.ran ++ steps rest = steps b.func) :
    Owned { s with control := .uthread id rest } (g.set id b) := by
  obtain ⟨hs, hr⟩ := h.running hi hc
  refine h.run hc hs rfl hslot (fun i hne => rfl)
    (fun i hne r he => hne (Control.uthread.inj he).1.symm) (hret ▸ hs.free)
    (fun hout => absurd rfl (hout rest)) ?_
  have hleft : left { s with control := .uthread id rest } b = rest :=
    left_inside (hret.trans hr) (congrArg (Control.uthread · rest) hslot.symm)
  rw [hleft]
  exact honce

theorem Owned.ended (h : Owned s g) (hi : Inv s) {id : ℕ} (hc : s.control = .uthread id []) :
    Owned (uthread_body_end s id) (g.set id { g.of id with returned := true }) := by
  obtain ⟨hs, -⟩ := h.running hi hc
  have ht := congrArg uthread_t.state (s.setThread_self id { s.threads id with state := .FREE })
  refine h.run hc hs rfl hs.slot (fun i hne => s.setThread_of_ne hne _) (fun i hne => nofun)
    ⟨fun _ => rfl, fun _ => ht⟩ (fun _ => .inl ht) ?_
  rw [left_returned rfl]
  exact h.running_once hi hc

theorem Owned.suspend (h : Owned s g) (hi : Inv s) {id : ℕ} {rest : List (Instr α)}
    (hc : s.control = .uthread id (.yield :: rest)) :
    Owned { s.setThread id { s.threads id with state := .SUSPEND, ctx := rest } with
      running_thread := -1, control := .main } g := by
  obtain ⟨hs, hr⟩ := h.running hi hc
  have ht := s.setThread_self id { s.threads id with state := .SUSPEND, ctx := rest }
  have hsus := congrArg uthread_t.state ht
  rw [← g.set_self id]
  refine h.run hc hs rfl hs.slot (fun i hne => s.setThread_of_ne hne _) (fun i hne => nofun)
    ⟨fun hfree => absurd (hsus.symm.trans hfree) nofun, fun hret => ?_⟩ (fun _ => .inr hsus) ?_
  · rw [hr] at hret
    cases hret
  · rw [left_outside hr (out_of_main rfl _), hs.slot]
    have honce := h.running_once hi hc
    exact (congrArg (fun t => (g.of id).ran ++ steps (uthread_t.ctx t)) ht).trans honce

theorem Owned.switch (h : Owned s g) (hc : s.control = .main) (id : ℕ) :
    Owned { s with control := .uthread id (s.threads id).ctx } g where
  slots i hi := (h.slots i hi).of_eq (Nat.le_refl _) rfl rfl rfl (out_of_main hc i)
  bodies k hk := by
    refine (h.bodies k hk).of_eq (Nat.le_refl _) rfl (Nat.le_refl _) (fun _ => rfl) ?_
    cases hr : (g.body k).returned with
    | true => rw [left_returned hr, left_returned hr]
    | false =>
      rw [left_outside hr (out_of_main hc _)]
      by_cases he : id = (g.body k).slot
      · subst he
        exact left_inside hr rfl
      · exact left_outside hr fun rest hcr => he (Control.uthread.inj hcr).1

theorem Owned.step {a : Act α} (h : Owned s g) (hi : Inv s) (hst : step s a = some s') :
    Owned s' (note s a g) := by
  cases step_cases hst with
  | create func hc =>
    rw [note_create hc]
    exact h.create hc func
  | switch id hc hmax hsus =>
    rw [note_resume hc]
    exact h.switch hc id
  | ignored id hc hsw =>
    rw [note_resume hc]
    exact h
  | ended id hc =>
    rw [note_ended hc]
    exact h.ended hi hc
  | stepped id a rest hc =>
    rw [note_stepped hc]
    obtain ⟨hs, -⟩ := h.running hi hc
    exact h.goes_on hi hc hs.slot rfl
      ((List.append_assoc ..).trans (h.running_once hi hc))
  | yielded id rest hc =>
    rw [note_yielded hc]
    rcases uthread_yield_spec hi hc with ⟨-, he⟩ | ⟨-, he⟩
    · rw [he]
      exact h.suspend hi hc
    · rw [he, ← g.set_self id]
      obtain ⟨hs, -⟩ := h.running hi hc
      have honce := h.running_once hi hc
      exact h.goes_on hi hc hs.slot rfl honce

/-! ## every run -/

theorem owned_reach {p : State α × Bodies α}
    (h : (noted α).Reach (fun p a => Called p.1 a) p) : Owned p.1 p.2 :=
  (h.inv_ghost (fun _ hs => inv_reach hs) owned_start
    fun _ _ _ _ hi ho _ hst => ho.step hi hst).2

/-- **`schedule_finished` in the main context tells whether every body has returned.** -/
theorem Owned.finished (h : Owned s g) (hi : Inv s) (hc : s.control = .main) :
    schedule_finished s = 1 ↔ ∀ k < g.created, (g.body k).returned = true := by
  have hall : schedule_finished s = 1 ↔ ∀ id < s.max_index, (s.threads id).state = .FREE := by
    rw [schedule_finished, if_neg (not_not.mpr (hi.outside hc))]
    simp
  rw [hall]
  constructor
  · intro hfree k hk
    have hlt := (h.bodies k hk).lt
    exact h.free_returned hlt (hfree _ hlt) hk rfl
  · intro hret id hid
    have hs := h.slots id hid
    exact hs.free.mpr (hret _ hs.lt)

/-- **A resume goes on with what is left of a body.** -/
theorem Owned.resumed (h : Owned s g) (hc : s.control = .main) {k : ℕ} (hk : k < g.created)
    (hr : (g.body k).returned = false) :
    (uthread_resume s (g.body k).slot).control =
      .uthread (g.body k).slot (left s (g.body k)) := by
  have hb := h.bodies k hk
  have hs := h.slots _ hb.lt
  have hstate : (s.threads (g.body k).slot).state = .SUSPEND := by
    refine (hs.parked (out_of_main hc _)).resolve_left fun hfree => ?_
    rw [h.free_returned hb.lt hfree hk rfl] at hr
    cases hr
  have hsw : Switches s (g.body k).slot :=
    ⟨Int.natCast_nonneg _, Int.ofNat_lt.mpr hb.lt, hstate⟩
  rw [uthread_resume, if_pos hsw, left_outside hr (out_of_main hc _)]
  rfl

/-- **Slots and completion, in every run.** -/
theorem completes_reach {p : State α × Bodies α}
    (h : (noted α).Reach (fun p a => Called p.1 a) p) : Completes p.1 p.2 := by
  have ho := owned_reach h
  have hi : Inv p.1 := inv_reach h.fst
  exact {
    selected := fun _ k hk hslot => ho.selected_returned hk hslot
    reused := by
      intro j k hjk hk hslot
      by_contra hr
      have hlast := (ho.bodies j (Nat.lt_trans hjk hk)).last (Bool.eq_false_iff.mpr hr)
      rw [hslot] at hlast
      have := (ho.bodies k hk).newest
      omega
    free := by
      intro id hid hfree
      have hs := ho.slots id hid
      exact ⟨⟨_, hs.lt, hs.slot⟩, fun k hk => ho.free_returned hid hfree hk⟩
    once := fun k hk => (ho.bodies k hk).once
    ran := by
      intro k hk hr
      have honce := (ho.bodies k hk).once
      rw [left_returned hr] at honce
      exact (List.append_nil _).symm.trans honce
    resumed := fun hc k hk => ho.resumed hc hk
    finished := ho.finished hi
    array := max_index_le h.fst }

/-- the index of a body that has returned is used again, while the body of index 0 is suspended -/
theorem completes_reach_run : ∃ p : State ℕ × Bodies ℕ,
    (noted ℕ).Reach (fun p a => Called p.1 a) p ∧ Completes p.1 p.2 ∧ p.1.control = .main ∧
      (List.range p.2.created).map (fun k => ((p.2.body k).slot, (p.2.body k).ran)) =
        [(0, [7]), (1, [9]), (1, [4])] ∧
      left p.1 (p.2.body 0) = [.step 8] := by
  have h : ((noted ℕ).execIf (fun p a => Called p.1 a) (start, Bodies.start)
      [.create [.step 7, .yield, .step 8], .run, .run, .create [.step 9], .run, .run, .resume 5,
        .resume 1, .create [.step 4], .run, .run]).map (fun p => (p.1.control,
          (List.range p.2.created).map (fun k => ((p.2.body k).slot, (p.2.body k).ran)),
          left p.1 (p.2.body 0))) =
      some (.main, [(0, [7]), (1, [9]), (1, [4])], [.step 8]) := by decide
  obtain ⟨p, hp, he⟩ := Option.map_eq_some_iff.mp h
  simp only [Prod.mk.injEq] at he
  have hr := Reach.of_execIf _ .init hp
  exact ⟨p, hr, completes_reach hr, he.1, he.2.1, he.2.2⟩

end Uthread
end CppCores
