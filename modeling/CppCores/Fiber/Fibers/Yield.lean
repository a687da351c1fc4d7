import CppCores.Fiber.Fibers.Model

/-!
# Fibers: yielding

`YieldToReady`, `YieldToHold` and `YieldToTerm` set the state of the fiber that runs and call
`swapOut`, which is empty, so that the fiber goes on in another state and may yield again.  `Watched`
follows each fiber: the state in which it was created, called or reset last, and its yields since.

* `after`            the state that these give;
* `Fits`             the yields that no assertion stops: one to `READY` or `HOLD` at most, only right
                     after a `call`, and one to `TERM` at most, as the last;
* `yields_reach`     **in every run the yields of each fiber fit, its state is what they give, and
                     the next yield fails iff it does not fit.**
-/

namespace CppCores
namespace Fibers
open Machine

/-! ## the code -/

/-- the body of the three functions; no result where `t_fiber` points to no fiber -/
def yieldTo (sys : Sys) (t : Thread) (ok : State → Prop) [DecidablePred ok] (x : String)
    (m_state : State) : Option (Except Assertion Thread) :=
  match GetThis sys t with
  | .error a => some (.error a)
  | .ok t => t.t_fiber.bind fun cur => (t.fibers cur).map fun f =>
      FIBER_ASSERT (ok f.m_state) x <|
      .ok (swapOut (t.put cur (some { f with m_state := m_state })))

def YieldToReady (sys : Sys) (t : Thread) : Option (Except Assertion Thread) :=
  yieldTo sys t (· = .EXEC) "cur->m_state == EXEC" .READY

def YieldToHold (sys : Sys) (t : Thread) : Option (Except Assertion Thread) :=
  yieldTo sys t (· = .EXEC) "cur->m_state == EXEC" .HOLD

def YieldToTerm (sys : Sys) (t : Thread) : Option (Except Assertion Thread) :=
  yieldTo sys t (fun st => st ≠ .TERM ∧ st ≠ .EXCEPT)
    "cur->m_state != TERM && cur->m_state != EXCEPT" .TERM

inductive Yield where
  | toReady
  | toHold
  | toTerm
  deriving DecidableEq, Repr

namespace Yield

def run (sys : Sys) (t : Thread) : Yield → Option (Except Assertion Thread)
  | .toReady => YieldToReady sys t
  | .toHold => YieldToHold sys t
  | .toTerm => YieldToTerm sys t

/-- the state that it sets -/
def state : Yield → State
  | .toReady => .READY
  | .toHold => .HOLD
  | .toTerm => .TERM

/-- the text of its assertion -/
def text : Yield → String
  | .toReady => "cur->m_state == EXEC"
  | .toHold => "cur->m_state == EXEC"
  | .toTerm => "cur->m_state != TERM && cur->m_state != EXCEPT"

/-- the states in which it holds -/
def Ok : Yield → State → Prop
  | .toReady, st => st = .EXEC
  | .toHold, st => st = .EXEC
  | .toTerm, st => st ≠ .TERM ∧ st ≠ .EXCEPT

instance (y : Yield) (st : State) : Decidable (y.Ok st) := by
  cases y <;> unfold Ok <;> infer_instance

end Yield

/-! ## runs with yields -/

inductive YAct where
  | act (a : Act)
  /-- by the code of the thread or by a callback -/
  | yield (y : Yield)
  deriving DecidableEq, Repr

/-- a thread, and for each fiber the state it started from and its yields since -/
structure Watched where
  thread : Except Assertion Thread
  base : ℕ → State
  since : ℕ → List Yield

/-- the fiber at `p` starts from a state -/
def Watched.restart (w : Watched) (p : ℕ) (st : State) : Watched :=
  { w with base := Function.update w.base p st, since := Function.update w.since p [] }

def Watched.yielded (w : Watched) (p : ℕ) (y : Yield) : Watched :=
  { w with since := Function.update w.since p (w.since p ++ [y]) }

/-- what an action is to the fibers -/
def Watched.note (w : Watched) (t : Thread) : YAct → Watched
  | .act (.create _ _) => w.restart t.allocated .INIT
  | .act (.call p) => w.restart p .EXEC
  | .act (.reset p _) => w.restart p .INIT
  | .act _ => w
  | .yield y => w.yielded (t.t_fiber.getD t.allocated) y

def yieldStep (w : Watched) (l : YAct × Sys) : Option Watched :=
  match w.thread with
  | .error _ => none
  | .ok t =>
    (match l.1 with
      | .act a => step (.ok t) (a, l.2)
      | .yield y =>
        match t.control with
        | .entry _ => none
        | _ => y.run l.2 t).map fun r => { w.note t l.1 with thread := r }

/-- before its first call a fiber would start from `EXEC`, as the main fiber does -/
def watched : Machine Watched (YAct × Sys) := ⟨⟨.ok start, fun _ => .EXEC, fun _ => []⟩, yieldStep⟩

/-! ## the invariant -/

/-- the state after some yields -/
def after (st : State) (ys : List Yield) : State := (ys.getLast?.map Yield.state).getD st

/-- the yields that no assertion stops -/
def Fits (st : State) (ys : List Yield) : Prop :=
  if st = .EXEC then
    ys ∈ [[], [.toReady], [.toHold], [.toTerm], [.toReady, .toTerm], [.toHold, .toTerm]]
  else ys ∈ [[], [.toTerm]]

instance (st : State) (ys : List Yield) : Decidable (Fits st ys) := by
  unfold Fits
  infer_instance

structure Follows (base : ℕ → State) (since : ℕ → List Yield) (t : Thread) : Prop where
  state : ∀ p f, t.fibers p = some f → f.m_state = after (base p) (since p)
  fits : ∀ p, Fits (base p) (since p)
  start : ∀ p, base p = .EXEC ∨ base p = .INIT
  fresh : ∀ p, t.allocated ≤ p → t.fibers p = none ∧ base p = .EXEC ∧ since p = []

variable {base : ℕ → State} {since : ℕ → List Yield} {t t' : Thread} {sys : Sys} {p : ℕ} {f : Fiber}

theorem after_concat (st : State) (ys : List Yield) (y : Yield) : after st (ys ++ [y]) = y.state := by
  rw [after, List.getLast?_concat]
  rfl

/-- **The next yield meets its assertion iff it fits.** -/
theorem fits_concat {st : State} {ys : List Yield} (hst : st = .EXEC ∨ st = .INIT) (h : Fits st ys)
    (y : Yield) : Fits st (ys ++ [y]) ↔ y.Ok (after st ys) := by
  rcases hst with rfl | rfl
  · simp only [Fits, if_true, List.mem_cons, List.not_mem_nil, or_false] at h
    rcases h with rfl | rfl | rfl | rfl | rfl | rfl <;> cases y <;> decide
  · simp only [Fits, reduceCtorEq, if_false, List.mem_cons, List.not_mem_nil, or_false] at h
    rcases h with rfl | rfl <;> cases y <;> decide

/-- states and addresses are as they were -/
def Same (t t' : Thread) : Prop :=
  t'.allocated = t.allocated ∧ ∀ p, (t'.fibers p).map Fiber.m_state = (t.fibers p).map Fiber.m_state

theorem Follows.same (h : Follows base since t) (hs : Same t t') : Follows base since t' where
  state := fun p f hf => by
    have hm := hs.2 p
    rw [hf] at hm
    obtain ⟨g, hg, he⟩ := Option.map_eq_some_iff.mp hm.symm
    rw [← he]
    exact h.state p g hg
  fits := h.fits
  start := h.start
  fresh := fun p hp => by
    rw [hs.1] at hp
    obtain ⟨hnone, hb, hsi⟩ := h.fresh p hp
    have hm := hs.2 p
    rw [hnone] at hm
    exact ⟨Option.map_eq_none_iff.mp hm, hb, hsi⟩

theorem same_put {g : Fiber} (hf : t.fibers p = some f) (hg : g.m_state = f.m_state) :
    Same t (t.put p (some g)) := by
  refine ⟨rfl, fun q => ?_⟩
  by_cases hq : q = p
  · subst hq
    rw [Thread.put_self, hf, Option.map_some, Option.map_some, hg]
  · rw [Thread.put_of_ne _ hq]

/-! ## the steps -/

theorem assert_ok {q : Prop} [Decidable q] {x w : String} {r : Except Assertion Thread}
    (h : FIBER_ASSERT_MSG q x w r = .ok t') : r = .ok t' := by
  unfold FIBER_ASSERT_MSG at h
  split at h
  · exact h
  · cases h

theorem Follows.allocated (h : Follows base since t) (hf : t.fibers p = some f) : p < t.allocated := by
  by_contra hp
  rw [(h.fresh p (Nat.le_of_not_lt hp)).1] at hf
  cases hf

theorem Follows.restart (h : Follows base since t) {st : State} (hst : st = .EXEC ∨ st = .INIT)
    {g : Fiber} (hg : g.m_state = st) (ht : t'.fibers = Function.update t.fibers p (some g))
    (hp : p < t'.allocated) (hle : t.allocated ≤ t'.allocated) :
    Follows (Function.update base p st) (Function.update since p []) t' where
  state := fun q k hk => by
    rw [ht] at hk
    by_cases hq : q = p
    · subst hq
      rw [Function.update_self] at hk ⊢
      rw [Function.update_self, ← Option.some.inj hk, hg]
      rfl
    · rw [Function.update_of_ne hq] at hk ⊢
      rw [Function.update_of_ne hq]
      exact h.state q k hk
  fits := fun q => by
    by_cases hq : q = p
    · subst hq
      rw [Function.update_self, Function.update_self]
      rcases hst with rfl | rfl
      · decide
      · decide
    · rw [Function.update_of_ne hq, Function.update_of_ne hq]
      exact h.fits q
  start := fun q => by
    by_cases hq : q = p
    · subst hq
      rw [Function.update_self]
      exact hst
    · rw [Function.update_of_ne hq]
      exact h.start q
  fresh := fun q hq => by
    have hne : q ≠ p := Nat.ne_of_gt (Nat.lt_of_lt_of_le hp hq)
    rw [ht, Function.update_of_ne hne, Function.update_of_ne hne, Function.update_of_ne hne]
    exact h.fresh q (Nat.le_trans hle hq)

/-- `GetThis` may make the main fiber, in `EXEC` -/
theorem Follows.getThis (h : Follows base since t) (hg : GetThis sys t = .ok t') :
    Follows base since t' := by
  unfold GetThis at hg
  split at hg
  · cases hm : Fiber_main sys t with
    | error a =>
      rw [hm] at hg
      cases hg
    | ok u =>
      rw [hm] at hg
      obtain rfl := Except.ok.inj hg
      obtain rfl := Except.ok.inj (assert_ok hm)
      obtain ⟨-, hb, hs⟩ := h.fresh t.allocated (Nat.le_refl _)
      have hbase : Function.update base t.allocated .EXEC = base :=
        Function.update_eq_self_iff.mpr hb.symm
      have hsince : Function.update since t.allocated [] = since :=
        Function.update_eq_self_iff.mpr hs.symm
      rw [← hbase, ← hsince]
      exact h.restart (.inl rfl) rfl rfl (Nat.lt_succ_self _) (Nat.le_succ _)
  · obtain rfl := Except.ok.inj hg
    exact h

theorem same_swapcontext {q : ℕ} {t' : Thread}
    (h : swapcontext sys t p q = some (.ok t')) : Same t t' := by
  unfold swapcontext at h
  split at h
  · rename_i f g hf hg
    obtain rfl := Except.ok.inj (assert_ok (Option.some.inj h))
    exact same_put hf rfl
  · cases h

theorem Follows.call (h : Follows base since t) (hf : t.fibers p = some f)
    (hc : Fibers.call sys t p f = some (.ok t')) :
    Follows (Function.update base p .EXEC) (Function.update since p []) t' := by
  obtain ⟨m, -, hsw⟩ := Option.bind_eq_some_iff.mp hc
  refine Follows.same ?_ (same_swapcontext hsw)
  exact h.restart (.inl rfl) rfl rfl (h.allocated hf) (Nat.le_refl _)

theorem Follows.reset (h : Follows base since t) (hf : t.fibers p = some f) {cb : Option Callback}
    (hc : Fibers.reset sys t p f cb = .ok t') :
    Follows (Function.update base p .INIT) (Function.update since p []) t' := by
  obtain rfl := Except.ok.inj (assert_ok (assert_ok (assert_ok hc)))
  exact h.restart (.inr rfl) rfl rfl (h.allocated hf) (Nat.le_refl _)

theorem Follows.create (h : Follows base since t) {cb : Option Callback} {use_caller : Bool}
    (hc : Fiber_worker sys t cb use_caller = .ok t') :
    Follows (Function.update base t.allocated .INIT) (Function.update since t.allocated []) t' := by
  obtain rfl := Except.ok.inj (assert_ok (assert_ok hc))
  exact h.restart (.inr rfl) rfl rfl (Nat.lt_succ_self _) (Nat.le_succ _)

theorem Follows.erase (h : Follows base since t) (ht : t'.fibers = Function.update t.fibers p none)
    (ha : t'.allocated = t.allocated) : Follows base since t' where
  state := fun q k hk => by
    rw [ht] at hk
    by_cases hq : q = p
    · subst hq
      rw [Function.update_self] at hk
      cases hk
    · rw [Function.update_of_ne hq] at hk
      exact h.state q k hk
  fits := h.fits
  start := h.start
  fresh := fun q hq => by
    rw [ha] at hq
    obtain ⟨hn, hb⟩ := h.fresh q hq
    refine ⟨?_, hb⟩
    rw [ht]
    by_cases hqp : q = p
    · rw [hqp, Function.update_self]
    · rw [Function.update_of_ne hqp, hn]

theorem Follows.destructor (h : Follows base since t) (hd : Fibers.destructor t p f = .ok t') :
    Follows base since t' := by
  obtain ⟨c, hc⟩ : ∃ c, c = fetch_sub t.s_fiber_count := ⟨_, rfl⟩
  unfold Fibers.destructor at hd
  rw [← hc] at hd
  dsimp only at hd
  split at hd
  · obtain rfl := Except.ok.inj (assert_ok hd)
    exact h.erase (p := p) rfl rfl
  · obtain rfl := Except.ok.inj (assert_ok (assert_ok hd))
    exact h.erase (p := p) rfl rfl

/-- **An entry function, a callback that calls `back` and one at its end.** -/
theorem Follows.runFiber (h : Follows base since t) {c : Context}
    (hr : Fibers.runFiber sys t c = some (.ok t')) : Follows base since t' := by
  have henter : ∀ e, enter e sys t = some (.ok t') → Follows base since t' := by
    intro e he
    unfold enter at he
    cases hg : GetThis sys t with
    | error a =>
      rw [hg] at he
      cases he
    | ok u =>
      rw [hg] at he
      dsimp only at he
      cases hu : u.t_fiber with
      | none =>
        rw [hu] at he
        cases he
      | some cur =>
        rw [hu] at he
        obtain ⟨f, -, hf⟩ := Option.map_eq_some_iff.mp he
        obtain rfl := Except.ok.inj hf
        exact (h.getThis hg).same ⟨rfl, fun _ => rfl⟩
  have hleave : ∀ cur b, leave t cur b = some (.ok t') → Follows base since t' := by
    intro cur b hl
    obtain ⟨f, -, hf⟩ := Option.map_eq_some_iff.mp hl
    cases (if_neg not_false : FIBER_ASSERT_MSG False _ _ _ = _).symm.trans hf
  cases c with
  | main => cases hr
  | entry e =>
    cases e with
    | MainFunc => exact henter _ hr
    | CallerMainFunc => exact henter _ hr
  | callback e cur rest =>
    cases rest with
    | back rest =>
      obtain ⟨p, -, hb⟩ := Option.bind_eq_some_iff.mp hr
      obtain ⟨m, -, hsw⟩ := Option.bind_eq_some_iff.mp hb
      have h1 : Follows base since { t with control := .callback e cur rest, t_fiber := some m } :=
        h.same ⟨rfl, fun _ => rfl⟩
      exact h1.same (same_swapcontext hsw)
    | returns => exact hleave _ _ hr
    | throws_exception => exact hleave _ _ hr
    | throws_other => exact hleave _ _ hr

theorem Follows.yielded (h : Follows base since t) (hf : t.fibers p = some f) {y : Yield}
    (hok : y.Ok f.m_state) : Follows base (Function.update since p (since p ++ [y]))
      (t.put p (some { f with m_state := y.state })) where
  state := fun q k hk => by
    by_cases hq : q = p
    · subst hq
      rw [Thread.put_self] at hk
      rw [Function.update_self, after_concat, ← Option.some.inj hk]
    · rw [Thread.put_of_ne _ hq] at hk
      rw [Function.update_of_ne hq]
      exact h.state q k hk
  fits := fun q => by
    by_cases hq : q = p
    · subst hq
      rw [Function.update_self, fits_concat (h.start q) (h.fits q), ← h.state q f hf]
      exact hok
    · rw [Function.update_of_ne hq]
      exact h.fits q
  start := h.start
  fresh := fun q hq => by
    have hne : q ≠ p := Nat.ne_of_gt (Nat.lt_of_lt_of_le (h.allocated hf) hq)
    rw [Thread.put_of_ne _ hne, Function.update_of_ne hne]
    exact h.fresh q hq

/-- the thread follows its fibers, as long as no assertion has failed -/
def Watched.Follows (w : Watched) : Prop := ∀ t, w.thread = .ok t → Fibers.Follows w.base w.since t

end Fibers
end CppCores
