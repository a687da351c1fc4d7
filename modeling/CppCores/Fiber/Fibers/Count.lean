import Mathlib.Data.Finset.Card
import Mathlib.Order.Interval.Finset.Nat
import CppCores.Fiber.Fibers.Model

/-!
# Fibers: the count of the living ones, over all threads

`s_fiber_count` belongs to all threads, `t_fiber` and `t_threadFiber` to each of them.  A step is one
call of one thread, or its fiber going on, on what that thread sees.

* `change_step`      what a step does to the counter and to which fibers there are;
* `Inv.step`         a thread that gets its main fiber puts the counter wrong, all other steps move the
                     counter with the fibers;
* `count_iff`        so **the counter is right iff no thread got a main fiber**.
-/

namespace CppCores
namespace Fibers
open Machine

/-! ## many threads -/

/-- what a thread has for itself -/
structure Own where
  t_fiber : Option ℕ
  t_threadFiber : Option ℕ
  control : Context
  deriving DecidableEq

structure Process (Tid : Type*) where
  s_fiber_id : ℕ
  s_fiber_count : ℕ
  fibers : ℕ → Option Fiber
  allocated : ℕ
  own : Tid → Own

namespace Process
variable {Tid : Type*}

def start : Process Tid where
  s_fiber_id := 0
  s_fiber_count := 0
  fibers := fun _ => none
  allocated := 0
  own := fun _ => ⟨none, none, .main⟩

/-- what the thread `tid` sees -/
def view (s : Process Tid) (tid : Tid) : Thread where
  s_fiber_id := s.s_fiber_id
  s_fiber_count := s.s_fiber_count
  t_fiber := (s.own tid).t_fiber
  t_threadFiber := (s.own tid).t_threadFiber
  fibers := s.fibers
  allocated := s.allocated
  control := (s.own tid).control

/-- `Fiber::TotalFibers()` -/
def TotalFibers (s : Process Tid) : ℕ := s.s_fiber_count

/-- the fibers that are constructed and not yet destroyed -/
def living (s : Process Tid) : Finset ℕ :=
  (Finset.range s.allocated).filter fun p => (s.fibers p).isSome

variable [DecidableEq Tid]

/-- the thread `tid` leaves `t` behind -/
def store (s : Process Tid) (tid : Tid) (t : Thread) : Process Tid where
  s_fiber_id := t.s_fiber_id
  s_fiber_count := t.s_fiber_count
  fibers := t.fibers
  allocated := t.allocated
  own := Function.update s.own tid ⟨t.t_fiber, t.t_threadFiber, t.control⟩

/-- the program ends where an assertion fails; the living fibers have different addresses of 64 bits,
none of them the null pointer -/
def step (s : Process Tid) : Tid × Act × Sys → Option (Process Tid)
  | (tid, l) =>
    match Fibers.step (.ok (s.view tid)) l with
    | some (.ok t) => if (s.store tid t).living.card < 2 ^ 64 then some (s.store tid t) else none
    | _ => none

end Process

/-- any number of threads -/
def process (Tid : Type*) [DecidableEq Tid] : Machine (Process Tid) (Tid × Act × Sys) :=
  ⟨Process.start, Process.step⟩

/-- the call makes the main fiber of its thread -/
def Opens (t : Thread) : Act → Prop
  | .GetThis => t.control = .main ∧ t.t_fiber = none
  | .run => (∃ e, t.control = .entry e) ∧ t.t_fiber = none
  | _ => False

/-! ## what a step changes -/

section
variable {t t' u : Thread} {sys : Sys} {p : ℕ} {f f' : Fiber}

theorem of_assert {c : Prop} [Decidable c] {x w : String} {r : Except Assertion Thread}
    (h : FIBER_ASSERT_MSG c x w r = .ok t') : c ∧ r = .ok t' := by
  by_cases hc : c
  · rw [FIBER_ASSERT_MSG_of hc] at h
    exact ⟨hc, h⟩
  · rw [FIBER_ASSERT_MSG, if_neg hc] at h
    cases h

/-- a fiber goes on: it keeps its stack, and without one it gets no callback -/
structure Goes (f f' : Fiber) : Prop where
  stack : f'.m_stack = f.m_stack
  cb : f.m_stack = none → f.m_cb = none → f'.m_cb = none

/-- the fibers go on, none comes and none leaves -/
def Kept (t t' : Thread) : Prop := ∀ p, Option.Rel Goes (t.fibers p) (t'.fibers p)

theorem Kept.of_eq (h : t'.fibers = t.fibers) : Kept t t' := by
  intro p
  rw [h]
  cases t.fibers p with
  | none => exact .none
  | some f => exact .some ⟨rfl, fun _ h => h⟩

theorem Kept.put (hp : t.fibers p = some f) (h : Goes f f') : Kept t (t.put p (some f')) := by
  intro q
  by_cases hq : q = p
  · rw [hq, t.put_self, hp]
    exact .some h
  · rw [t.put_of_ne hq]
    exact Kept.of_eq rfl q

theorem Kept.trans (h : Kept t t') (h' : Kept t' u) : Kept t u := by
  intro p
  have hp := h p
  have hp' := h' p
  revert hp hp'
  generalize t.fibers p = x, t'.fibers p = y, u.fibers p = z
  intro hp hp'
  cases hp with
  | none => exact hp'
  | some hg =>
    cases hp' with
    | some hg' =>
      refine .some ⟨hg'.stack.trans hg.stack, fun hs hc => hg'.cb ?_ (hg.cb hs hc)⟩
      rw [hg.stack, hs]

theorem Kept.isSome_eq (h : Kept t t') (p : ℕ) : (t'.fibers p).isSome = (t.fibers p).isSome := by
  have hp := h p
  generalize t.fibers p = x, t'.fibers p = y at hp
  cases hp with
  | none => rfl
  | some _ => rfl

theorem Kept.of_some (h : Kept t t') (hf : t'.fibers p = some f') :
    ∃ f, t.fibers p = some f ∧ Goes f f' := by
  have hp := h p
  rw [hf] at hp
  generalize t.fibers p = x at hp
  cases hp with
  | some hg => exact ⟨_, rfl, hg⟩

theorem Kept.some_iff (h : Kept t t') {p : ℕ} : (∃ f, t.fibers p = some f ∧ f.m_stack = none) ↔
    ∃ f', t'.fibers p = some f' ∧ f'.m_stack = none := by
  have hp := h p
  generalize t.fibers p = x, t'.fibers p = y at hp ⊢
  cases hp with
  | none => rfl
  | some hg => simp only [Option.some.injEq, exists_eq_left', hg.stack]

theorem Goes.of_eq (hs : f'.m_stack = f.m_stack) (hc : f'.m_cb = f.m_cb) : Goes f f' :=
  ⟨hs, fun _ h => hc.trans h⟩

/-- what the call `a` does to the counter and to the fibers -/
inductive Change (t : Thread) (a : Act) (t' : Thread) : Prop where
  | kept (opens : ¬ Opens t a) (count : t'.s_fiber_count = t.s_fiber_count)
      (allocated : t'.allocated = t.allocated) (main : t'.t_threadFiber = t.t_threadFiber)
      (fibers : Kept t t')
  | main (opens : Opens t a) (f : Fiber) (stack : f.m_stack = none) (cb : f.m_cb = none)
      (count : t'.s_fiber_count = fetch_and t.s_fiber_count)
      (allocated : t'.allocated = t.allocated + 1) (main : t'.t_threadFiber = some t.allocated)
      (fibers : t'.fibers = Function.update t.fibers t.allocated (some f))
  | worker (opens : ¬ Opens t a) (f : Fiber) (stack : f.m_stack ≠ none)
      (count : t'.s_fiber_count = fetch_add t.s_fiber_count)
      (allocated : t'.allocated = t.allocated + 1) (main : t'.t_threadFiber = t.t_threadFiber)
      (fibers : t'.fibers = Function.update t.fibers t.allocated (some f))
  | gone (opens : ¬ Opens t a) (p : ℕ) (f : Fiber) (here : t.fibers p = some f)
      (cb : f.m_stack = none → f.m_cb ≠ none)
      (count : t'.s_fiber_count = fetch_sub t.s_fiber_count)
      (allocated : t'.allocated = t.allocated) (main : t'.t_threadFiber = t.t_threadFiber)
      (fibers : t'.fibers = Function.update t.fibers p none)

theorem GetThis_ok (h : GetThis sys t = .ok t') :
    t.t_fiber ≠ none ∧ t' = t ∨
    t.t_fiber = none ∧ t' = { t.put t.allocated (some { m_state := .EXEC, m_ctx := t.control }) with
      t_fiber := some t.allocated
      t_threadFiber := some t.allocated
      allocated := t.allocated + 1
      s_fiber_count := fetch_and t.s_fiber_count } := by
  rw [GetThis] at h
  by_cases hnone : t.t_fiber = none
  · rw [if_pos hnone] at h
    cases hm : Fiber_main sys t with
    | error x =>
      rw [hm] at h
      cases h
    | ok m =>
      rw [hm] at h
      obtain ⟨-, hm⟩ := of_assert hm
      cases hm
      cases h
      exact .inr ⟨hnone, rfl⟩
  · rw [if_neg hnone] at h
    cases h
    exact .inl ⟨hnone, rfl⟩

theorem change_create {cb : Option Callback} {use_caller : Bool}
    (h : Fiber_worker sys t cb use_caller = .ok t') : Change t (.create cb use_caller) t' := by
  obtain ⟨hm, h⟩ := of_assert h
  obtain ⟨-, h⟩ := of_assert h
  cases h
  exact .worker id _ hm rfl rfl rfl rfl

/-- the destructor after its `fetch_sub`, which left `u` -/
theorem destructor_rest {u : Thread} (h : (if f.m_stack ≠ none then
      FIBER_ASSERT (f.m_state = .TERM ∨ f.m_state = .EXCEPT ∨ f.m_state = .INIT)
        "m_state == TERM || m_state == EXCEPT || m_state == INIT" <| .ok (u.put p none)
    else
      FIBER_ASSERT (f.m_cb ≠ none) "m_cb != nullptr" <|
      FIBER_ASSERT (f.m_state = .EXEC) "m_state == EXEC" <|
      .ok ({ u with t_fiber := if u.t_fiber = some p then none else u.t_fiber }.put p none)) =
        Except.ok t') :
    (f.m_stack = none → f.m_cb ≠ none) ∧ t'.s_fiber_count = u.s_fiber_count ∧
      t'.allocated = u.allocated ∧ t'.t_threadFiber = u.t_threadFiber ∧
      t'.fibers = Function.update u.fibers p none := by
  split at h
  · rename_i hs
    obtain ⟨-, h⟩ := of_assert h
    cases h
    exact ⟨fun hn => absurd hn hs, rfl, rfl, rfl, rfl⟩
  · obtain ⟨hcb, h⟩ := of_assert h
    obtain ⟨-, h⟩ := of_assert h
    cases h
    exact ⟨fun _ => hcb, rfl, rfl, rfl, rfl⟩

theorem change_destroy (hp : t.fibers p = some f) (h : destructor t p f = .ok t') :
    Change t (.destroy p) t' := by
  obtain ⟨hcb, hcount, hall, hmain, hfibers⟩ := destructor_rest h
  exact .gone id p f hp hcb hcount hall hmain hfibers

theorem change_reset {cb : Option Callback} (hp : t.fibers p = some f)
    (h : reset sys t p f cb = .ok t') : Change t (.reset p cb) t' := by
  obtain ⟨hs, h⟩ := of_assert h
  obtain ⟨-, h⟩ := of_assert h
  obtain ⟨-, h⟩ := of_assert h
  cases h
  exact .kept id rfl rfl rfl (.put hp ⟨rfl, fun hn _ => absurd hn hs⟩)

/-- a step that only switches: the fibers go on, and the counter and the main fiber stay -/
structure Switched (t t' : Thread) : Prop where
  count : t'.s_fiber_count = t.s_fiber_count
  allocated : t'.allocated = t.allocated
  main : t'.t_threadFiber = t.t_threadFiber
  fibers : Kept t t'

theorem Switched.trans (h : Switched t t') (h' : Switched t' u) : Switched t u :=
  ⟨h'.count.trans h.count, h'.allocated.trans h.allocated, h'.main.trans h.main,
    h.fibers.trans h'.fibers⟩

theorem Switched.put (hp : t.fibers p = some f) (h : Goes f f') :
    Switched t (t.put p (some f')) :=
  ⟨rfl, rfl, rfl, .put hp h⟩

theorem switched_swapcontext {oucp ucp : ℕ}
    (h : swapcontext sys t oucp ucp = some (.ok t')) : Switched t t' := by
  rw [swapcontext] at h
  split at h
  · rename_i f g hf hg
    obtain ⟨-, h⟩ := of_assert (Option.some.inj h)
    cases h
    have hput : Switched t (t.put oucp (some { f with m_ctx := t.control })) := .put hf (.of_eq rfl rfl)
    exact ⟨hput.count, hput.allocated, hput.main, hput.fibers⟩
  · cases h

theorem switched_call (hp : t.fibers p = some f) (h : call sys t p f = some (.ok t')) :
    Switched t t' := by
  obtain ⟨m, -, h⟩ := Option.bind_eq_some_iff.mp h
  have hput : Switched t (t.put p (some { f with m_state := .EXEC })) := .put hp (.of_eq rfl rfl)
  have hswap := switched_swapcontext h
  exact hput.trans ⟨hswap.count, hswap.allocated, hswap.main, hswap.fibers⟩

theorem switched_back (h : back sys t p = some (.ok t')) : Switched t t' := by
  obtain ⟨m, -, h⟩ := Option.bind_eq_some_iff.mp h
  have hswap := switched_swapcontext h
  exact ⟨hswap.count, hswap.allocated, hswap.main, hswap.fibers⟩

/-- an entry function does not go on after its callback -/
theorem leave_not_ok {returned : Bool} : leave t p returned ≠ some (.ok t') := by
  intro h
  obtain ⟨f, -, h⟩ := Option.map_eq_some_iff.mp h
  exact (of_assert h).1

theorem change_enter {e : Entry} (hctl : t.control = .entry e)
    (h : enter e sys t = some (.ok t')) : Change t .run t' := by
  rw [enter] at h
  cases hget : GetThis sys t with
  | error x =>
    rw [hget] at h
    cases h
  | ok u =>
    rw [hget] at h
    dsimp only at h
    split at h
    · cases h
    · obtain ⟨f, -, h⟩ := Option.map_eq_some_iff.mp h
      cases h
      rcases GetThis_ok hget with ⟨hne, rfl⟩ | ⟨hnone, rfl⟩
      · exact .kept (fun ho => hne ho.2) rfl rfl rfl (.of_eq rfl)
      · exact .main ⟨⟨e, hctl⟩, hnone⟩ { m_state := .EXEC, m_ctx := t.control } rfl rfl rfl rfl rfl rfl

theorem change_run {c : Context} (hctl : t.control = c) (h : runFiber sys t c = some (.ok t')) :
    Change t .run t' := by
  have hkept : (∀ e, c ≠ .entry e) → Switched t t' → Change t .run t' := by
    intro hc hs
    refine .kept ?_ hs.count hs.allocated hs.main hs.fibers
    rintro ⟨⟨e, he⟩, -⟩
    exact hc e (hctl.symm.trans he)
  cases c with
  | main => cases h
  | entry e => cases e <;> exact change_enter hctl h
  | callback e cur rest =>
    cases rest with
    | back rest =>
      obtain ⟨q, -, h⟩ := Option.bind_eq_some_iff.mp h
      have hback := switched_back h
      exact hkept (fun _ => nofun) ⟨hback.count, hback.allocated, hback.main, hback.fibers⟩
    | returns => exact absurd h leave_not_ok
    | throws_exception => exact absurd h leave_not_ok
    | throws_other => exact absurd h leave_not_ok

/-- **What a step changes.** -/
theorem change_step {a : Act} (h : Fibers.step (.ok t) (a, sys) = some (.ok t')) :
    Change t a t' := by
  rw [Fibers.step] at h
  split at h
  · rename_i hmain
    cases a with
    | GetThis =>
      rcases GetThis_ok (Option.some.inj h) with ⟨hne, rfl⟩ | ⟨hnone, rfl⟩
      · exact .kept (fun ho => hne ho.2) rfl rfl rfl (.of_eq rfl)
      · exact .main ⟨hmain, hnone⟩ { m_state := .EXEC, m_ctx := t.control } rfl rfl rfl rfl rfl rfl
    | create cb use_caller => exact change_create (Option.some.inj h)
    | call p =>
      obtain ⟨f, hf, h⟩ := Option.bind_eq_some_iff.mp h
      have hcall := switched_call hf h
      exact .kept id hcall.count hcall.allocated hcall.main hcall.fibers
    | reset p cb =>
      obtain ⟨f, hf, h⟩ := Option.map_eq_some_iff.mp h
      exact change_reset hf h
    | destroy p =>
      obtain ⟨f, hf, h⟩ := Option.map_eq_some_iff.mp h
      exact change_destroy hf h
    | run => cases h
  · split at h
    · rename_i ha
      subst ha
      exact change_run rfl h
    · cases h

end

/-! ## the counter -/

section
variable {Tid : Type*} {s : Process Tid} {p : ℕ}

theorem mem_living : p ∈ s.living ↔ p < s.allocated ∧ (s.fibers p).isSome = true := by
  rw [Process.living, Finset.mem_filter, Finset.mem_range]

/-- no thread has a main fiber -/
def NoMain (s : Process Tid) : Prop := ∀ tid, (s.own tid).t_threadFiber = none

/-- what there is, and that nobody can destroy a main fiber -/
structure Heap (s : Process Tid) : Prop where
  fresh : ∀ p, s.allocated ≤ p → s.fibers p = none
  bare : ∀ p f, s.fibers p = some f → f.m_stack = none → f.m_cb = none
  main : ∀ tid m, (s.own tid).t_threadFiber = some m → ∃ f, s.fibers m = some f ∧ f.m_stack = none

structure Counted (s : Process Tid) : Prop where
  heap : Heap s
  few : s.living.card < 2 ^ 64
  count : s.TotalFibers < 2 ^ 64
  total : s.TotalFibers = s.living.card ↔ NoMain s

theorem Heap.mem (h : Heap s) {f : Fiber} (hp : s.fibers p = some f) : p ∈ s.living := by
  rw [mem_living, hp]
  refine ⟨?_, rfl⟩
  by_contra hle
  rw [h.fresh p (Nat.not_lt.mp hle)] at hp
  cases hp

theorem counted_start : Counted (Process.start : Process Tid) where
  heap := ⟨fun _ _ => rfl, nofun, nofun⟩
  few := Nat.two_pow_pos 64
  count := Nat.two_pow_pos 64
  total := ⟨fun _ _ => rfl, fun _ => rfl⟩

/-- the counter is right, and no destruction takes it below zero -/
structure Right (s : Process Tid) : Prop where
  total : s.TotalFibers = s.living.card
  positive : ∀ p ∈ s.living, 0 < s.TotalFibers

theorem right_iff (h : Counted s) : Right s ↔ NoMain s := by
  rw [← h.total]
  refine ⟨fun hr => hr.total, fun ht => ⟨ht, fun p hp => ?_⟩⟩
  rw [ht]
  exact Finset.card_pos.mpr ⟨p, hp⟩

variable [DecidableEq Tid] {s' : Process Tid} {tid : Tid} {t' : Thread}

theorem own_store (i : Tid) : ((s.store tid t').own i).t_threadFiber =
    if i = tid then t'.t_threadFiber else (s.own i).t_threadFiber := by
  show (Function.update s.own tid _ i).t_threadFiber = _
  by_cases hi : i = tid
  · rw [if_pos hi, hi, Function.update_self]
  · rw [if_neg hi, Function.update_of_ne hi]

theorem own_store_of_eq (h : t'.t_threadFiber = (s.view tid).t_threadFiber) (i : Tid) :
    ((s.store tid t').own i).t_threadFiber = (s.own i).t_threadFiber := by
  rw [own_store]
  split
  · rename_i hi
    rw [hi, h]
    rfl
  · rfl

theorem noMain_store (h : t'.t_threadFiber = (s.view tid).t_threadFiber) :
    NoMain (s.store tid t') ↔ NoMain s :=
  forall_congr' fun i => by rw [own_store_of_eq h]

theorem living_kept (hall : t'.allocated = s.allocated) (h : Kept (s.view tid) t') :
    (s.store tid t').living = s.living := by
  ext p
  rw [mem_living, mem_living]
  show p < t'.allocated ∧ (t'.fibers p).isSome = true ↔ _
  rw [hall, h.isSome_eq p]
  rfl

theorem living_made (tid : Tid) {f : Fiber} (hall : t'.allocated = s.allocated + 1)
    (h : t'.fibers = Function.update s.fibers s.allocated (some f)) :
    (s.store tid t').living.card = s.living.card + 1 := by
  have hnew : s.allocated ∉ s.living := fun hm => Nat.lt_irrefl _ (mem_living.mp hm).1
  have hinsert : (s.store tid t').living = insert s.allocated s.living := by
    ext p
    rw [Finset.mem_insert, mem_living, mem_living]
    show p < t'.allocated ∧ (t'.fibers p).isSome = true ↔ _
    rw [hall, h]
    by_cases hp : p = s.allocated
    · subst hp
      rw [Function.update_self]
      exact ⟨fun _ => .inl rfl, fun _ => ⟨Nat.lt_succ_self _, rfl⟩⟩
    · rw [Function.update_of_ne hp]
      refine ⟨fun hm => .inr ⟨by omega, hm.2⟩, fun hm => ?_⟩
      have hm := hm.resolve_left hp
      exact ⟨by omega, hm.2⟩
  rw [hinsert, Finset.card_insert_of_notMem hnew]

theorem living_gone (tid : Tid) (hmem : p ∈ s.living) (hall : t'.allocated = s.allocated)
    (h : t'.fibers = Function.update s.fibers p none) :
    (s.store tid t').living.card + 1 = s.living.card := by
  have herase : (s.store tid t').living = s.living.erase p := by
    ext q
    rw [Finset.mem_erase, mem_living, mem_living]
    show q < t'.allocated ∧ (t'.fibers q).isSome = true ↔ _
    rw [hall, h]
    by_cases hq : q = p
    · rw [hq, Function.update_self]
      exact iff_of_false (fun hm => nomatch hm.2) fun hm => hm.1 rfl
    · rw [Function.update_of_ne hq]
      exact ⟨fun hm => ⟨hq, hm⟩, fun hm => hm.2⟩
  rw [herase]
  exact Finset.card_erase_add_one hmem

theorem process_step {a : Act} {sys : Sys} (h : s.step (tid, a, sys) = some s') :
    ∃ t', Change (s.view tid) a t' ∧ s' = s.store tid t' ∧ s'.living.card < 2 ^ 64 := by
  rw [Process.step] at h
  split at h
  · rename_i t' hst
    split at h
    · rename_i hfew
      cases h
      exact ⟨t', change_step hst, rfl, hfew⟩
    · cases h
  · cases h

theorem noMain_step {a : Act} {sys : Sys} (h : s.step (tid, a, sys) = some s') :
    NoMain s' ↔ NoMain s ∧ ¬ Opens (s.view tid) a := by
  obtain ⟨t', hch, rfl, -⟩ := process_step h
  cases hch with
  | kept ho _ _ hm _ => rw [noMain_store hm, and_iff_left ho]
  | worker ho _ _ _ _ hm _ => rw [noMain_store hm, and_iff_left ho]
  | gone ho _ _ _ _ _ _ hm _ => rw [noMain_store hm, and_iff_left ho]
  | main ho _ _ _ _ _ hm _ =>
    refine iff_of_false (fun hn => ?_) fun hn => hn.2 ho
    have htid := hn tid
    rw [own_store, if_pos rfl, hm] at htid
    cases htid

theorem Heap.kept (h : Heap s) (hall : t'.allocated = s.allocated)
    (hm : t'.t_threadFiber = (s.view tid).t_threadFiber) (hk : Kept (s.view tid) t') :
    Heap (s.store tid t') where
  fresh q hq := by
    have hq : t'.allocated ≤ q := hq
    have hnone : (s.view tid).fibers q = none := h.fresh q (by omega)
    have hsome := hk.isSome_eq q
    rw [hnone] at hsome
    exact Option.isNone_iff_eq_none.mp (Option.isSome_eq_false_iff.mp hsome)
  bare q g hg hs := by
    obtain ⟨f, hf, hgo⟩ := hk.of_some hg
    have hs' := hgo.stack.symm.trans hs
    exact hgo.cb hs' (h.bare q f hf hs')
  main i m hi := by
    rw [own_store_of_eq hm] at hi
    exact hk.some_iff.mp (h.main i m hi)

theorem Heap.made (h : Heap s) {f : Fiber} (hf : f.m_stack = none → f.m_cb = none)
    (hall : t'.allocated = s.allocated + 1)
    (hfib : t'.fibers = Function.update s.fibers s.allocated (some f))
    (hm : t'.t_threadFiber = (s.view tid).t_threadFiber ∨
      t'.t_threadFiber = some s.allocated ∧ f.m_stack = none) : Heap (s.store tid t') where
  fresh q hq := by
    have hq : t'.allocated ≤ q := hq
    show t'.fibers q = none
    rw [hfib, Function.update_of_ne (by omega)]
    exact h.fresh q (by omega)
  bare q g hg := by
    have hg : t'.fibers q = some g := hg
    rw [hfib] at hg
    by_cases hq : q = s.allocated
    · rw [hq, Function.update_self] at hg
      cases hg
      exact hf
    · rw [Function.update_of_ne hq] at hg
      exact h.bare q g hg
  main i m hi := by
    show ∃ g, t'.fibers m = some g ∧ _
    have hold : (s.own i).t_threadFiber = some m → ∃ g, t'.fibers m = some g ∧ g.m_stack = none := by
      intro hi
      obtain ⟨g, hg, hs⟩ := h.main i m hi
      have hne : m ≠ s.allocated := Nat.ne_of_lt (mem_living.mp (h.mem hg)).1
      rw [hfib, Function.update_of_ne hne]
      exact ⟨g, hg, hs⟩
    rcases hm with hm | ⟨hm, hs⟩
    · rw [own_store_of_eq hm] at hi
      exact hold hi
    · rw [own_store] at hi
      split at hi
      · rw [hm] at hi
        cases hi
        rw [hfib, Function.update_self]
        exact ⟨f, rfl, hs⟩
      · exact hold hi

theorem Heap.gone (h : Heap s) {f : Fiber} (hp : s.fibers p = some f)
    (hcb : f.m_stack = none → f.m_cb ≠ none) (hall : t'.allocated = s.allocated)
    (hm : t'.t_threadFiber = (s.view tid).t_threadFiber)
    (hfib : t'.fibers = Function.update s.fibers p none) : Heap (s.store tid t') where
  fresh q hq := by
    have hq : t'.allocated ≤ q := hq
    have hlt := (mem_living.mp (h.mem hp)).1
    show t'.fibers q = none
    rw [hfib, Function.update_of_ne (by omega)]
    exact h.fresh q (by omega)
  bare q g hg := by
    have hg : t'.fibers q = some g := hg
    rw [hfib] at hg
    by_cases hq : q = p
    · rw [hq, Function.update_self] at hg
      cases hg
    · rw [Function.update_of_ne hq] at hg
      exact h.bare q g hg
  main i m hi := by
    rw [own_store_of_eq hm] at hi
    obtain ⟨g, hg, hs⟩ := h.main i m hi
    have hne : m ≠ p := by
      rintro rfl
      rw [hp] at hg
      cases hg
      exact hcb hs (h.bare m f hp hs)
    refine ⟨g, ?_, hs⟩
    show t'.fibers m = some g
    rw [hfib, Function.update_of_ne hne]
    exact hg

/-- **A step keeps the count, unless it makes a main fiber.** -/
theorem Counted.step {a : Act} {sys : Sys} (h : Counted s) (hst : s.step (tid, a, sys) = some s') :
    Counted s' := by
  have hno := noMain_step hst
  obtain ⟨t', hch, rfl, hfew⟩ := process_step hst
  have hc : s.s_fiber_count < 2 ^ 64 := h.count
  have hl := h.few
  have htot : s.s_fiber_count = s.living.card ↔ NoMain s := h.total
  cases hch with
  | kept ho hcount hall hm hk =>
    have hcount : t'.s_fiber_count = s.s_fiber_count := hcount
    have hliv := living_kept hall hk
    refine ⟨h.heap.kept hall hm hk, hfew, ?_, ?_⟩
    · show t'.s_fiber_count < _
      rw [hcount]
      exact hc
    · show t'.s_fiber_count = _ ↔ _
      rw [hno, hcount, hliv, htot, and_iff_left ho]
  | worker ho f hs hcount hall hm hfib =>
    have hcount : t'.s_fiber_count = (s.s_fiber_count + 1) % 2 ^ 64 := hcount
    have hliv := living_made tid hall hfib
    refine ⟨h.heap.made (fun hn => absurd hn hs) hall hfib (.inl hm), hfew, ?_, ?_⟩
    · show t'.s_fiber_count < _
      omega
    · show t'.s_fiber_count = _ ↔ _
      rw [hno, ← htot, and_iff_left ho]
      omega
  | gone ho p f hp hcb hcount hall hm hfib =>
    have hcount : t'.s_fiber_count = (s.s_fiber_count + (2 ^ 64 - 1)) % 2 ^ 64 := hcount
    have hliv := living_gone tid (h.heap.mem hp) hall hfib
    refine ⟨h.heap.gone hp hcb hall hm hfib, hfew, ?_, ?_⟩
    · show t'.s_fiber_count < _
      omega
    · show t'.s_fiber_count = _ ↔ _
      rw [hno, ← htot, and_iff_left ho]
      omega
  | main ho f hs hcb hcount hall hm hfib =>
    have hcount : t'.s_fiber_count = s.s_fiber_count &&& 1 := hcount
    have hliv := living_made tid hall hfib
    have hle : s.s_fiber_count &&& 1 ≤ 1 := Nat.and_le_right
    refine ⟨h.heap.made (fun _ => hcb) hall hfib (.inr ⟨hm, hs⟩), hfew, ?_, ?_⟩
    · show t'.s_fiber_count < _
      omega
    · show t'.s_fiber_count = _ ↔ _
      refine iff_of_false (fun heq => ?_) fun hn => (hno.mp hn).2 ho
      -- only the first fiber could be counted right, and then the counter is 0
      have hzero : s.living.card = 0 := by omega
      have hnone : NoMain s := by
        intro i
        cases hi : (s.own i).t_threadFiber with
        | none => rfl
        | some m =>
          obtain ⟨g, hg, -⟩ := h.heap.main i m hi
          rw [Finset.card_eq_zero] at hzero
          exact absurd (h.heap.mem hg) (by rw [hzero]; exact Finset.notMem_empty m)
      rw [htot.mpr hnone, hzero] at hcount
      rw [hcount, hliv, hzero] at heq
      cases heq

theorem counted_reach (h : (process Tid).Reachable s) : Counted s :=
  h.inv counted_start fun _ _ _ hs _ hst => hs.step hst

/-- **The counter is right in the states of the runs in which no thread gets a main fiber, and in no
others.** -/
theorem count_iff (s : Process Tid) :
    (process Tid).Reach (fun s l => ¬ Opens (s.view l.1) l.2.1) s ↔
      (process Tid).Reachable s ∧ Right s := by
  apply Reach.iff_inv
  · exact (right_iff counted_start).mpr fun _ => rfl
  · intro s l s' hr hright hok hst
    rw [right_iff (counted_reach (hr.step trivial hst)), noMain_step hst]
    exact ⟨(right_iff (counted_reach hr)).mp hright, hok⟩
  · intro s l s' hr hst hright
    rw [right_iff (counted_reach (hr.step trivial hst)), noMain_step hst] at hright
    exact ⟨(right_iff (counted_reach hr)).mpr hright.1, hright.2⟩

/-- one thread, which asks for its fiber -/
theorem count_main_fiber : ¬ ∀ s, (process Unit).Reachable s → Right s := by
  intro h
  have hex : ((process Unit).exec Process.start [((), .GetThis, ⟨some 0, 0, 0⟩)]).map
      (fun s => (s.TotalFibers, s.living.card)) = some (0, 1) := by decide
  obtain ⟨s, hs, e⟩ := Option.map_eq_some_iff.mp hex
  obtain ⟨e1, e2⟩ := Prod.mk.inj e
  have htotal := (h s (.of_exec _ .init hs)).total
  rw [e1, e2] at htotal
  cases htotal

end
end Fibers
end CppCores
