import CppCores.Coroutine.Uthread.Switching

/-!
# The uthread scheduler: calls from everywhere

A body may call `uthread_create` and `uthread_resume` as well.  Their `swapcontext` saves it in
`schedule.main`, over what was saved there, and from then on `schedule.main` need not be the main
context.  What a context does next is the label of a step, whichever context it is.

A `ucontext_t` can be gone on with once: then the functions that it was saved in go on and return, and
to go on with it again is undefined, as is what was never saved.  Such calls are no steps.

* `nested`        the runs with all calls from the main context, seen so;
* `exec_nested`   **they are runs of this machine.**
-/

namespace CppCores
namespace Uthread

/-- who runs: the main context or the body of a uthread -/
inductive Flow where
  | main
  | uthread (id : ℕ)
  deriving DecidableEq, Repr

/-- what a `ucontext_t` goes on with, if it can be gone on with -/
abbrev ucontext_t := Option Flow

namespace Nested

structure Thread where
  ctx : ucontext_t
  state : ThreadState
  deriving DecidableEq, Repr

/-- the scheduler and the context that runs -/
structure State where
  main : ucontext_t
  running_thread : ℤ
  max_index : ℕ
  threads : ℕ → Thread
  control : Flow

def start : State where
  main := none
  running_thread := -1
  max_index := 0
  threads := fun _ => ⟨none, .FREE⟩
  control := .main

def selected (s : State) : ℕ := firstFree (fun id => (s.threads id).state) s.max_index 0

/-! ## the functions -/

/-- `uthread_create` up to its `swapcontext(&main, &ctx)` and into the body -/
def uthread_create (s : State) : State where
  main := some s.control
  running_thread := selected s
  max_index := if selected s = s.max_index then s.max_index + 1 else s.max_index
  threads := Function.update s.threads (selected s) ⟨none, .RUNNABLE⟩
  control := .uthread (selected s)

/-- `uthread_resume`, with `swapcontext(&main, &ctx)` -/
def uthread_resume (s : State) (id : ℤ) : Option State :=
  if 0 ≤ id ∧ id < s.max_index ∧ (s.threads id.toNat).state = .SUSPEND then
    (s.threads id.toNat).ctx.map fun flow =>
      { s with
        main := some s.control
        threads := Function.update s.threads id.toNat ⟨none, .SUSPEND⟩
        control := flow }
  else some s

/-- `uthread_yield`, with `swapcontext(&ctx, &main)` -/
def uthread_yield (s : State) : Option State :=
  if s.running_thread ≠ -1 then
    s.main.map fun flow =>
      { s with
        main := none
        running_thread := -1
        threads := Function.update s.threads s.running_thread.toNat ⟨some s.control, .SUSPEND⟩
        control := flow }
  else some s

/-- `uthread_body` after the call of `func`; `uc_link` leads to `schedule.main` -/
def uthread_body_end (s : State) : Option State :=
  match s.control with
  | .main => none
  | .uthread id =>
    s.main.map fun flow =>
      { s with
        main := none
        running_thread := -1
        threads := Function.update s.threads id ⟨(s.threads id).ctx, .FREE⟩
        control := flow }

/-! ## the runs -/

inductive Act where
  | create
  | resume (id : ℤ)
  | yield
  /-- the body of the uthread in control returns -/
  | ended
  deriving DecidableEq, Repr

def step (s : State) : Act → Option State
  | .create => some (uthread_create s)
  | .resume id => uthread_resume s id
  | .yield => uthread_yield s
  | .ended => uthread_body_end s

def machine : Machine State Act := ⟨start, step⟩

/-- the uthreads that have not ended -/
def live (s : State) : ℕ := busy (fun id => (s.threads id).state) s.max_index

/-- another uthread is created only while fewer than `MAX_UTHREAD_SIZE` are live -/
def Called (s : State) : Act → Prop
  | .create => live s < MAX_UTHREAD_SIZE
  | _ => True

instance (s : State) (a : Act) : Decidable (Called s a) := by
  cases a <;> unfold Called <;> infer_instance

end Nested

/-! ## calls from the main context -/

section
variable {α : Type*} {s s' : State α}

def Control.flow : Control α → Flow
  | .main => .main
  | .uthread id _ => .uthread id

@[simp] theorem flow_main : (Control.main : Control α).flow = .main := rfl

@[simp] theorem flow_uthread (id : ℕ) (rest : List (Instr α)) :
    (Control.uthread id rest).flow = .uthread id := rfl

/-- a suspended uthread can be gone on with, unless it runs; the main context while a uthread does -/
def nested (s : State α) : Nested.State where
  main := if s.control.flow = .main then none else some .main
  running_thread := s.running_thread
  max_index := s.max_index
  threads := fun id =>
    ⟨if (s.threads id).state = .SUSPEND ∧ s.control.flow ≠ .uthread id then some (.uthread id)
      else none, (s.threads id).state⟩
  control := s.control.flow

/-- the calls in a step -/
def callsOf (s : State α) : Act α → List Nested.Act
  | .create _ => [.create]
  | .resume id => [.resume id]
  | .run => match s.control with
    | .uthread _ [] => [.ended]
    | .uthread _ (.yield :: _) => [.yield]
    | _ => []

theorem nested_eq {t : Nested.State} (hmain : t.main = (nested s).main)
    (hrun : t.running_thread = s.running_thread) (hmax : t.max_index = s.max_index)
    (hthreads : ∀ id, t.threads id = (nested s).threads id) (hc : t.control = s.control.flow) :
    t = nested s := by
  obtain ⟨main, running_thread, max_index, threads, control⟩ := t
  obtain rfl : threads = (nested s).threads := funext hthreads
  subst hmain hrun hmax hc
  rfl

theorem nested_create (hc : s.control = .main) (func : List (Instr α)) :
    Nested.uthread_create (nested s) = nested (uthread_create s func) := by
  rw [uthread_create_spec]
  have hflow : s.control.flow = .main := by rw [hc, flow_main]
  refine nested_eq (congrArg some hflow) rfl rfl (fun id => ?_) rfl
  show Function.update (nested s).threads (selected s) ⟨none, .RUNNABLE⟩ id = _
  by_cases hid : id = selected s
  · subst hid
    simp [nested]
  · simp [nested, Function.update_of_ne hid, State.setThread_of_ne _ hid, hflow, Ne.symm hid]

theorem nested_switch (hc : s.control = .main) {id : ℕ} (hid : id < s.max_index)
    (hsus : (s.threads id).state = .SUSPEND) :
    Nested.uthread_resume (nested s) id =
      some (nested { s with control := .uthread id (s.threads id).ctx }) := by
  have hflow : s.control.flow = .main := by rw [hc, flow_main]
  have hctx : ((nested s).threads id).ctx = some (.uthread id) := by
    simp [nested, hsus, hflow]
  rw [Nested.uthread_resume, if_pos ⟨Int.natCast_nonneg id, Int.ofNat_lt.mpr hid, hsus⟩,
    Int.toNat_natCast, hctx, Option.map_some]
  refine congrArg some (nested_eq (congrArg some hflow) rfl rfl (fun i => ?_) rfl)
  show Function.update (nested s).threads id ⟨none, .SUSPEND⟩ i = _
  by_cases hi : i = id
  · subst hi
    simp [nested, hsus]
  · simp [nested, Function.update_of_ne hi, hflow, Ne.symm hi]

/-- control goes back from the uthread `id`, which is left in another state -/
theorem nested_leave {id : ℕ} {rest : List (Instr α)} (hc : s.control = .uthread id rest)
    (t : uthread_t α) {ctx : ucontext_t}
    (hctx : ctx = if t.state = .SUSPEND then some (.uthread id) else none) :
    (nested s).main.map (fun flow => { nested s with
        main := none
        running_thread := -1
        threads := Function.update (nested s).threads id ⟨ctx, t.state⟩
        control := flow }) =
      some (nested { s.setThread id t with running_thread := -1, control := .main }) := by
  have hflow : s.control.flow = .uthread id := by rw [hc, flow_uthread]
  have hmain : (nested s).main = some .main := by simp [nested, hflow]
  rw [hmain, Option.map_some]
  refine congrArg some (nested_eq rfl rfl rfl (fun i => ?_) rfl)
  show Function.update (nested s).threads id ⟨ctx, t.state⟩ i = _
  by_cases hi : i = id
  · subst hi
    simp [nested, hctx]
  · simp [nested, Function.update_of_ne hi, State.setThread_of_ne _ hi, hflow, Ne.symm hi]

/-- **A step with all calls from the main context is a step of calls from everywhere.** -/
theorem nested_step {a : Act α} (h : Inv s) (hst : step s a = some s') :
    Nested.machine.exec (nested s) (callsOf s a) = some (nested s') := by
  cases step_cases hst with
  | create func hc => exact congrArg some (nested_create hc func)
  | switch id hc hid hsus =>
    exact congrArg (fun o => o.bind some) (nested_switch hc hid hsus)
  | ignored id hc hsw =>
    have hres : Nested.uthread_resume (nested s) id = some (nested s) := if_neg hsw
    exact congrArg (fun o => o.bind some) hres
  | ended id hc =>
    have hflow : s.control.flow = .uthread id := by rw [hc, flow_uthread]
    have hctx : ((nested s).threads id).ctx = none := by simp [nested, hflow]
    have hcalls : callsOf s .run = [.ended] := by simp only [callsOf, hc]
    have hend : Nested.uthread_body_end (nested s) = some (nested (uthread_body_end s id)) := by
      rw [Nested.uthread_body_end, show (nested s).control = .uthread id from hflow]
      exact nested_leave hc { s.threads id with state := .FREE } hctx
    rw [hcalls]
    exact congrArg (fun o => o.bind some) hend
  | stepped id a rest hc =>
    have hcalls : callsOf s .run = [] := by simp only [callsOf, hc]
    have hflow : s.control.flow = .uthread id := by rw [hc, flow_uthread]
    rw [hcalls]
    exact congrArg some (by simp only [nested, hflow]; rfl)
  | yielded id rest hc =>
    have hcalls : callsOf s .run = [.yield] := by simp only [callsOf, hc]
    have hflow : s.control.flow = .uthread id := by rw [hc, flow_uthread]
    have hyield : Nested.uthread_yield (nested s) =
        some (nested (uthread_yield { s with control := .uthread id rest })) := by
      rcases uthread_yield_spec h hc with ⟨hr, he⟩ | ⟨hr, he⟩
      · have hr : (nested s).running_thread = id := hr
        have hne : (nested s).running_thread ≠ -1 := by omega
        rw [he, Nested.uthread_yield, if_pos hne, show (nested s).control = .uthread id from hflow, hr,
          Int.toNat_natCast]
        exact nested_leave hc { s.threads id with state := .SUSPEND, ctx := rest } rfl
      · have hr : (nested s).running_thread = -1 := hr
        rw [he, Nested.uthread_yield, if_neg (not_not.mpr hr)]
        exact congrArg some (by simp only [nested, hflow]; rfl)
    rw [hcalls]
    exact congrArg (fun o => o.bind some) hyield

/-- **A run with all calls from the main context is a run of calls from everywhere.** -/
theorem exec_nested (acts : List (Act α)) (h : Inv s) (he : (machine α).exec s acts = some s') :
    ∃ calls, Nested.machine.exec (nested s) calls = some (nested s') := by
  induction acts generalizing s with
  | nil => exact ⟨[], congrArg (fun s => some (nested s)) (Option.some.inj he)⟩
  | cons a acts ih =>
    obtain ⟨s1, h1, h2⟩ := Option.bind_eq_some_iff.mp he
    obtain ⟨calls, hcalls⟩ := ih (inv_step h h1) h2
    refine ⟨callsOf s a ++ calls, ?_⟩
    rw [Machine.exec_append, nested_step h h1]
    exact hcalls

end
end Uthread
end CppCores
