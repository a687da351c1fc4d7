import CppCores.Lib.Machine
import Mathlib.Algebra.Group.Nat.Defs
import Mathlib.Data.Int.Notation

/-!
# Fibers: `fiber/fibers.cc`

One thread with its fibers.  A fiber is known by its address; addresses are given out in order and are
not used again.  A context is where the thread goes on when it is switched to: its own code, the entry
function of a fiber, or a callback that called `back`.  `swapcontext` saves the context that runs and
goes on with another.

A callback is what it does with fibers: it calls `back` on the fiber it runs in, and at last returns or
throws.  A `FIBER_ASSERT` that fails ends the program (`assert` in a debug build), so a run ends in
`Except.error`.  `Sys` is what the system calls answer.
-/

namespace CppCores
namespace Fibers

/-- the flag `fiber_stack_size` -/
def FLAGS_fiber_stack_size : ℕ := 128 * 1024

inductive State where
  | INIT
  | HOLD
  | EXEC
  | TERM
  | READY
  | EXCEPT
  deriving DecidableEq, Repr

inductive Callback where
  | returns
  /-- an exception that is a `std::exception` -/
  | throws_exception
  /-- any other -/
  | throws_other
  | back (rest : Callback)
  deriving DecidableEq, Repr

/-- the two entry functions -/
inductive Entry where
  | MainFunc
  | CallerMainFunc
  deriving DecidableEq, Repr

inductive Context where
  /-- the code of the thread -/
  | main
  | entry (e : Entry)
  /-- in the callback called in `e`, whose local `cur` is a fiber -/
  | callback (e : Entry) (cur : ℕ) (rest : Callback)
  deriving DecidableEq, Repr

structure Fiber where
  m_id : ℕ := 0
  m_stacksize : ℕ := 0
  m_state : State := .INIT
  m_ctx : Context
  /-- `none` is the null pointer -/
  m_stack : Option ℕ := none
  /-- `none` is the empty function -/
  m_cb : Option Callback := none
  deriving DecidableEq, Repr

structure Thread where
  s_fiber_id : ℕ
  s_fiber_count : ℕ
  t_fiber : Option ℕ
  t_threadFiber : Option ℕ
  fibers : ℕ → Option Fiber
  /-- the addresses given out are those below -/
  allocated : ℕ
  /-- the context that runs -/
  control : Context

def start : Thread where
  s_fiber_id := 0
  s_fiber_count := 0
  t_fiber := none
  t_threadFiber := none
  fibers := fun _ => none
  allocated := 0
  control := .main

/-- a `FIBER_ASSERT(x)` or `FIBER_ASSERT_MSG(x, w)` that failed -/
structure Assertion where
  x : String
  w : String
  deriving DecidableEq, Repr

/-- what the system calls answer -/
structure Sys where
  malloc : Option ℕ
  getcontext : ℤ
  swapcontext : ℤ
  deriving DecidableEq, Repr

namespace Thread

def put (t : Thread) (p : ℕ) (f : Option Fiber) : Thread :=
  { t with fibers := Function.update t.fibers p f }

@[simp] theorem put_self (t : Thread) (p : ℕ) (f : Option Fiber) : (t.put p f).fibers p = f :=
  Function.update_self ..

@[simp] theorem put_of_ne (t : Thread) {p q : ℕ} (h : q ≠ p) (f : Option Fiber) :
    (t.put p f).fibers q = t.fibers q := Function.update_of_ne h ..

end Thread

/-! ## the functions -/

/-- `fetch_add(1)` of a `std::atomic<uint64_t>` -/
def fetch_add (n : ℕ) : ℕ := (n + 1) % 2 ^ 64

/-- `fetch_sub(1)` -/
def fetch_sub (n : ℕ) : ℕ := (n + (2 ^ 64 - 1)) % 2 ^ 64

/-- `fetch_and(1)` -/
def fetch_and (n : ℕ) : ℕ := n &&& 1

/-- `FIBER_ASSERT_MSG(x, w)` before `t` -/
def FIBER_ASSERT_MSG (p : Prop) [Decidable p] (x w : String) (t : Except Assertion Thread) :
    Except Assertion Thread :=
  if p then t else .error ⟨x, w⟩

def FIBER_ASSERT (p : Prop) [Decidable p] (x : String) (t : Except Assertion Thread) :
    Except Assertion Thread :=
  FIBER_ASSERT_MSG p x "" t

@[simp] theorem FIBER_ASSERT_MSG_of {p : Prop} [Decidable p] (h : p) (x w : String)
    (t : Except Assertion Thread) : FIBER_ASSERT_MSG p x w t = t := if_pos h

@[simp] theorem FIBER_ASSERT_of {p : Prop} [Decidable p] (h : p) (x : String)
    (t : Except Assertion Thread) : FIBER_ASSERT p x t = t := if_pos h

@[simp] theorem FIBER_ASSERT_of_not {p : Prop} [Decidable p] (h : ¬ p) (x : String)
    (t : Except Assertion Thread) : FIBER_ASSERT p x t = .error ⟨x, ""⟩ := if_neg h

/-- `Fiber::Fiber()`: the fiber of the thread itself -/
def Fiber_main (sys : Sys) (t : Thread) : Except Assertion Thread :=
  FIBER_ASSERT_MSG (sys.getcontext = 0) "false" "getcontext" <|
  .ok { t.put t.allocated (some { m_state := .EXEC, m_ctx := t.control }) with
    t_fiber := some t.allocated
    allocated := t.allocated + 1
    s_fiber_count := fetch_and t.s_fiber_count }

/-- `Fiber::Fiber(cb, stack_size, use_caller)`; `stack_size` is not read -/
def Fiber_worker (sys : Sys) (t : Thread) (cb : Option Callback) (use_caller : Bool) :
    Except Assertion Thread :=
  let m_id := fetch_add t.s_fiber_id
  FIBER_ASSERT_MSG (sys.malloc ≠ none) "false" ("Allocate memory failed, id: " ++ toString m_id) <|
  FIBER_ASSERT_MSG (sys.getcontext = 0) "false" "getcontext" <|
  .ok { t.put t.allocated (some {
      m_id := m_id
      m_stacksize := FLAGS_fiber_stack_size % 2 ^ 32
      m_ctx := .entry (if use_caller then .CallerMainFunc else .MainFunc)
      m_stack := sys.malloc
      m_cb := cb }) with
    allocated := t.allocated + 1
    s_fiber_id := m_id
    s_fiber_count := fetch_add t.s_fiber_count }

/-- `GetThis`; what it returns is `t_fiber` -/
def GetThis (sys : Sys) (t : Thread) : Except Assertion Thread :=
  if t.t_fiber = none then
    (Fiber_main sys t).map fun t => { t with t_threadFiber := t.t_fiber }
  else .ok t

/-- `~Fiber` of the fiber `f` at `p` -/
def destructor (t : Thread) (p : ℕ) (f : Fiber) : Except Assertion Thread :=
  let t := { t with s_fiber_count := fetch_sub t.s_fiber_count }
  if f.m_stack ≠ none then
    FIBER_ASSERT (f.m_state = .TERM ∨ f.m_state = .EXCEPT ∨ f.m_state = .INIT)
      "m_state == TERM || m_state == EXCEPT || m_state == INIT" <|
    .ok (t.put p none)
  else
    FIBER_ASSERT (f.m_cb ≠ none) "m_cb != nullptr" <|
    FIBER_ASSERT (f.m_state = .EXEC) "m_state == EXEC" <|
    .ok ({ t with t_fiber := if t.t_fiber = some p then none else t.t_fiber }.put p none)

def reset (sys : Sys) (t : Thread) (p : ℕ) (f : Fiber) (cb : Option Callback) :
    Except Assertion Thread :=
  FIBER_ASSERT (f.m_stack ≠ none) "m_stack != nullptr" <|
  FIBER_ASSERT (f.m_state = .TERM ∨ f.m_state = .INIT ∨ f.m_state = .EXCEPT)
    "m_state == TERM || m_state == INIT || m_state == EXCEPT" <|
  FIBER_ASSERT_MSG (sys.getcontext = 0) "false" "getcontext" <|
  .ok (t.put p (some { f with m_cb := cb, m_ctx := .entry .MainFunc, m_state := .INIT }))

/-- `swapcontext(&oucp->m_ctx, &ucp->m_ctx)`, and the assertion on what it answers -/
def swapcontext (sys : Sys) (t : Thread) (oucp ucp : ℕ) : Option (Except Assertion Thread) :=
  match t.fibers oucp, t.fibers ucp with
  | some f, some g => some <|
    FIBER_ASSERT_MSG (sys.swapcontext = 0) "false" "swapcontext" <|
    .ok { t.put oucp (some { f with m_ctx := t.control }) with
      control := if ucp = oucp then t.control else g.m_ctx }
  | _, _ => none

/-- `call` of the fiber `f` at `p` -/
def call (sys : Sys) (t : Thread) (p : ℕ) (f : Fiber) : Option (Except Assertion Thread) :=
  t.t_threadFiber.bind fun m =>
    swapcontext sys { t.put p (some { f with m_state := .EXEC }) with t_fiber := some p } m p

/-- `back` of the fiber at `p` -/
def back (sys : Sys) (t : Thread) (p : ℕ) : Option (Except Assertion Thread) :=
  t.t_threadFiber.bind fun m => swapcontext sys { t with t_fiber := some m } p m

def swapOut (t : Thread) : Thread := t

/-- an entry function up to the call of `m_cb`; to call the empty function throws
`std::bad_function_call` -/
def enter (e : Entry) (sys : Sys) (t : Thread) : Option (Except Assertion Thread) :=
  match GetThis sys t with
  | .error a => some (.error a)
  | .ok t =>
    match t.t_fiber with
    | none => some (.error ⟨"cur != nullptr", ""⟩)
    | some cur => (t.fibers cur).map fun f =>
      .ok { t with control := .callback e cur (f.m_cb.getD .throws_exception) }

def MainFunc : Sys → Thread → Option (Except Assertion Thread) := enter .MainFunc

def CallerMainFunc : Sys → Thread → Option (Except Assertion Thread) := enter .CallerMainFunc

/-- either of them after the call of `m_cb`, which returned or threw -/
def leave (t : Thread) (cur : ℕ) (returned : Bool) : Option (Except Assertion Thread) :=
  (t.fibers cur).map fun f =>
    let f' := if returned then { f with m_cb := none, m_state := .TERM }
      else { f with m_state := .EXCEPT }
    let t' := swapOut (t.put cur (some f'))
    FIBER_ASSERT_MSG False "false" ("never reach fiber_id=" ++ toString f.m_id) (.ok t')

/-! ## the runs -/

inductive Act where
  | GetThis
  | create (cb : Option Callback) (use_caller : Bool)
  | call (p : ℕ)
  | reset (p : ℕ) (cb : Option Callback)
  /-- the last pointer to the fiber is released -/
  | destroy (p : ℕ)
  /-- the fiber that runs goes on -/
  | run
  deriving DecidableEq, Repr

/-- the context that runs is that of a fiber -/
def runFiber (sys : Sys) (t : Thread) : Context → Option (Except Assertion Thread)
  | .main => none
  | .entry .MainFunc => MainFunc sys t
  | .entry .CallerMainFunc => CallerMainFunc sys t
  | .callback e cur (.back rest) =>
    t.t_fiber.bind fun p => back sys { t with control := .callback e cur rest } p
  | .callback _ cur .returns => leave t cur true
  | .callback _ cur .throws_exception => leave t cur false
  | .callback _ cur .throws_other => leave t cur false

/-- the code of the thread runs -/
def runMain (sys : Sys) (t : Thread) : Act → Option (Except Assertion Thread)
  | .GetThis => some (GetThis sys t)
  | .create cb use_caller => some (Fiber_worker sys t cb use_caller)
  | .call p => (t.fibers p).bind fun f => call sys t p f
  | .reset p cb => (t.fibers p).map fun f => reset sys t p f cb
  | .destroy p => (t.fibers p).map fun f => destructor t p f
  | .run => none

def step : Except Assertion Thread → Act × Sys → Option (Except Assertion Thread)
  | .error _, _ => none
  | .ok t, (a, sys) =>
    if t.control = .main then runMain sys t a
    else if a = .run then runFiber sys t t.control else none

def machine : Machine (Except Assertion Thread) (Act × Sys) := ⟨.ok start, step⟩

/-- the fiber at `p` is a worker fiber in a state `P`, and the thread has its main fiber -/
def Worker (t : Thread) (p : ℕ) (P : State → Bool) : Prop :=
  t.t_threadFiber ≠ none ∧ t.t_threadFiber ≠ some p ∧ (t.fibers p).any (fun f => P f.m_state) = true

instance (t : Thread) (p : ℕ) (P : State → Bool) : Decidable (Worker t p P) :=
  inferInstanceAs (Decidable (_ ∧ _ ∧ _))

/-- the states that `reset` and the destructor of a worker fiber allow -/
def settled : State → Bool
  | .INIT | .TERM | .EXCEPT => true
  | _ => false

theorem settled_iff {st : State} :
    settled st = true ↔ st = .INIT ∨ st = .TERM ∨ st = .EXCEPT := by
  cases st <;> simp [settled]

/-- worker fibers are entered and reset and, in `INIT`, `TERM` or `EXCEPT`, destroyed; the main fiber is
destroyed after them -/
def Called (t : Thread) : Act → Prop
  | .GetThis => True
  | .create _ _ => t.t_threadFiber ≠ none
  | .call p => Worker t p fun _ => true
  | .reset p _ => Worker t p settled
  | .destroy p => Worker t p settled ∨
      t.t_threadFiber = some p ∧ ∀ q < t.allocated, q ≠ p → t.fibers q = none
  | .run => True

instance (t : Thread) : (a : Act) → Decidable (Called t a)
  | .GetThis => .isTrue trivial
  | .create _ _ => (instDecidableNot : Decidable (¬ t.t_threadFiber = none))
  | .call p => inferInstanceAs (Decidable (Worker t p fun _ => true))
  | .reset p _ => inferInstanceAs (Decidable (Worker t p settled))
  | .destroy p => inferInstanceAs (Decidable (Worker t p settled ∨
      t.t_threadFiber = some p ∧ ∀ q < t.allocated, q ≠ p → t.fibers q = none))
  | .run => .isTrue trivial

/-- the system calls succeed -/
def Sys.Succeeds (sys : Sys) : Prop :=
  sys.malloc ≠ none ∧ sys.getcontext = 0 ∧ sys.swapcontext = 0

instance (sys : Sys) : Decidable sys.Succeeds := inferInstanceAs (Decidable (_ ∧ _ ∧ _))

/-- the calls are those of `Called`, and the system calls succeed -/
def Allowed : Except Assertion Thread → Act × Sys → Prop
  | .error _, _ => False
  | .ok t, l => Called t l.1 ∧ l.2.Succeeds

instance : (s : Except Assertion Thread) → (l : Act × Sys) → Decidable (Allowed s l)
  | .error _, _ => .isFalse id
  | .ok t, l => inferInstanceAs (Decidable (Called t l.1 ∧ l.2.Succeeds))

/-- the assertion that has failed -/
def failed : Except Assertion Thread → Option Assertion
  | .error x => some x
  | .ok _ => none

end Fibers
end CppCores
