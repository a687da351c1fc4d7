import CppCores.Lib.Machine
import Mathlib.Logic.Equiv.Basic

/-!
# The uthread scheduler: `coroutine/uthread.h`

The body of a uthread is a list of steps and yields.  One context runs at a time: `control` is the
main context or uthread `id` with what is left of its body.  `swapcontext` saves what is left of the
context it is called in and goes on with another, so that `ctx` is what a suspended body has still to
do; the main context is free to make any call next, and what it does is the label of a step.
`uthread_create` and `uthread_resume` are called from the main context here; `Nested.lean` has the calls
from everywhere.

`threads` is a function: its indices stay below `MAX_UTHREAD_SIZE` as long as fewer uthreads are live
when another is created (`max_index_le`).
-/

namespace CppCores
namespace Uthread
variable {α : Type*}

def MAX_UTHREAD_SIZE : ℕ := 1024

inductive ThreadState where
  | FREE
  | RUNNABLE
  | RUNNING
  | SUSPEND
  deriving DecidableEq, Repr

/-- the code of a body -/
inductive Instr (α : Type*) where
  | step (a : α)
  | yield
  deriving DecidableEq, Repr

structure uthread_t (α : Type*) where
  ctx : List (Instr α)
  func : List (Instr α)
  state : ThreadState
  deriving DecidableEq, Repr

/-- the scheduler -/
structure schedule_t (α : Type*) where
  running_thread : ℤ
  max_index : ℕ
  threads : ℕ → uthread_t α

/-- the context that runs -/
inductive Control (α : Type*) where
  | main
  | uthread (id : ℕ) (rest : List (Instr α))
  deriving DecidableEq, Repr

/-- what is left of the context that runs -/
def Control.rest : Control α → List (Instr α)
  | .main => []
  | .uthread _ rest => rest

structure State (α : Type*) extends schedule_t α where
  control : Control α

/-- the constructor of `schedule_t`, in the main context -/
def start : State α where
  running_thread := -1
  max_index := 0
  threads := fun _ => ⟨[], [], .FREE⟩
  control := .main

namespace State

def setThread (s : State α) (id : ℕ) (t : uthread_t α) : State α :=
  { s with threads := Function.update s.threads id t }

@[simp] theorem setThread_self (s : State α) (id : ℕ) (t : uthread_t α) :
    (s.setThread id t).threads id = t := Function.update_self ..

@[simp] theorem setThread_of_ne (s : State α) {id i : ℕ} (h : i ≠ id) (t : uthread_t α) :
    (s.setThread id t).threads i = s.threads i := Function.update_of_ne h ..

end State

/-! ## the functions -/

/-- what `uthread_resume` asks before it switches -/
def Switches (s : State α) (id : ℤ) : Prop :=
  0 ≤ id ∧ id < s.max_index ∧ (s.threads id.toNat).state = .SUSPEND

instance (s : State α) (id : ℤ) : Decidable (Switches s id) :=
  inferInstanceAs (Decidable (_ ∧ _ ∧ _))

/-- `uthread_resume`; no field is written -/
def uthread_resume (s : State α) (id : ℤ) : State α :=
  if Switches s id then { s with control := .uthread id.toNat (s.threads id.toNat).ctx } else s

/-- `uthread_yield`, called in the context that runs -/
def uthread_yield (s : State α) : State α :=
  if s.running_thread ≠ -1 then
    let id := s.running_thread.toNat
    { s.setThread id { s.threads id with state := .SUSPEND, ctx := s.control.rest } with
      running_thread := -1
      control := .main }
  else s

/-- `uthread_body` up to the call of `func` -/
def uthread_body (s : State α) : State α :=
  if s.running_thread ≠ -1 then
    let id := s.running_thread.toNat
    { s with control := .uthread id (s.threads id).func }
  else { s with control := .main }

/-- `uthread_body` after the call; `uc_link` leads to the main context -/
def uthread_body_end (s : State α) (id : ℕ) : State α :=
  { s.setThread id { s.threads id with state := .FREE } with
    running_thread := -1
    control := .main }

/-- the `for` loop of `uthread_create` over the states, `n` indices from `id` on -/
def firstFree (state : ℕ → ThreadState) : ℕ → ℕ → ℕ
  | 0, id => id
  | n + 1, id => if state id = .FREE then id else firstFree state n (id + 1)

/-- the index that `uthread_create` selects and returns -/
def selected (s : State α) : ℕ := firstFree (fun id => (s.threads id).state) s.max_index 0

/-- `uthread_create` up to its `swapcontext` and into the body -/
def uthread_create (s : State α) (func : List (Instr α)) : State α :=
  let id := selected s
  uthread_body { s.setThread id { ctx := [], func := func, state := .RUNNABLE } with
    max_index := if id = s.max_index then s.max_index + 1 else s.max_index
    running_thread := id }

/-- `schedule_finished` -/
def schedule_finished (s : State α) : ℕ :=
  if s.running_thread ≠ -1 then 0
  else if (List.range s.max_index).all fun i => (s.threads i).state = .FREE then 1 else 0

/-! ## the runs -/

inductive Act (α : Type*) where
  | create (func : List (Instr α))
  | resume (id : ℤ)
  /-- the uthread in control takes its next instruction, or returns -/
  | run
  deriving DecidableEq, Repr

def step (s : State α) (a : Act α) : Option (State α) :=
  match s.control, a with
  | .main, .create func => some (uthread_create s func)
  | .main, .resume id => some (uthread_resume s id)
  | .uthread id [], .run => some (uthread_body_end s id)
  | .uthread id (.step _ :: rest), .run => some { s with control := .uthread id rest }
  | .uthread id (.yield :: rest), .run => some (uthread_yield { s with control := .uthread id rest })
  | _, _ => none

def machine (α : Type*) : Machine (State α) (Act α) := ⟨start, step⟩

/-- how many of the first `n` slots are taken -/
def busy (state : ℕ → ThreadState) (n : ℕ) : ℕ :=
  (List.range n).countP fun id => state id ≠ .FREE

/-- the uthreads that have not ended -/
def live (s : State α) : ℕ := busy (fun id => (s.threads id).state) s.max_index

/-- another uthread is created only while fewer than `MAX_UTHREAD_SIZE` are live -/
def Called (s : State α) : Act α → Prop
  | .create _ => live s < MAX_UTHREAD_SIZE
  | _ => True

instance (s : State α) (a : Act α) : Decidable (Called s a) := by
  cases a <;> unfold Called <;> infer_instance

/-! ## the index that is selected -/

section
variable {state : ℕ → ThreadState} {n : ℕ}

theorem firstFree_spec (state : ℕ → ThreadState) (n id : ℕ) :
    firstFree state n id ≤ id + n ∧
      (firstFree state n id < id + n → state (firstFree state n id) = .FREE) ∧
      ∀ i, id ≤ i → i < firstFree state n id → state i ≠ .FREE := by
  induction n generalizing id with
  | zero => exact ⟨Nat.le_refl _, fun h => absurd h (Nat.lt_irrefl _), fun i h1 h2 =>
      absurd h1 (Nat.not_le_of_lt h2)⟩
  | succ n ih =>
    rw [firstFree]
    split
    · rename_i hfree
      exact ⟨Nat.le_add_right _ _, fun _ => hfree, fun i h1 h2 => absurd h1 (Nat.not_le_of_lt h2)⟩
    · rename_i hne
      obtain ⟨hle, hfree, hbusy⟩ := ih (id + 1)
      refine ⟨by omega, fun h => hfree (by omega), fun i h1 h2 => ?_⟩
      obtain rfl | hlt := Nat.eq_or_lt_of_le h1
      · exact hne
      · exact hbusy i hlt h2

theorem firstFree_le (state : ℕ → ThreadState) (n : ℕ) : firstFree state n 0 ≤ n := by
  have := (firstFree_spec state n 0).1
  rwa [Nat.zero_add] at this

theorem firstFree_free (h : firstFree state n 0 < n) : state (firstFree state n 0) = .FREE :=
  (firstFree_spec state n 0).2.1 (by rwa [Nat.zero_add])

theorem busy_le (state : ℕ → ThreadState) (n : ℕ) : busy state n ≤ n := by
  have hle := List.countP_le_length (p := fun id => decide (state id ≠ .FREE)) (l := List.range n)
  rwa [List.length_range] at hle

theorem firstFree_eq_iff : firstFree state n 0 = n ↔ busy state n = n := by
  constructor
  · intro h
    have hall : ∀ id ∈ List.range n, decide (state id ≠ .FREE) = true := by
      intro id hid
      refine decide_eq_true ((firstFree_spec state n 0).2.2 id (Nat.zero_le _) ?_)
      exact Nat.lt_of_lt_of_eq (List.mem_range.mp hid) h.symm
    rw [busy, List.countP_eq_length.mpr hall, List.length_range]
  · intro h
    by_contra hne
    have hlt : firstFree state n 0 < n := Nat.lt_of_le_of_ne (firstFree_le state n) hne
    have hall := List.countP_eq_length.mp (h.trans List.length_range.symm)
    exact of_decide_eq_true (hall _ (List.mem_range.mpr hlt)) (firstFree_free hlt)

/-- **The index selected is one of the array**, if fewer uthreads are live. -/
theorem firstFree_lt {size : ℕ} (hn : n ≤ size) (hbusy : busy state n < size) :
    firstFree state n 0 < size := by
  obtain heq | hlt := Nat.eq_or_lt_of_le (firstFree_le state n)
  · rw [heq, ← firstFree_eq_iff.mp heq]
    exact hbusy
  · exact Nat.lt_of_lt_of_le hlt hn

end

theorem selected_le (s : State α) : selected s ≤ s.max_index := firstFree_le _ _

/-- **A uthread that has not ended keeps its index.** -/
theorem selected_free (s : State α) (h : selected s < s.max_index) :
    (s.threads (selected s)).state = .FREE := firstFree_free h

end Uthread
end CppCores
