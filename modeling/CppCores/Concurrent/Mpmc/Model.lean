import Mathlib.Data.List.Basic
import Mathlib.Logic.Function.Basic
import Mathlib.Tactic.Common
import CppCores.Lib.Machine

/-!
# MpmcLockFreeQueue: the queue of `concurrent/lockfree_queue.h` for many producers and consumers

Every access to `w_count_`, `r_count_` and a slot is one step, and the calls interleave in any way.
`P` are the calls to `push`, with their elements in `arg`, and `C` those to `pop`.  A call takes its
first load with it.  `compare_exchange_weak` may fail spuriously, and at any failure loads the counter.

`push` has no `return` after it has placed its element, so it goes on with the loop, and it loads
`push_count` twice, the second time as `pop_count`.  `pop` stores its new `pop_count` to `push_count`.

The counters are natural numbers: fewer than `2 ^ 64` tickets do not wrap them.  No step reads `log`.
-/

set_option linter.unusedSectionVars false

namespace CppCores
namespace Mpmc

inductive Event (P C T : Type*) where
  /-- `push` has won the ticket `k` of `w_count_` -/
  | ticket (p : P) (k : ℕ)
  /-- and has written its element to the slot -/
  | placed (p : P) (k : ℕ)
  /-- `pop` has won the ticket `k` of `r_count_` -/
  | taken (c : C) (k : ℕ)
  /-- and has read the slot -/
  | got (c : C) (k : ℕ) (element : T)

structure Slot (T : Type*) where
  val : T
  pop_count : ℕ
  push_count : ℕ

/-- the place of a call in `push` -/
inductive PushPc where
  | idle
  | loadPush (w_count : ℕ)
  | loadPop (w_count push_count : ℕ)
  /-- before the `compare_exchange_weak` -/
  | acquire (w_count push_count : ℕ)
  | write (w_count push_count : ℕ)
  | store (w_count push_count : ℕ)
  | reload
  | returned (answer : Bool)
  deriving DecidableEq, Repr

/-- the place of a call in `pop` -/
inductive PopPc (T : Type*) where
  | idle
  | loadPop (r_count : ℕ)
  | loadPush (r_count pop_count : ℕ)
  /-- before the `compare_exchange_weak` -/
  | acquire (r_count pop_count : ℕ)
  | read (r_count pop_count : ℕ)
  | store (r_count pop_count : ℕ) (element : T)
  | reload
  | returned (answer : Option T)
  deriving DecidableEq, Repr

structure State (P C T : Type*) where
  w_count : ℕ
  r_count : ℕ
  data : ℕ → Slot T
  pusher : P → PushPc
  popper : C → PopPc T
  log : List (Event P C T)

/-- a call begins, goes on, or fails spuriously at its `compare_exchange_weak` -/
inductive Act (P C : Type*) where
  | push (p : P)
  | pusher (p : P)
  | spuriousPush (p : P)
  | pop (c : C)
  | popper (c : C)
  | spuriousPop (c : C)

section
variable {P C T : Type*}

namespace State

def record (s : State P C T) (e : Event P C T) : State P C T := { s with log := s.log ++ [e] }

def setW (s : State P C T) (k : ℕ) : State P C T := { s with w_count := k }

def setR (s : State P C T) (k : ℕ) : State P C T := { s with r_count := k }

def setSlot (s : State P C T) (i : ℕ) (d : Slot T) : State P C T :=
  { s with data := Function.update s.data i d }

def setVal (s : State P C T) (i : ℕ) (v : T) : State P C T :=
  s.setSlot i { s.data i with val := v }

def setPush (s : State P C T) (i k : ℕ) : State P C T :=
  s.setSlot i { s.data i with push_count := k }

variable [DecidableEq P] [DecidableEq C]

def pusherAt (s : State P C T) (p : P) (pc : PushPc) : State P C T :=
  { s with pusher := Function.update s.pusher p pc }

def popperAt (s : State P C T) (c : C) (pc : PopPc T) : State P C T :=
  { s with popper := Function.update s.popper c pc }

end State

/-- what `push` does with the counts that it has loaded -/
def testPush (N w_count push_count pop_count : ℕ) : PushPc :=
  if pop_count < push_count then .returned false
  else if w_count / N = push_count then .acquire w_count push_count
  else .reload

/-- what `pop` does with the counts that it has loaded -/
def testPop (N r_count pop_count push_count : ℕ) : PopPc T :=
  if pop_count = push_count then .returned none
  else if r_count / N = pop_count then .acquire r_count pop_count
  else .reload

variable [DecidableEq P] [DecidableEq C]

def stepPusher (N : ℕ) (arg : P → T) (s : State P C T) (p : P) : Option (State P C T) :=
  match s.pusher p with
  | .idle => none
  | .loadPush w => some (s.pusherAt p (.loadPop w (s.data (w % N)).push_count))
  | .loadPop w push_count =>
    -- the source reads `push_count` here, not `pop_count`
    some (s.pusherAt p (testPush N w push_count (s.data (w % N)).push_count))
  | .acquire w push_count =>
    if s.w_count = w then
      some (((s.setW (w + 1)).record (.ticket p w)).pusherAt p (.write w push_count))
    else some (s.pusherAt p (.loadPush s.w_count))
  | .write w push_count =>
    some (((s.setVal (w % N) (arg p)).record (.placed p w)).pusherAt p (.store w push_count))
  | .store w push_count =>
    -- back to the head of the loop: there is no `return`
    some ((s.setPush (w % N) (push_count + 1)).pusherAt p (.loadPush w))
  | .reload => some (s.pusherAt p (.loadPush s.w_count))
  | .returned _ => none

def stepPopper (N : ℕ) (s : State P C T) (c : C) : Option (State P C T) :=
  match s.popper c with
  | .idle => none
  | .loadPop r => some (s.popperAt c (.loadPush r (s.data (r % N)).pop_count))
  | .loadPush r pop_count =>
    some (s.popperAt c (testPop N r pop_count (s.data (r % N)).push_count))
  | .acquire r pop_count =>
    if s.r_count = r then
      some (((s.setR (r + 1)).record (.taken c r)).popperAt c (.read r pop_count))
    else some (s.popperAt c (.loadPop s.r_count))
  | .read r pop_count =>
    let element := (s.data (r % N)).val
    some ((s.record (.got c r element)).popperAt c (.store r pop_count element))
  | .store r pop_count element =>
    some ((s.setPush (r % N) (pop_count + 1)).popperAt c (.returned (some element)))
  | .reload => some (s.popperAt c (.loadPop s.r_count))
  | .returned _ => none

def step (N : ℕ) (arg : P → T) (s : State P C T) : Act P C → Option (State P C T)
  | .push p =>
    if s.pusher p = .idle then some (s.pusherAt p (.loadPush s.w_count)) else none
  | .pusher p => stepPusher N arg s p
  | .spuriousPush p =>
    match s.pusher p with
    | .acquire _ _ => some (s.pusherAt p (.loadPush s.w_count))
    | _ => none
  | .pop c =>
    match s.popper c with
    | .idle => some (s.popperAt c (.loadPop s.r_count))
    | _ => none
  | .popper c => stepPopper N s c
  | .spuriousPop c =>
    match s.popper c with
    | .acquire _ _ => some (s.popperAt c (.loadPop s.r_count))
    | _ => none

/-- the new queue; `junk` is what the slots hold before they are written -/
def start (junk : ℕ → T) : State P C T where
  w_count := 0
  r_count := 0
  data := fun i => ⟨junk i, 0, 0⟩
  pusher := fun _ => .idle
  popper := fun _ => .idle
  log := []

def queue (N : ℕ) (arg : P → T) (junk : ℕ → T) : Machine (State P C T) (Act P C) :=
  ⟨start junk, step N arg⟩

end

/-! ## readings of the log -/

section
variable {P C T : Type*}

/-- the write tickets, in the order in which they were won -/
def tickets (log : List (Event P C T)) : List ℕ :=
  log.filterMap fun e => match e with
    | .ticket _ k => some k
    | .placed .. | .taken .. | .got .. => none

/-- the calls that won them -/
def winners (log : List (Event P C T)) : List P :=
  log.filterMap fun e => match e with
    | .ticket p _ => some p
    | .placed .. | .taken .. | .got .. => none

/-- the calls that have placed their element, once for each time -/
def placers (log : List (Event P C T)) : List P :=
  log.filterMap fun e => match e with
    | .placed p _ => some p
    | .ticket .. | .taken .. | .got .. => none

/-- the read tickets, in the order in which they were won -/
def readTickets (log : List (Event P C T)) : List ℕ :=
  log.filterMap fun e => match e with
    | .taken _ k => some k
    | .ticket .. | .placed .. | .got .. => none

/-- those whose slot has been read -/
def gotTickets (log : List (Event P C T)) : List ℕ :=
  log.filterMap fun e => match e with
    | .got _ k _ => some k
    | .ticket .. | .placed .. | .taken .. => none

/-- an element is placed after the one before it in the slot has been read -/
def Kept (N : ℕ) (log : List (Event P C T)) : Prop :=
  ∀ pre p k post, log = pre ++ .placed p k :: post → N ≤ k → k - N ∈ gotTickets pre

/-- what the users of the queue rely on -/
structure MpmcRun (N : ℕ) (arg : P → T) (s : State P C T) : Prop where
  once : (placers s.log).Nodup
  answered : ∀ p, s.pusher p = .returned true → p ∈ placers s.log
  popped : ∀ c v, s.popper c = .returned (some v) → ∃ k, .got c k v ∈ s.log
  /-- the pop with the read ticket `k` delivers the element of the push with the write ticket `k` -/
  delivered : ∀ c k v, .got c k v ∈ s.log →
    .taken c k ∈ s.log ∧ ∃ p, .ticket p k ∈ s.log ∧ .placed p k ∈ s.log ∧ v = arg p
  inOrder : tickets s.log = List.range s.w_count ∧ readTickets s.log = List.range s.r_count
  /-- no two pops deliver the element of one push -/
  distinct : ∀ p c c' k k' v v', .got c k v ∈ s.log → .got c' k' v' ∈ s.log →
    .ticket p k ∈ s.log → .ticket p k' ∈ s.log → c = c' ∧ k = k'
  kept : Kept N s.log

end
end Mpmc
end CppCores
