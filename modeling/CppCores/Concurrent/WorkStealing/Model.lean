import Mathlib.Algebra.Group.Nat.Defs
import Mathlib.Logic.Function.Basic
import CppCores.Lib.Machine
import CppCores.Lib.Deque

/-!
# WorkStealingQueue: the queue of `concurrent/work_stealing_queue.h`

One owner thread runs `push` and `pop`, any number of other threads run `steal`.  Every load, store
and compare-exchange of `_top` and `_bottom` and every access to a slot of `_buffer` is one step;
a local variable of an operation is an argument of its program counter.  A call takes its first
load with it and a return its last access, so an operation that is in progress has a program
counter other than `idle`.  Counters are 64-bit words and wrap as `size_t` does.

Three fields are there for the statements only and no step reads them:

* `calls`   the number of `push` calls begun; it names the element that a call brings;
* `log`     what the operations did, each entered at the step at which it takes effect;
* `rets`    the same for the operations that have returned, entered when they return.

A `steal` that returns false changes nothing and is not logged ("permit false negative").
-/

namespace CppCores
namespace WorkStealing

/-- an element, named by the `push` call that brought it -/
structure Elem (T : Type*) where
  id : ℕ
  val : T
  deriving DecidableEq, Repr

/-- `init`: the new `_capacity` and the return code; `alloc` says if `new (std::nothrow)` gave
memory -/
def init (capacity_ capacity : UInt64) (alloc : Bool) : UInt64 × Int :=
  if capacity_ ≠ 0 then (capacity_, -1)
  else if capacity = 0 then (capacity_, -1)
  else if capacity &&& (capacity - 1) ≠ 0 then (capacity_, -1)
  else if alloc = false then (capacity_, -1)
  else (capacity, 0)

/-- the place of the owner in `push` or `pop` -/
inductive Owner (T : Type*) where
  | idle
  /-- `push`: `b` is loaded, `_top` comes next -/
  | pushTop (value : Elem T) (b : UInt64)
  | pushWrite (value : Elem T) (b : UInt64)
  | pushStore (value : Elem T) (b : UInt64)
  /-- `pop`: `b` is loaded, `_top` comes next -/
  | popTop (b : UInt64)
  | popDec (b : UInt64)
  /-- `b - 1` is stored, `_top` is loaded again -/
  | popTop2 (b : UInt64)
  | popRead (b t : UInt64)
  | popCas (b t : UInt64) (val : Elem T)
  /-- `b` is stored back, then `pop` returns `popped` -/
  | popRestore (b : UInt64) (popped : Option (Elem T))

/-- the place of a thief in `steal` -/
inductive Thief (T : Type*) where
  | idle
  /-- `t` is loaded, the `_bottom` of the first check comes next -/
  | bottom (t : UInt64)
  /-- at the head of the loop, before its load of `_bottom` -/
  | loop (t : UInt64)
  | read (t : UInt64)
  | cas (t : UInt64) (val : Elem T)

structure State (Tid T : Type*) where
  bottom : UInt64
  top : UInt64
  buffer : ℕ → Elem T
  owner : Owner T
  thief : Tid → Thief T
  calls : ℕ
  log : List (DequeOp (Elem T))
  rets : List (DequeOp (Elem T))

/-- who moves: the owner calls `push value` or `pop` or goes on, the thief `tid` calls `steal` or
goes on -/
inductive Act (Tid T : Type*) where
  | push (value : T)
  | pop
  | owner
  | steal (tid : Tid)
  | thief (tid : Tid)

variable {Tid T : Type*}

/-- the index `b & (_capacity - 1)` -/
def slot (cap b : UInt64) : ℕ := (b &&& (cap - 1)).toNat

namespace State

def storeBottom (s : State Tid T) (b : UInt64) : State Tid T := { s with bottom := b }

def setTop (s : State Tid T) (t : UInt64) : State Tid T := { s with top := t }

def writeSlot (s : State Tid T) (i : ℕ) (v : Elem T) : State Tid T :=
  { s with buffer := Function.update s.buffer i v }

/-- an operation takes effect -/
def effect (s : State Tid T) (op : DequeOp (Elem T)) : State Tid T := { s with log := s.log ++ [op] }

/-- the owner returns from an operation -/
def ret (s : State Tid T) (op : DequeOp (Elem T)) : State Tid T :=
  { s with rets := s.rets ++ [op], owner := .idle }

/-- a successful `steal` of `val` takes effect and returns in one step -/
def stolen (s : State Tid T) (val : Elem T) : State Tid T :=
  { s with log := s.log ++ [.popFront val], rets := s.rets ++ [.popFront val] }

def goto (s : State Tid T) (pc : Owner T) : State Tid T := { s with owner := pc }

def thiefGoto [DecidableEq Tid] (s : State Tid T) (tid : Tid) (pc : Thief T) : State Tid T :=
  { s with thief := Function.update s.thief tid pc }

end State

/-- what `pop` returned: `val` is written and true returned, or false -/
def popResult : Option (Elem T) → DequeOp (Elem T)
  | some v => .popBack v
  | none => .empty

/-- the next step of the owner inside `push` or `pop` -/
def stepOwner (cap : UInt64) (s : State Tid T) : Option (State Tid T) :=
  match s.owner with
  | .idle => none
  | .pushTop value b =>
    let t := s.top
    if b ≥ t + cap then some ((s.effect .full).ret .full)
    else some (s.goto (.pushWrite value b))
  | .pushWrite value b =>
    some ((s.writeSlot (slot cap b) value).goto (.pushStore value b))
  | .pushStore value b =>
    some (((s.storeBottom (b + 1)).effect (.pushBack value)).ret (.pushBack value))
  | .popTop b =>
    let t := s.top
    if t ≥ b then some ((s.effect .empty).ret .empty) else some (s.goto (.popDec b))
  | .popDec b => some ((s.storeBottom (b - 1)).goto (.popTop2 b))
  | .popTop2 b =>
    let newb := b - 1
    let t := s.top
    if t > newb then some ((s.effect .empty).goto (.popRestore b none))
    else some (s.goto (.popRead b t))
  | .popRead b t =>
    let newb := b - 1
    let val := s.buffer (slot cap newb)
    if t ≠ newb then some ((s.effect (.popBack val)).ret (.popBack val))
    else some (s.goto (.popCas b t val))
  | .popCas b t val =>
    if s.top = t then
      some (((s.setTop (t + 1)).effect (.popBack val)).goto (.popRestore b (some val)))
    else some ((s.effect .empty).goto (.popRestore b none))
  | .popRestore b popped => some ((s.storeBottom b).ret (popResult popped))

section
variable [DecidableEq Tid]

/-- the next step of the thief `tid` inside `steal` -/
def stepThief (cap : UInt64) (s : State Tid T) (tid : Tid) : Option (State Tid T) :=
  match s.thief tid with
  | .idle => none
  | .bottom t =>
    let b := s.bottom
    if t ≥ b then some (s.thiefGoto tid .idle) else some (s.thiefGoto tid (.loop t))
  | .loop t =>
    let b := s.bottom
    if t ≥ b then some (s.thiefGoto tid .idle) else some (s.thiefGoto tid (.read t))
  | .read t => some (s.thiefGoto tid (.cas t (s.buffer (slot cap t))))
  | .cas t val =>
    if s.top = t then some (((s.setTop (t + 1)).stolen val).thiefGoto tid .idle)
    else some (s.thiefGoto tid (.loop s.top))

def step (cap : UInt64) (s : State Tid T) : Act Tid T → Option (State Tid T)
  | .push value =>
    match s.owner with
    | .idle => some { s with owner := .pushTop ⟨s.calls, value⟩ s.bottom, calls := s.calls + 1 }
    | _ => none
  | .pop =>
    match s.owner with
    | .idle => some (s.goto (.popTop s.bottom))
    | _ => none
  | .owner => stepOwner cap s
  | .steal tid =>
    match s.thief tid with
    | .idle => some (s.thiefGoto tid (.bottom s.top))
    | _ => none
  | .thief tid => stepThief cap s tid

end

/-- the queue right after `init(cap)`; `junk` is what `new T[cap]` left in the slots -/
def start (junk : ℕ → Elem T) : State Tid T where
  bottom := 1
  top := 1
  buffer := junk
  owner := .idle
  thief := fun _ => .idle
  calls := 0
  log := []
  rets := []

def queue [DecidableEq Tid] (cap : UInt64) (junk : ℕ → Elem T) :
    Machine (State Tid T) (Act Tid T) := ⟨start junk, step cap⟩

/-! ## the capacity -/

theorem slot_eq (cap b : UInt64) (hc : cap.toNat.isPowerOfTwo) :
    slot cap b = b.toNat % cap.toNat := by
  obtain ⟨k, hk⟩ := hc
  have h1 : (1 : UInt64) ≤ cap := by
    rw [UInt64.le_iff_toNat_le, hk]
    exact Nat.one_le_two_pow
  rw [slot, UInt64.toNat_and, UInt64.toNat_sub_of_le _ _ h1, hk]
  exact Nat.and_two_pow_sub_one_eq_mod _ _

theorem init_ok (old cap : UInt64) (alloc : Bool) (h : (init old cap alloc).2 = 0) :
    old = 0 ∧ (init old cap alloc).1 = cap ∧ cap.toNat.isPowerOfTwo := by
  unfold init at h ⊢
  by_cases h0 : old ≠ 0
  · simp [h0] at h
  by_cases h1 : cap = 0
  · simp [h0, h1] at h
  by_cases h2 : cap &&& (cap - 1) ≠ 0
  · simp [h0, h1, h2] at h
  have h1' : (1 : UInt64) ≤ cap := by
    rw [UInt64.le_iff_toNat_le]
    exact Nat.one_le_iff_ne_zero.mpr fun e => h1 (UInt64.toNat_inj.mp e)
  have hz : cap.toNat &&& (cap.toNat - 1) = 0 := by
    have := congrArg UInt64.toNat (not_not.mp h2)
    rwa [UInt64.toNat_and, UInt64.toNat_sub_of_le _ _ h1'] at this
  refine ⟨not_not.mp h0, ?_, Nat.ne_zero_and_sub_one_eq_zero_iff_isPowerOfTwo.mp ⟨?_, hz⟩⟩
  · cases alloc
    · simp [h0, h1, h2] at h
    · simp [h0, h1, h2]
  · exact fun e => h1 (UInt64.toNat_inj.mp e)

end WorkStealing
end CppCores
