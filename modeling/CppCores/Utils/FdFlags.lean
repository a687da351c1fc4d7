import CppCores.Lib.Machine
import CppCores.Lib.Masks

/-!
# File status flags: `make_non_blocking` and `make_blocking` of `utils/fd_utils.h`

The flags belong to the open file description, which threads and processes share: each function reads
them by one `fcntl` and writes them by another one.  The system has any number of threads that call the
two functions on one description, and others that write its flags in one step.  Each `fcntl` may fail.
`log` has, in their order, the calls that have returned 0 and what the others wrote; no step reads it.

* `next_spec`      what a call does with the flags that it has read;
* `step_moves`     what a step does;
* `flags_reach`    **no two calls disturb each other: as long as nobody else writes between the two
                   `fcntl` of a call, the flags are those of the calls made one after the other, in the
                   order of their returns.**  A write in between is taken back.
-/

namespace CppCores
namespace FdFlags
open Machine Masks

/-! ## the code -/

/-- the flags that `F_SETFL` writes: `O_APPEND`, `O_NONBLOCK`, `O_ASYNC`, `O_DIRECT` and `O_NOATIME` -/
def SETFL_MASK : BitVec 32 := 0o1066000

def O_NONBLOCK : BitVec 32 := 0o4000

def O_APPEND : BitVec 32 := 0o2000

/-- the flags of an open file description, which `F_GETFL` answers: not negative as an `int` -/
structure Status where
  flags : BitVec 32
  nonneg : flags.msb = false
  deriving DecidableEq, Repr

/-- `F_SETFL` ignores the other bits of `arg` -/
def Status.setfl (s : Status) (arg : BitVec 32) : Status where
  flags := merge SETFL_MASK s.flags arg
  nonneg := by
    have hmask : SETFL_MASK.msb = false := by decide
    rw [msb_merge, s.nonneg, hmask, Bool.false_and, Bool.and_false, Bool.or_false]

/-- what a function does once `F_GETFL` has answered -/
inductive Next where
  | ret (result : BitVec 32)
  | setfl (arg : BitVec 32)
  deriving DecidableEq, Repr

def make_non_blocking (flag : BitVec 32) : Next :=
  if flag.slt 0 then .ret flag
  else if flag &&& O_NONBLOCK ≠ 0 then .ret 0
  else .setfl (flag ||| O_NONBLOCK)

def make_blocking (flags : BitVec 32) : Next :=
  if flags.slt 0 then .ret flags
  else if flags &&& O_NONBLOCK ≠ 0 then .setfl (flags &&& ~~~O_NONBLOCK)
  else .ret 0

inductive Call where
  | make_non_blocking
  | make_blocking
  deriving DecidableEq, Repr

def Call.next : Call → BitVec 32 → Next
  | .make_non_blocking => FdFlags.make_non_blocking
  | .make_blocking => FdFlags.make_blocking

/-! ## the system -/

inductive Pc where
  | idle
  | getfl (c : Call)
  | setfl (c : Call) (arg : BitVec 32)
  | returned (c : Call) (result : BitVec 32)
  deriving DecidableEq, Repr

def Pc.busy : Pc → Bool
  | .getfl _ => true
  | .setfl _ _ => true
  | .idle => false
  | .returned _ _ => false

/-- what changes the flags at one point of time -/
inductive Effect where
  | call (c : Call)
  | other (arg : BitVec 32)
  deriving DecidableEq, Repr

structure State (Tid : Type*) where
  status : Status
  pc : Tid → Pc
  log : List Effect

section
variable {Tid : Type*} [DecidableEq Tid]

def State.goto (s : State Tid) (t : Tid) (p : Pc) : State Tid :=
  { s with pc := Function.update s.pc t p }

/-- a call returns; it has taken effect if that is 0 -/
def State.ret (s : State Tid) (t : Tid) (c : Call) (result : BitVec 32) : State Tid :=
  { s.goto t (.returned c result) with log := if result = 0 then s.log ++ [.call c] else s.log }

/-- the call goes on with the answer of `F_GETFL` -/
def State.resume (s : State Tid) (t : Tid) (c : Call) : Next → State Tid
  | .ret result => s.ret t c result
  | .setfl arg => s.goto t (.setfl c arg)

inductive Act (Tid : Type*) where
  | call (t : Tid) (c : Call)
  | getfl (t : Tid) (fails : Bool)
  | setfl (t : Tid) (fails : Bool)
  | other (arg : BitVec 32)
  deriving DecidableEq, Repr

/-- the functions return what the last `fcntl` does, which is 0 or -1 for `F_SETFL` -/
def step (s : State Tid) : Act Tid → Option (State Tid)
  | .call t c => if (s.pc t).busy then none else some (s.goto t (.getfl c))
  | .getfl t fails =>
    match s.pc t with
    | .getfl c => some (s.resume t c (c.next (if fails then -1 else s.status.flags)))
    | _ => none
  | .setfl t fails =>
    match s.pc t with
    | .setfl c arg =>
      some (if fails then s.ret t c (-1) else { s with status := s.status.setfl arg }.ret t c 0)
    | _ => none
  | .other arg => some { s with status := s.status.setfl arg, log := s.log ++ [.other arg] }

def machine (status : Status) : Machine (State Tid) (Act Tid) :=
  ⟨⟨status, fun _ => .idle, []⟩, step⟩

end

/-! ## one call after the other -/

/-- the flags that a call makes in one step -/
def Call.set : Call → BitVec 32 → BitVec 32
  | .make_non_blocking, flags => flags ||| O_NONBLOCK
  | .make_blocking, flags => flags &&& ~~~O_NONBLOCK

def Effect.apply (flags : BitVec 32) : Effect → BitVec 32
  | .call c => c.set flags
  | .other arg => merge SETFL_MASK flags arg

def serial (flags : BitVec 32) (log : List Effect) : BitVec 32 := log.foldl Effect.apply flags

/-- the flags that the two functions leave alone -/
def others (flags : BitVec 32) : BitVec 32 := flags &&& ~~~O_NONBLOCK

/-- those of them that `F_SETFL` writes -/
def written (flags : BitVec 32) : BitVec 32 := flags &&& (SETFL_MASK &&& ~~~O_NONBLOCK)

theorem Call.set_eq (c : Call) : ∃ v, ∀ flags, c.set flags = merge O_NONBLOCK flags v := by
  cases c with
  | make_non_blocking => exact ⟨_, or_eq_merge O_NONBLOCK⟩
  | make_blocking => exact ⟨_, and_not_eq_merge O_NONBLOCK⟩

theorem others_set (c : Call) (flags : BitVec 32) : others (c.set flags) = others flags := by
  obtain ⟨v, hv⟩ := c.set_eq
  rw [hv, others, merge_and_not, others]

theorem mask_narrow : O_NONBLOCK &&& SETFL_MASK = O_NONBLOCK := by decide

/-- whatever the flags are when a call writes, `O_NONBLOCK` is as it wants it -/
theorem set_merge (c : Call) (flags old : BitVec 32) :
    c.set (merge SETFL_MASK flags (c.set old)) = merge SETFL_MASK flags (c.set old) := by
  obtain ⟨v, hv⟩ := c.set_eq
  rw [hv, hv]
  exact merge_merge_narrow mask_narrow flags old v

theorem written_of_others {a b : BitVec 32} (h : others a = others b) : written a = written b := by
  have hand : ∀ x : BitVec 32, written x = others x &&& SETFL_MASK := by
    intro x
    rw [written, others, BitVec.and_assoc, BitVec.and_comm SETFL_MASK]
  rw [hand, hand, h]

/-- the write of a call does what the call is for iff the other flags are as it has read them -/
theorem merge_set_iff (c : Call) (flags old : BitVec 32) :
    merge SETFL_MASK flags (c.set old) = c.set flags ↔ written (c.set old) = written flags := by
  obtain ⟨v, hv⟩ := c.set_eq
  rw [written_of_others (others_set c old), hv, hv]
  exact merge_narrow_iff mask_narrow flags old v

theorem serial_append (flags : BitVec 32) (log : List Effect) (e : Effect) :
    serial flags (log ++ [e]) = e.apply (serial flags log) := by
  rw [serial, List.foldl_append]
  rfl

/-! ## what a call does -/

theorem next_fails (c : Call) : c.next (-1) = .ret (-1) := by
  cases c <;> decide

/-- **What a call does with the flags.**  It returns 0 where they are as it wants them. -/
theorem next_spec (c : Call) (s : Status) :
    (c.next s.flags = .ret 0 ∧ c.set s.flags = s.flags) ∨
      c.next s.flags = .setfl (c.set s.flags) := by
  have hneg : ¬ s.flags.slt 0 = true := by
    have hmsb := BitVec.slt_zero_eq_msb (x := s.flags)
    rw [s.nonneg] at hmsb
    exact fun h => Bool.false_ne_true (hmsb.symm.trans h)
  have hone : O_NONBLOCK = BitVec.twoPow 32 11 := by decide
  cases c with
  | make_non_blocking =>
    show (make_non_blocking s.flags = _ ∧ _) ∨ make_non_blocking s.flags = _
    rw [make_non_blocking, if_neg hneg]
    split
    · rename_i hset
      refine .inl ⟨rfl, ?_⟩
      rw [hone] at hset
      show s.flags ||| O_NONBLOCK = s.flags
      rw [hone]
      exact (and_twoPow_cases s.flags 11).resolve_left hset
    · exact .inr rfl
  | make_blocking =>
    show (make_blocking s.flags = _ ∧ _) ∨ make_blocking s.flags = _
    rw [make_blocking, if_neg hneg]
    split
    · exact .inr rfl
    · rename_i hclear
      exact .inl ⟨rfl, and_not_of_and (Decidable.not_not.mp hclear)⟩

/-! ## what a step does -/

section
variable {Tid : Type*} [DecidableEq Tid] {status : Status} {s s' : State Tid}

/-- **What a step does**, by what the calls are at. -/
inductive Moves (s : State Tid) : Act Tid → State Tid → Prop where
  | call (t : Tid) (c : Call) : Moves s (.call t c) (s.goto t (.getfl c))
  | fails (t : Tid) (c : Call) (a : Act Tid) : Moves s a (s.ret t c (-1))
  | isSet (t : Tid) (c : Call) (h : c.set s.status.flags = s.status.flags) :
    Moves s (.getfl t false) (s.ret t c 0)
  | reads (t : Tid) (c : Call) : Moves s (.getfl t false) (s.goto t (.setfl c (c.set s.status.flags)))
  | writes (t : Tid) (c : Call) (arg : BitVec 32) (h : s.pc t = .setfl c arg) :
    Moves s (.setfl t false) ({ s with status := s.status.setfl arg }.ret t c 0)
  | other (arg : BitVec 32) :
    Moves s (.other arg) { s with status := s.status.setfl arg, log := s.log ++ [.other arg] }

theorem step_moves {a : Act Tid} (h : step s a = some s') : Moves s a s' := by
  cases a with
  | call t c =>
    rw [step] at h
    split at h
    · cases h
    · cases h
      exact .call t c
  | getfl t fails =>
    rw [step] at h
    split at h
    · rename_i c _
      cases h
      cases fails with
      | true =>
        show Moves s _ (s.resume t c (c.next (-1)))
        rw [next_fails]
        exact .fails t c _
      | false =>
        show Moves s _ (s.resume t c (c.next s.status.flags))
        rcases next_spec c s.status with ⟨hnext, hset⟩ | hnext
        · rw [hnext]
          exact .isSet t c hset
        · rw [hnext]
          exact .reads t c
    · cases h
  | setfl t fails =>
    rw [step] at h
    split at h
    · rename_i c arg hpc
      cases h
      cases fails with
      | true => exact .fails t c _
      | false => exact .writes t c arg hpc
    · cases h
  | other arg =>
    cases h
    exact .other arg

/-- what is known of a call, whatever the others do -/
def Pc.Ok : Pc → Prop
  | .setfl c arg => ∃ old, arg = c.set old
  | .returned _ result => result = 0 ∨ result = -1
  | .idle => True
  | .getfl _ => True

/-- a call that has read the flags `o`, but for `O_NONBLOCK` -/
def Pc.Agrees (o : BitVec 32) : Pc → Prop
  | .setfl _ arg => others arg = o
  | .returned _ _ => True
  | .idle => True
  | .getfl _ => True

/-- a call that has read the flags as they are now, but for `O_NONBLOCK` -/
def Pc.UpToDate (flags : BitVec 32) : Pc → Prop
  | .setfl _ arg => written arg = written flags
  | .returned _ _ => True
  | .idle => True
  | .getfl _ => True

instance (flags : BitVec 32) : (p : Pc) → Decidable (p.UpToDate flags)
  | .setfl _ arg => inferInstanceAs (Decidable (written arg = written flags))
  | .returned _ _ => isTrue trivial
  | .idle => isTrue trivial
  | .getfl _ => isTrue trivial

def State.UpToDate (s : State Tid) (t : Tid) : Prop := (s.pc t).UpToDate s.status.flags

instance (s : State Tid) (t : Tid) : Decidable (s.UpToDate t) :=
  inferInstanceAs (Decidable ((s.pc t).UpToDate s.status.flags))

/-- a call writes only what is up to date -/
def upToDate (s : State Tid) : Act Tid → Prop
  | .setfl t false => s.UpToDate t
  | .setfl _ true => True
  | .call _ _ => True
  | .getfl _ _ => True
  | .other _ => True

instance (s : State Tid) : (a : Act Tid) → Decidable (upToDate s a)
  | .setfl t false => inferInstanceAs (Decidable (s.UpToDate t))
  | .setfl _ true => isTrue trivial
  | .call _ _ => isTrue trivial
  | .getfl _ _ => isTrue trivial
  | .other _ => isTrue trivial

theorem forall_update {P : Pc → Prop} {pc : Tid → Pc} {t : Tid} {p : Pc} (h : ∀ u, P (pc u))
    (hp : P p) (u : Tid) : P (Function.update pc t p u) := by
  by_cases hu : u = t
  · rw [hu, Function.update_self]
    exact hp
  · rw [Function.update_of_ne hu]
    exact h u

theorem Moves.ok {a : Act Tid} (h : Moves s a s') (hs : ∀ u, (s.pc u).Ok) : ∀ u, (s'.pc u).Ok := by
  cases h with
  | call t c => exact forall_update hs trivial
  | fails t c a => exact forall_update hs (.inr rfl)
  | isSet t c _ => exact forall_update hs (.inl rfl)
  | reads t c => exact forall_update hs ⟨_, rfl⟩
  | writes t c arg _ => exact forall_update hs (.inl rfl)
  | other arg => exact hs

theorem ok_reach (h : (machine status).Reachable s) : ∀ u, (s.pc u).Ok :=
  h.inv (fun _ => trivial) fun _ _ _ hs _ hst => (step_moves hst).ok hs

/-- what took effect last, if that was a call, has left `O_NONBLOCK` as it wanted it -/
def State.Done (s : State Tid) : Prop :=
  ∀ c, s.log.getLast? = some (.call c) → c.set s.status.flags = s.status.flags

theorem Moves.done {a : Act Tid} (h : Moves s a s') (hs : ∀ u, (s.pc u).Ok) (hd : s.Done) :
    s'.Done := by
  have hlast : ∀ {log : List Effect} {c c' : Call},
      (log ++ [Effect.call c]).getLast? = some (.call c') → c = c' := by
    intro log c c' h
    rw [List.getLast?_concat] at h
    exact Effect.call.inj (Option.some.inj h)
  cases h with
  | call t c => exact hd
  | fails t c a => exact hd
  | isSet t c hset =>
    intro c' hc'
    obtain rfl := hlast hc'
    exact hset
  | reads t c => exact hd
  | writes t c arg hpc =>
    intro c' hc'
    obtain rfl := hlast hc'
    have ht := hs t
    rw [hpc] at ht
    obtain ⟨old, rfl⟩ := ht
    exact set_merge c s.status.flags old
  | other arg =>
    intro c hc
    rw [List.getLast?_concat] at hc
    cases hc

omit [DecidableEq Tid] in
theorem write_iff (hs : ∀ u, (s.pc u).Ok) {t : Tid} {c : Call} {arg : BitVec 32}
    (h : s.pc t = .setfl c arg) :
    (s.status.setfl arg).flags = c.set s.status.flags ↔ s.UpToDate t := by
  have ht := hs t
  rw [h] at ht
  obtain ⟨old, rfl⟩ := ht
  rw [State.UpToDate, h]
  exact merge_set_iff c s.status.flags old

/-- **A step takes effect at one point**, as long as the writes are up to date. -/
theorem Moves.serial {a : Act Tid} (h : Moves s a s') (hs : ∀ u, (s.pc u).Ok) (ha : upToDate s a)
    (hser : s.status.flags = serial status.flags s.log) :
    s'.status.flags = FdFlags.serial status.flags s'.log := by
  cases h with
  | call t c => exact hser
  | fails t c a => exact hser
  | isSet t c hset =>
    show s.status.flags = FdFlags.serial status.flags (s.log ++ [.call c])
    rw [serial_append, ← hser]
    exact hset.symm
  | reads t c => exact hser
  | writes t c arg hpc =>
    show (s.status.setfl arg).flags = FdFlags.serial status.flags (s.log ++ [.call c])
    rw [serial_append, ← hser]
    exact (write_iff hs hpc).mpr ha
  | other arg =>
    show merge SETFL_MASK s.status.flags arg = _
    rw [serial_append, ← hser]
    rfl

theorem serial_reach (h : (machine status).Reach upToDate s) :
    s.status.flags = serial status.flags s.log := by
  refine Reach.inv_with (I := fun s => s.status.flags = serial status.flags s.log) h
    (fun _ hr => ok_reach hr.reachable) rfl ?_
  intro s a s' hok hser ha hst
  exact (step_moves hst).serial hok ha hser

theorem done_reach (h : (machine status).Reachable s) : s.Done := by
  refine h.inv_with (fun _ hr => ok_reach hr) ?_ ?_
  · intro c hc
    cases hc
  · intro s a s' hok hd _ hst
    exact (step_moves hst).done hok hd

/-! ## the calls alone -/

/-- the other flags are `o`, and every call has read them so -/
def Alone (o : BitVec 32) (s : State Tid) : Prop :=
  others s.status.flags = o ∧ ∀ u, (s.pc u).Agrees o

omit [DecidableEq Tid] in
theorem Alone.upToDate {o : BitVec 32} (h : Alone o s) (a : Act Tid) : upToDate s a := by
  cases a with
  | setfl t fails =>
    cases fails with
    | true => trivial
    | false =>
      show s.UpToDate t
      have ht := h.2 t
      rw [State.UpToDate]
      cases hpc : s.pc t with
      | setfl c arg =>
        rw [hpc] at ht
        exact written_of_others (Eq.trans ht h.1.symm)
      | returned c result => trivial
      | idle => trivial
      | getfl c => trivial
  | call t c => trivial
  | getfl t fails => trivial
  | other arg => trivial

theorem Moves.alone {o : BitVec 32} {a : Act Tid} (h : Moves s a s') (hs : ∀ u, (s.pc u).Ok)
    (ho : Alone o s) (hlog : ∀ arg, Effect.other arg ∉ s'.log) : Alone o s' := by
  obtain ⟨hflags, hpc⟩ := ho
  cases h with
  | call t c => exact ⟨hflags, forall_update hpc trivial⟩
  | fails t c a => exact ⟨hflags, forall_update hpc trivial⟩
  | isSet t c _ => exact ⟨hflags, forall_update hpc trivial⟩
  | reads t c => exact ⟨hflags, forall_update hpc ((others_set c _).trans hflags)⟩
  | writes t c arg harg =>
    have hset := (write_iff hs harg).mpr (Alone.upToDate ⟨hflags, hpc⟩ (.setfl t false))
    refine ⟨?_, forall_update hpc trivial⟩
    show others (s.status.setfl arg).flags = o
    rw [hset, others_set, hflags]
  | other arg => exact absurd (List.mem_append_right _ (List.mem_singleton_self _)) (hlog arg)

theorem Moves.log {a : Act Tid} (h : Moves s a s') {e : Effect} (he : e ∈ s.log) : e ∈ s'.log := by
  have happend : ∀ x : Effect, e ∈ s.log ++ [x] := fun x => List.mem_append_left _ he
  cases h with
  | call t c => exact he
  | fails t c a => exact he
  | isSet t c _ => exact happend _
  | reads t c => exact he
  | writes t c arg _ => exact happend _
  | other arg => exact happend _

theorem alone_reach (h : (machine status).Reachable s) (hlog : ∀ arg, Effect.other arg ∉ s.log) :
    (machine status).Reach upToDate s ∧ Alone (others status.flags) s := by
  induction h with
  | init => exact ⟨.init, rfl, fun _ => trivial⟩
  | step hr _ hst ih =>
    have hmoves := step_moves hst
    obtain ⟨hup, halone⟩ := ih fun arg he => hlog arg (hmoves.log he)
    exact ⟨hup.step (halone.upToDate _) hst, hmoves.alone (ok_reach hr) halone hlog⟩

/-- **`make_non_blocking` and `make_blocking` on shared flags.**  A call returns 0 or -1, and has made its
change when it returns 0.  As long as nobody else writes, no write is out of date and the other flags are
never changed.  As long as no write is out of date, the flags are those of the calls that have returned 0
and of the others' writes, one after the other; the next write keeps that iff it is not out of date. -/
theorem flags_reach (h : (machine status).Reachable s) :
    (∀ t c result, s.pc t = .returned c result → result = 0 ∨ result = -1) ∧
    (∀ c, s.log.getLast? = some (.call c) → c.set s.status.flags = s.status.flags) ∧
    ((∀ arg, Effect.other arg ∉ s.log) →
      (machine status).Reach upToDate s ∧ others s.status.flags = others status.flags) ∧
    ((machine status).Reach upToDate s →
      s.status.flags = serial status.flags s.log ∧
      ∀ t s', step s (.setfl t false) = some s' →
        (s'.status.flags = serial status.flags s'.log ↔ s.UpToDate t)) := by
  have hok := ok_reach h
  refine ⟨?_, done_reach h, ?_, ?_⟩
  · intro t c result ht
    have hres := hok t
    rwa [ht] at hres
  · intro hlog
    obtain ⟨hup, halone⟩ := alone_reach h hlog
    exact ⟨hup, halone.1⟩
  · intro hup
    have hser := serial_reach hup
    refine ⟨hser, ?_⟩
    intro t s' hst
    rw [step] at hst
    split at hst
    · rename_i c arg hpc
      obtain rfl := Option.some.inj hst
      rw [← write_iff hok hpc]
      show (s.status.setfl arg).flags = serial status.flags (s.log ++ [.call c]) ↔ _
      rw [serial_append, ← hser]
      rfl
    · cases hst

end

/-- `O_RDWR` -/
def rdwr : Status := ⟨2, rfl⟩

/-- a thread has read the flags, and another program sets `O_APPEND` before that thread writes -/
def late : List (Act Bool) :=
  [.call true .make_non_blocking, .getfl true false, .other (2 ||| O_APPEND)]

/-- `O_APPEND` is lost -/
theorem flags_reach_late : ∃ s s' : State Bool,
    (machine rdwr).exec (machine rdwr).init late = some s ∧ step s (.setfl true false) = some s' ∧
      s.status.flags = 2 ||| O_APPEND ∧ s'.status.flags = 2 ||| O_NONBLOCK ∧
      s'.status.flags ≠ serial rdwr.flags s'.log := by
  refine ⟨_, _, rfl, rfl, by decide, by decide, ?_⟩
  have hup : (machine rdwr).Reach upToDate _ := Reach.of_execIf late .init rfl
  have hwrite := ((flags_reach hup.reachable).2.2.2 hup).2 true _ rfl
  exact fun h => absurd (hwrite.mp h) (by decide)

end FdFlags
end CppCores
