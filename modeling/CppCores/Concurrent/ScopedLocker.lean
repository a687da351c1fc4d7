import Mathlib.Data.Fintype.EquivFin
import Mathlib.Data.Fintype.Lattice
import CppCores.Concurrent.Locks.Exclusion

/-!
# CommonScopedLocker: `concurrent/scoped_locker.h`

Any number of threads open and leave scopes of scoped lockers over any number of locks, each of one of
the five classes.  The constructor calls `lock`, the destructor `unlock`.  A scope that is left, at its
end or by an exception, is the innermost of its thread; a thread in a constructor does nothing else.

`unlock` is called without looking whether the lock is held, where `Locks.step` asks for it.  A second
constructor on a `PosixRWLock` that the thread holds returns, since `lock` drops `EDEADLK`, and the
inner destructor frees the lock under the outer scope: `Fresh` leaves it out.

* `Inv`               what the threads hold is what their scopes name;
* `scoped_exclusion`  **the scopes exclude, and every destructor finds its lock held by its thread;**
* `Ordered`           every scope is opened on a lock that comes behind those the thread has;
* `ordered_progress`  **then a thread inside can always leave a scope or get its lock.**
-/

set_option linter.unusedSectionVars false

namespace CppCores
namespace ScopedLocker
open Machine
variable {Tid L : Type*} [DecidableEq Tid] [DecidableEq L]

/-! ## the code -/

structure State (Tid L : Type*) where
  lock : L → Locks.State Tid
  /-- the lock of the constructor that a thread is in -/
  opening : Tid → Option L
  /-- the locks of the live lockers of a thread, the innermost first -/
  scopes : Tid → List L

inductive Act (Tid L : Type*) where
  /-- a constructor is called -/
  | enter (t : Tid) (l : L)
  /-- the next step of `m_lock->lock()` -/
  | run (t : Tid)
  /-- the destructor of the innermost locker is called -/
  | leave (t : Tid)
  deriving DecidableEq, Repr

/-- a step of `t` in the code of `l`: what is left of its constructor and its lockers -/
def State.become (s : State Tid L) (t : Tid) (l : L) (k : Locks.State Tid) (opening : Option L)
    (scopes : List L) : State Tid L where
  lock := Function.update s.lock l k
  opening := Function.update s.opening t opening
  scopes := Function.update s.scopes t scopes

/-- `m_lock->unlock()` -/
def unlocked (k : Locks.State Tid) (t : Tid) (p : Locks.Prim Tid) : Locks.State Tid :=
  { k with prim := p, exclusive := Function.update k.exclusive t (k.exclusive t - 1) }

variable (cls : L → Locks.Class)

def step (s : State Tid L) : Act Tid L → Option (State Tid L)
  | .enter t l =>
    if s.opening t = none then
      (Locks.step (cls l) (s.lock l) (.lock t)).map fun k => s.become t l k (some l) (s.scopes t)
    else none
  | .run t =>
    (s.opening t).bind fun l =>
      (Locks.run (cls l) (s.lock l) t).map fun k =>
        if k.pc t = .idle then s.become t l k none (l :: s.scopes t)
        else s.become t l k (some l) (s.scopes t)
  | .leave t =>
    if s.opening t = none then
      match s.scopes t with
      | [] => none
      | l :: rest =>
        (Locks.unlock (s.lock l).prim t (cls l)).map fun p =>
          s.become t l (unlocked (s.lock l) t p) none rest
    else none

def start : State Tid L where
  lock := fun _ => Locks.start
  opening := fun _ => none
  scopes := fun _ => []

def machine : Machine (State Tid L) (Act Tid L) := ⟨start, step cls⟩

/-! ## what a step of a lock does -/

/-- in `lock` -/
def InLock (c : Locks.Class) (pc : Locks.Pc) : Prop :=
  pc = .locking ∨ (pc = .loading ∧ c = .AtomicSpinLock)

/-- nothing of the other threads changes, nor of the shares -/
structure Alone (t : Tid) (k k' : Locks.State Tid) : Prop where
  pc : ∀ u, u ≠ t → k'.pc u = k.pc u
  exclusive : ∀ u, u ≠ t → k'.exclusive u = k.exclusive u
  shared : k'.shared = k.shared

section
variable {c : Locks.Class} {k k' : Locks.State Tid} {t : Tid}

theorem alone_goto (k : Locks.State Tid) (t : Tid) (pc : Locks.Pc) (p : Locks.Prim Tid) :
    Alone t k (k.goto t pc p) :=
  ⟨fun _ hu => Function.update_of_ne hu _ _, fun _ _ => rfl, rfl⟩

theorem pc_goto (k : Locks.State Tid) (t : Tid) (pc : Locks.Pc) (p : Locks.Prim Tid) :
    (k.goto t pc p).pc t = pc := Function.update_self ..

theorem alone_told (h : Alone t k k') : Alone t k (k'.told t true) where
  pc := h.pc
  exclusive := fun u hu => (Function.update_of_ne hu _ _).trans (h.exclusive u hu)
  shared := h.shared

theorem lock_cases (h : Locks.Inv c k) (hok : Locks.Honest c k (.lock t))
    (hst : Locks.step c k (.lock t) = some k') :
    Locks.Inv c k' ∧ Alone t k k' ∧ k'.pc t = .locking ∧ k'.exclusive t = k.exclusive t := by
  have hinv := Locks.inv_step h hok hst
  obtain ⟨-, hst⟩ := Option.ite_none_right_eq_some.mp hst
  obtain rfl := Option.some.inj hst
  exact ⟨hinv, alone_goto k t _ _, pc_goto k t _ _, rfl⟩

theorem goOn_inLock {p p' : Locks.Prim Tid} {pc : Locks.Pc}
    (h : Locks.lock p t c = some (.goOn p' pc)) : InLock c pc := by
  cases c with
  | SimpleSpinLock =>
    simp only [Locks.lock] at h
    split at h
    · cases h
      exact .inl rfl
    · cases h
  | AtomicSpinLock =>
    simp only [Locks.lock] at h
    split at h
    · cases h
    · cases h
      exact .inr ⟨rfl, rfl⟩
  | MutexBase | PosixSpinLock | PosixRWLock =>
    obtain ⟨_, _, h⟩ := Option.map_eq_some_iff.mp h
    cases h

/-- **A step in `lock` stays there, or returns with the lock.** -/
theorem run_cases (h : Locks.Inv c k) (hpc : InLock c (k.pc t)) (hst : Locks.run c k t = some k') :
    Locks.Inv c k' ∧ Alone t k k' ∧
      (InLock c (k'.pc t) ∧ k'.exclusive t = k.exclusive t ∨
        k'.pc t = .idle ∧ k'.exclusive t = k.exclusive t + 1) := by
  have hinv := Locks.inv_step h (show Locks.Honest c k (.run t) from trivial) hst
  refine ⟨hinv, ?_⟩
  rcases hpc with hpc | ⟨hpc, hc⟩
  · simp only [Locks.run, hpc] at hst
    obtain ⟨o, ho, rfl⟩ := Option.map_eq_some_iff.mp hst
    cases o with
    | goOn p pc =>
      have hin := goOn_inLock ho
      refine ⟨alone_goto k t pc p, .inl ⟨?_, rfl⟩⟩
      rw [pc_goto]
      exact hin
    | returned p =>
      refine ⟨alone_told (alone_goto k t .idle p), .inr ⟨pc_goto k t .idle p, ?_⟩⟩
      exact Function.update_self ..
  · simp only [Locks.run, hpc] at hst
    obtain rfl := Option.some.inj hst
    refine ⟨alone_goto k t _ _, .inl ⟨?_, rfl⟩⟩
    rw [pc_goto]
    split
    · exact .inr ⟨rfl, hc⟩
    · exact .inl rfl

theorem unlock_cases (h : Locks.Inv c k) (hpc : k.pc t = .idle) (ht : 0 < k.exclusive t)
    {p : Locks.Prim Tid} (hu : Locks.unlock k.prim t c = some p) :
    Locks.Inv c (unlocked k t p) ∧ Alone t k (unlocked k t p) := by
  have hst : Locks.step c k (.unlock t) = some (unlocked k t p) :=
    (if_pos ⟨hpc, ht⟩).trans (congrArg (Option.map (unlocked k t)) hu)
  refine ⟨Locks.inv_step h (show Locks.Honest c k (.unlock t) from trivial) hst, ?_⟩
  exact ⟨fun _ _ => rfl, fun u hu => Function.update_of_ne hu _ _, rfl⟩

theorem unlock_isSome (h : Locks.Inv c k) (ht : 0 < k.exclusive t) :
    ∃ p, Locks.unlock k.prim t c = some p := by
  have hm : t ∈ k.prim.writers := List.count_pos_iff.mp (h.excludes.exclusive t ▸ ht)
  have hp : k.prim.unlock t = some { k.prim with writers := k.prim.writers.erase t } := if_pos hm
  cases c with
  | SimpleSpinLock | AtomicSpinLock => exact ⟨_, rfl⟩
  | MutexBase | PosixSpinLock | PosixRWLock => exact ⟨_, hp⟩

end

/-! ## the invariant -/

/-- no constructor is called on a `PosixRWLock` that the thread holds -/
def Fresh (s : State Tid L) : Act Tid L → Prop
  | .enter t l => cls l = .PosixRWLock → l ∉ s.scopes t
  | _ => True

instance (s : State Tid L) (a : Act Tid L) : Decidable (Fresh cls s a) := by
  cases a <;> unfold Fresh <;> infer_instance

/-- what a lock has of a thread, and the thread of the lock -/
structure Agree (c : Locks.Class) (k : Locks.State Tid) (opening : Option L)
    (scopes : List L) (l : L) (t : Tid) : Prop where
  /-- the thread was told that it holds what its scopes name -/
  told : k.exclusive t = scopes.count l
  unshared : k.shared t = 0
  idle : opening ≠ some l → k.pc t = .idle
  inLock : opening = some l → InLock c (k.pc t)

structure Inv (s : State Tid L) : Prop where
  lock : ∀ l, Locks.Inv (cls l) (s.lock l)
  agree : ∀ l t, Agree (cls l) (s.lock l) (s.opening t) (s.scopes t) l t

variable {cls} {s s' : State Tid L} {t : Tid} {l : L}

theorem inv_start : Inv cls (start : State Tid L) :=
  ⟨fun l => Locks.inv_start (cls l), fun _ _ => ⟨rfl, rfl, fun _ => rfl, nofun⟩⟩

/-- **A step of one thread in the code of one lock.** -/
theorem Inv.become (h : Inv cls s) {k : Locks.State Tid} {opening : Option L} {scopes : List L}
    (hk : Locks.Inv (cls l) k) (halone : Alone t (s.lock l) k)
    (hself : Agree (cls l) k opening scopes l t)
    (hother : ∀ j, j ≠ l → Agree (cls j) (s.lock j) opening scopes j t) :
    Inv cls (s.become t l k opening scopes) where
  lock := fun j => by
    dsimp only [State.become]
    by_cases hj : j = l
    · subst hj
      rwa [Function.update_self]
    · rw [Function.update_of_ne hj]
      exact h.lock j
  agree := fun j u => by
    dsimp only [State.become]
    by_cases hu : u = t
    · subst hu
      rw [Function.update_self, Function.update_self]
      by_cases hj : j = l
      · subst hj
        rwa [Function.update_self]
      · rw [Function.update_of_ne hj]
        exact hother j hj
    · rw [Function.update_of_ne hu, Function.update_of_ne hu]
      by_cases hj : j = l
      · subst hj
        have hold := h.agree j u
        rw [Function.update_self]
        refine ⟨(halone.exclusive u hu).trans hold.told, ?_, ?_, ?_⟩
        · rw [halone.shared]
          exact hold.unshared
        · rw [halone.pc u hu]
          exact hold.idle
        · rw [halone.pc u hu]
          exact hold.inLock
      · rw [Function.update_of_ne hj]
        exact h.agree j u

/-- what a thread holds is what its scopes name -/
theorem Inv.count_writers (h : Inv cls s) (l : L) (t : Tid) :
    (s.lock l).prim.writers.count t = (s.scopes t).count l := by
  rw [← (h.lock l).excludes.exclusive, (h.agree l t).told]

theorem Inv.mem_writers (h : Inv cls s) : t ∈ (s.lock l).prim.writers ↔ l ∈ s.scopes t := by
  rw [← List.count_pos_iff, h.count_writers, List.count_pos_iff]

theorem some_ne {j : L} (hj : j ≠ l) : (some l : Option L) ≠ some j :=
  fun he => hj (Option.some.inj he).symm

theorem inv_enter (h : Inv cls s) (hok : Fresh cls s (.enter t l)) (ho : s.opening t = none)
    {k : Locks.State Tid} (hst : Locks.step (cls l) (s.lock l) (.lock t) = some k) :
    Inv cls (s.become t l k (some l) (s.scopes t)) := by
  have hhonest : Locks.Honest (cls l) (s.lock l) (.lock t) := fun hc hm =>
    hok hc (h.mem_writers.mp hm)
  obtain ⟨hinv, halone, hpc, hex⟩ := lock_cases (h.lock l) hhonest hst
  have hl := h.agree l t
  refine h.become hinv halone ⟨hex.trans hl.told, ?_, fun hne => absurd rfl hne, fun _ => .inl hpc⟩ ?_
  · rw [halone.shared]
    exact hl.unshared
  · intro j hj
    have hold := h.agree j t
    refine ⟨hold.told, hold.unshared, fun _ => hold.idle (by rw [ho]; exact nofun), ?_⟩
    exact fun he => absurd he (some_ne hj)

theorem inv_run (h : Inv cls s) (ho : s.opening t = some l) {k : Locks.State Tid}
    (hst : Locks.run (cls l) (s.lock l) t = some k) :
    Inv cls (if k.pc t = .idle then s.become t l k none (l :: s.scopes t)
      else s.become t l k (some l) (s.scopes t)) := by
  have hl := h.agree l t
  obtain ⟨hinv, halone, hcases⟩ := run_cases (h.lock l) (hl.inLock ho) hst
  have hshared : k.shared t = 0 := by
    rw [halone.shared]
    exact hl.unshared
  rcases hcases with ⟨hin, hex⟩ | ⟨hpc, hex⟩
  · have hne : k.pc t ≠ .idle := by
      intro he
      rw [he] at hin
      rcases hin with hin | ⟨hin, -⟩ <;> cases hin
    rw [if_neg hne]
    refine h.become hinv halone ⟨hex.trans hl.told, hshared, fun hn => absurd rfl hn, fun _ => hin⟩ ?_
    intro j hj
    have hold := h.agree j t
    rw [ho] at hold
    exact ⟨hold.told, hold.unshared, hold.idle, hold.inLock⟩
  · rw [if_pos hpc]
    refine h.become hinv halone ⟨?_, hshared, fun _ => hpc, nofun⟩ ?_
    · rw [hex, hl.told, List.count_cons_self]
    · intro j hj
      have hold := h.agree j t
      refine ⟨?_, hold.unshared, fun _ => hold.idle ?_, nofun⟩
      · rw [List.count_cons_of_ne hj.symm]
        exact hold.told
      · rw [ho]
        exact some_ne hj

theorem inv_leave (h : Inv cls s) (ho : s.opening t = none) {rest : List L}
    (hs : s.scopes t = l :: rest) {p : Locks.Prim Tid}
    (hu : Locks.unlock (s.lock l).prim t (cls l) = some p) :
    Inv cls (s.become t l (unlocked (s.lock l) t p) none rest) := by
  have hl := h.agree l t
  have htold : (s.lock l).exclusive t = rest.count l + 1 := by
    rw [hl.told, hs, List.count_cons_self]
  have hpc : (s.lock l).pc t = .idle := hl.idle (by rw [ho]; exact nofun)
  obtain ⟨hinv, halone⟩ := unlock_cases (h.lock l) hpc (by omega) hu
  refine h.become hinv halone ⟨?_, hl.unshared, fun _ => hpc, nofun⟩ ?_
  · have hself : (unlocked (s.lock l) t p).exclusive t = (s.lock l).exclusive t - 1 :=
      Function.update_self ..
    rw [hself, htold, Nat.add_sub_cancel]
  · intro j hj
    have hold := h.agree j t
    refine ⟨?_, hold.unshared, fun _ => hold.idle (by rw [ho]; exact nofun), nofun⟩
    rw [hold.told, hs, List.count_cons_of_ne hj.symm]

/-! ## runs -/

/-- the steps, one constructor for each kind -/
inductive Step (cls : L → Locks.Class) (s : State Tid L) : Act Tid L → State Tid L → Prop
  | enter {t : Tid} {l : L} {k : Locks.State Tid} : s.opening t = none →
      Locks.step (cls l) (s.lock l) (.lock t) = some k →
      Step cls s (.enter t l) (s.become t l k (some l) (s.scopes t))
  | run {t : Tid} {l : L} {k : Locks.State Tid} : s.opening t = some l →
      Locks.run (cls l) (s.lock l) t = some k →
      Step cls s (.run t) (if k.pc t = .idle then s.become t l k none (l :: s.scopes t)
        else s.become t l k (some l) (s.scopes t))
  | leave {t : Tid} {l : L} {rest : List L} {p : Locks.Prim Tid} : s.opening t = none →
      s.scopes t = l :: rest → Locks.unlock (s.lock l).prim t (cls l) = some p →
      Step cls s (.leave t) (s.become t l (unlocked (s.lock l) t p) none rest)

variable {a : Act Tid L}

theorem step_cases (h : step cls s a = some s') : Step cls s a s' := by
  cases a with
  | enter t l =>
    obtain ⟨ho, h⟩ := Option.ite_none_right_eq_some.mp h
    obtain ⟨k, hk, rfl⟩ := Option.map_eq_some_iff.mp h
    exact .enter ho hk
  | run t =>
    obtain ⟨l, ho, h⟩ := Option.bind_eq_some_iff.mp h
    obtain ⟨k, hk, rfl⟩ := Option.map_eq_some_iff.mp h
    exact .run ho hk
  | leave t =>
    obtain ⟨ho, h⟩ := Option.ite_none_right_eq_some.mp h
    split at h
    · cases h
    · rename_i l rest hs
      obtain ⟨p, hp, rfl⟩ := Option.map_eq_some_iff.mp h
      exact .leave ho hs hp

theorem inv_step (h : Inv cls s) (hok : Fresh cls s a) (hst : Step cls s a s') : Inv cls s' := by
  cases hst with
  | enter ho hk => exact inv_enter h hok ho hk
  | run ho hk => exact inv_run h ho hk
  | leave ho hs hp => exact inv_leave h ho hs hp

theorem Inv.reach (h : (machine cls).Reach (Fresh cls) s) : Inv cls s :=
  h.inv inv_start fun _ _ _ ih hok hst => inv_step ih hok (step_cases hst)

namespace Inv

theorem writers_eq (h : Inv cls s) (hl : l ∈ s.scopes t) : (s.lock l).prim.writers = [t] :=
  ((h.lock l).excludes.alone t (h.mem_writers.mpr hl)).1

theorem readers_eq (h : Inv cls s) (l : L) : (s.lock l).prim.readers = [] := by
  apply List.eq_nil_iff_forall_not_mem.mpr
  intro t ht
  have hpos := List.count_pos_iff.mpr ht
  rw [← (h.lock l).excludes.shared, (h.agree l t).unshared] at hpos
  exact Nat.lt_irrefl 0 hpos

theorem free_iff (h : Inv cls s) (l : L) : (s.lock l).prim.Free ↔ ∀ t, l ∉ s.scopes t := by
  constructor
  · intro hf t hl
    have hw := h.writers_eq hl
    rw [hf.1] at hw
    cases hw
  · intro hno
    refine ⟨?_, h.readers_eq l⟩
    apply List.eq_nil_iff_forall_not_mem.mpr
    intro t ht
    exact hno t (h.mem_writers.mp ht)

theorem nodup (h : Inv cls s) (t : Tid) : (s.scopes t).Nodup := by
  apply List.nodup_iff_count_le_one.mpr
  intro l
  by_cases hl : l ∈ s.scopes t
  · have hone : (s.scopes t).count l = 1 := by
      rw [← h.count_writers, h.writers_eq hl, List.count_cons_self, List.count_nil]
    exact Nat.le_of_eq hone
  · exact Nat.le_trans (Nat.le_of_eq (List.count_eq_zero_of_not_mem hl)) (Nat.zero_le 1)

theorem leave (h : Inv cls s) (ho : s.opening t = none) (hs : s.scopes t ≠ []) :
    ∃ s', step cls s (.leave t) = some s' := by
  obtain ⟨l, rest, hs⟩ := List.exists_cons_of_ne_nil hs
  have hpos : 0 < (s.lock l).exclusive t := by
    rw [(h.agree l t).told, hs, List.count_cons_self]
    exact Nat.succ_pos _
  obtain ⟨p, hp⟩ := unlock_isSome (h.lock l) hpos
  refine ⟨s.become t l (unlocked (s.lock l) t p) none rest, ?_⟩
  simp only [step, ho, hs, hp, if_true, Option.map_some]

end Inv

/-- **The scopes exclude, and every destructor finds its lock held by its thread**: in every such run a lock
is held by the thread in whose scopes it is, once, and is free if it is in nobody's. -/
theorem scoped_exclusion (h : (machine cls).Reach (Fresh cls) s) :
    (∀ t u l, l ∈ s.scopes t → l ∈ s.scopes u → t = u) ∧ (∀ t, (s.scopes t).Nodup) ∧
      (∀ l t, l ∈ s.scopes t → (s.lock l).prim.writers = [t]) ∧
      (∀ l, (s.lock l).prim.Free ↔ ∀ t, l ∉ s.scopes t) ∧
      ∀ t, s.opening t = none → s.scopes t ≠ [] → ∃ s', step cls s (.leave t) = some s' := by
  have hinv := Inv.reach h
  refine ⟨fun t u l ht hu => ?_, hinv.nodup, fun l t hl => hinv.writers_eq hl, hinv.free_iff,
    fun t ho hs => hinv.leave ho hs⟩
  have hw := (hinv.writers_eq ht).symm.trans (hinv.writers_eq hu)
  exact (List.cons.inj hw).1

/-- a mutex around a spin lock, and a second thread that waits for the mutex -/
theorem scoped_exclusion_two : ∃ s : State (Fin 2) Bool,
    s.scopes 0 = [true, false] ∧ s.opening 1 = some false ∧ (s.lock false).prim.writers = [0] ∧
      ∃ s', step (fun l => if l then .SimpleSpinLock else .MutexBase) s (.leave 0) = some s' := by
  let cls : Bool → Locks.Class := fun l => if l then .SimpleSpinLock else .MutexBase
  let as : List (Act (Fin 2) Bool) := [.enter 0 false, .enter 1 false, .run 0, .enter 0 true, .run 0]
  have h : ((machine cls).execIf (Fresh cls) start as).map
      (fun s => (s.scopes 0, s.opening 1, s.opening 0)) = some ([true, false], some false, none) := by
    decide
  obtain ⟨s, hs, he⟩ := Option.map_eq_some_iff.mp h
  obtain ⟨e1, e2⟩ := Prod.mk.inj he
  obtain ⟨e2, e3⟩ := Prod.mk.inj e2
  obtain ⟨-, -, hw, -, hleave⟩ := scoped_exclusion (.of_execIf as .init hs)
  refine ⟨s, e1, e2, hw false 0 (by rw [e1]; decide), hleave 0 e3 (by rw [e1]; decide)⟩

/-! ## locks in order -/

section
variable {α : Type*} [LinearOrder α] {rank : L → α}

/-- a scope is opened on a lock that comes behind all those the thread has -/
def Ordered (rank : L → α) (s : State Tid L) : Act Tid L → Prop
  | .enter t l => ∀ j ∈ s.scopes t, rank j < rank l
  | _ => True

instance (rank : L → α) (s : State Tid L) (a : Act Tid L) : Decidable (Ordered rank s a) := by
  cases a <;> unfold Ordered <;> infer_instance

/-- the lock that a thread waits for comes behind those it has -/
def Climbs (rank : L → α) (s : State Tid L) : Prop :=
  ∀ t l, s.opening t = some l → ∀ j ∈ s.scopes t, rank j < rank l

theorem Climbs.become (h : Climbs rank s) {k : Locks.State Tid} {opening : Option L} {scopes : List L}
    (hself : ∀ i, opening = some i → ∀ j ∈ scopes, rank j < rank i) :
    Climbs rank (s.become t l k opening scopes) := by
  intro u i hi
  dsimp only [State.become] at hi ⊢
  by_cases hu : u = t
  · subst hu
    rw [Function.update_self] at hi ⊢
    exact hself i hi
  · rw [Function.update_of_ne hu] at hi ⊢
    exact h u i hi

theorem climbs_step (h : Climbs rank s) (hok : Ordered rank s a) (hst : Step cls s a s') :
    Climbs rank s' := by
  cases hst with
  | enter ho hk =>
    refine h.become fun i hi => ?_
    obtain rfl := Option.some.inj hi
    exact hok
  | run ho hk =>
    split
    · exact h.become nofun
    · refine h.become fun i hi => ?_
      obtain rfl := Option.some.inj hi
      exact h _ _ ho
  | leave ho hs hp => exact h.become nofun

/-- the order excludes a lock that the thread has -/
theorem Ordered.fresh (h : Ordered rank s a) : Fresh cls s a := by
  cases a with
  | enter t l => exact fun _ hl => lt_irrefl _ (h l hl)
  | run t => trivial
  | leave t => trivial

theorem Climbs.reach (h : (machine cls).Reach (Ordered rank) s) : Climbs rank s :=
  h.inv nofun fun _ _ _ ih hok hst => climbs_step ih hok (step_cases hst)

theorem run_free {c : Locks.Class} {k : Locks.State Tid} (h : Locks.Inv c k) (hf : k.prim.Free)
    (hpc : k.pc t = .locking) : ∃ k', Locks.run c k t = some k' ∧ k'.pc t = .idle := by
  have hflag : Locks.Spins c → k.prim.flag = false := by
    intro hc
    apply eq_false_of_ne_true
    intro ht
    exact (h.flag hc).mp ht hf.1
  have hlock : ∃ p, Locks.lock k.prim t c = some (.returned p) := by
    have hw : k.prim.wrlock t = some { k.prim with writers := [t] } := if_pos hf
    cases c with
    | SimpleSpinLock =>
      have hx : (k.prim.exchange t).1 = false := hflag (.inl rfl)
      exact ⟨_, if_neg (by rw [hx]; exact Bool.false_ne_true)⟩
    | AtomicSpinLock =>
      have hx : (k.prim.exchange t).1 = false := hflag (.inr rfl)
      exact ⟨_, if_pos (by rw [hx]; rfl)⟩
    | MutexBase | PosixSpinLock => exact ⟨_, congrArg (Option.map Locks.Outcome.returned) hw⟩
    | PosixRWLock =>
      have ht : t ∉ k.prim.writers := by
        rw [hf.1]
        exact List.not_mem_nil
      refine ⟨{ k.prim with writers := [t] }, ?_⟩
      rw [Locks.lock, Locks.Prim.rwlock_wrlock, if_neg ht, hw]
      rfl
  obtain ⟨p, hp⟩ := hlock
  refine ⟨(k.goto t .idle p).told t true, ?_, pc_goto k t .idle p⟩
  simp only [Locks.run, hpc, hp, Option.map_some]

theorem Inv.acquires_one (h : Inv cls s) (ho : s.opening t = some l) (hf : (s.lock l).prim.Free)
    (hpc : (s.lock l).pc t = .locking) :
    ∃ s', step cls s (.run t) = some s' ∧ s'.scopes t = l :: s.scopes t := by
  obtain ⟨k, hk, hidle⟩ := run_free (h.lock l) hf hpc
  refine ⟨s.become t l k none (l :: s.scopes t), ?_, Function.update_self ..⟩
  simp only [step, ho, Option.bind_some, hk, Option.map_some, hidle, if_true]

/-- a thread that waits for a free lock has it after at most two of its steps -/
theorem Inv.acquires (h : Inv cls s) (ho : s.opening t = some l) (hf : (s.lock l).prim.Free) :
    ∃ n s', n ≤ 2 ∧ (machine cls).exec s (List.replicate n (.run t)) = some s' ∧
      s'.scopes t = l :: s.scopes t := by
  rcases (h.agree l t).inLock ho with hpc | ⟨hpc, hc⟩
  · obtain ⟨s', hs, he⟩ := h.acquires_one ho hf hpc
    exact ⟨1, s', Nat.le_succ 1, congrArg (fun o => o.bind some) hs, he⟩
  · -- the word is read as free, and the exchange comes next
    have hflag : (s.lock l).prim.flag = false := by
      apply eq_false_of_ne_true
      intro ht
      exact ((h.lock l).flag (.inr hc)).mp ht hf.1
    let k := (s.lock l).goto t .locking (s.lock l).prim
    have hrun : Locks.run (cls l) (s.lock l) t = some k := by
      simp only [Locks.run, hpc, hflag, Bool.false_eq_true, if_false, k]
    have hpc' : k.pc t = .locking := pc_goto _ t _ _
    let s' := s.become t l k (some l) (s.scopes t)
    have hst : step cls s (.run t) = some s' := by
      simp only [step, ho, Option.bind_some, hrun, Option.map_some, hpc', reduceCtorEq, if_false, s']
    have hlock : s'.lock l = k := Function.update_self ..
    have hscopes : s'.scopes t = s.scopes t := Function.update_self ..
    have hfresh : Fresh cls s (.run t) := trivial
    obtain ⟨s'', hs, he⟩ := (inv_step h hfresh (step_cases hst)).acquires_one (t := t) (l := l)
      (Function.update_self ..) (by rw [hlock]; exact hf) (by rw [hlock]; exact hpc')
    refine ⟨2, s'', Nat.le_refl 2, ?_, by rw [he, hscopes]⟩
    show (step cls s (.run t)).bind (fun s => (step cls s (.run t)).bind some) = some s''
    rw [hst, Option.bind_some, hs, Option.bind_some]

/-- a thread whose lock comes last among those that are waited for -/
theorem exists_last [Finite Tid] (rank : L → α) {wants : Tid → Option L} (h : wants t ≠ none) :
    ∃ u l, wants u = some l ∧ ∀ v j, wants v = some j → rank j ≤ rank l := by
  let W := {u : Tid × L // wants u.1 = some u.2}
  have hfin : Finite W := by
    apply Finite.of_injective (fun u : W => u.1.1)
    rintro ⟨⟨u, l⟩, hu⟩ ⟨⟨v, j⟩, hv⟩ rfl
    obtain rfl : l = j := Option.some.inj (hu.symm.trans hv)
    rfl
  obtain ⟨l, hl⟩ := Option.ne_none_iff_exists'.mp h
  have hne : Nonempty W := ⟨⟨(t, l), hl⟩⟩
  obtain ⟨⟨⟨u, j⟩, hu⟩, hmax⟩ := Finite.exists_max fun u : W => rank u.1.2
  exact ⟨u, j, hu, fun v i hv => hmax ⟨(v, i), hv⟩⟩

/-- **A thread inside can always leave a scope or get its lock, if scopes are opened in the order of the
locks**: some thread has a live locker and is in no constructor, or waits for a lock that is free. -/
theorem ordered_progress [Finite Tid] (h : (machine cls).Reach (Ordered rank) s)
    (ht : s.opening t ≠ none ∨ s.scopes t ≠ []) :
    ∃ u, (∃ s', step cls s (.leave u) = some s') ∨
      ∃ l n s', s.opening u = some l ∧ n ≤ 2 ∧
        (machine cls).exec s (List.replicate n (.run u)) = some s' ∧
        s'.scopes u = l :: s.scopes u := by
  have hinv := Inv.reach (h.mono fun _ _ hok => hok.fresh)
  have hclimbs := Climbs.reach h
  by_cases hw : ∃ u, s.opening u ≠ none
  · obtain ⟨w, hw⟩ := hw
    obtain ⟨u, l, hu, hlast⟩ := exists_last rank hw
    by_cases hf : (s.lock l).prim.Free
    · obtain ⟨n, s', hn, he, hs⟩ := hinv.acquires hu hf
      exact ⟨u, .inr ⟨l, n, s', hu, hn, he, hs⟩⟩
    · obtain ⟨v, hv⟩ := not_forall.mp fun hno => hf ((hinv.free_iff l).mpr hno)
      have hl : l ∈ s.scopes v := not_not.mp hv
      refine ⟨v, .inl (hinv.leave ?_ (List.ne_nil_of_mem hl))⟩
      -- a holder that waits would wait for a lock that comes behind
      cases hov : s.opening v with
      | none => rfl
      | some j => exact absurd (hclimbs v j hov l hl) (not_lt_of_ge (hlast v j hov))
  · have hnone : ∀ u, s.opening u = none := fun u => not_not.mp fun hu => hw ⟨u, hu⟩
    rcases ht with ht | ht
    · exact absurd (hnone t) ht
    · exact ⟨t, .inl (hinv.leave (hnone t) ht)⟩

/-- two threads that take a mutex and a spin lock in this order -/
theorem ordered_progress_two : ∃ s : State (Fin 2) Bool,
    s.scopes 0 = [true, false] ∧ s.opening 1 = some false ∧
      ∃ u, (∃ s', step (fun l => if l then .AtomicSpinLock else .MutexBase) s (.leave u) = some s') ∨
        ∃ l n s', s.opening u = some l ∧ n ≤ 2 ∧
          (machine fun l => if l then .AtomicSpinLock else .MutexBase).exec s
            (List.replicate n (.run u)) = some s' ∧ s'.scopes u = l :: s.scopes u := by
  let cls : Bool → Locks.Class := fun l => if l then .AtomicSpinLock else .MutexBase
  let as : List (Act (Fin 2) Bool) := [.enter 0 false, .enter 1 false, .run 0, .enter 0 true, .run 0]
  have h : ((machine cls).execIf (Ordered Bool.toNat) start as).map
      (fun s => (s.scopes 0, s.opening 1)) = some ([true, false], some false) := by decide
  obtain ⟨s, hs, he⟩ := Option.map_eq_some_iff.mp h
  obtain ⟨e1, e2⟩ := Prod.mk.inj he
  exact ⟨s, e1, e2, ordered_progress (t := 0) (.of_execIf as .init hs) (.inr (by rw [e1]; decide))⟩

end

end ScopedLocker
end CppCores
