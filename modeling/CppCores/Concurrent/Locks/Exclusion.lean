import CppCores.Concurrent.Locks.Model

/-!
# The lock classes: exclusion

`Excludes s`: what the calls told the threads is what they hold, and a thread that holds the lock
exclusively is the only one that holds it.

* `Takes c p t p'`      the primitive was free and is now held by `t`: what a return from `lock` and
                        `true` from `try_lock` mean (`lock_spec`, `try_lock_spec`);
* `Honest`              the calls that look at the answer of the pthread function as they should:
                        `PosixSpinLock::try_lock` and `PosixRWLock::try_lock_shared` return it, which is
                        0 if it acquires, as it is, and `PosixRWLock::lock` and `lock_shared` return
                        also when it is an error;
* `excludes_reach`      **every class excludes in the runs of such calls;**
* `excludes_every_run`  the other three classes need no condition;
* `dishonest_breaks`    every other call breaks it, at once or when it returns.
-/

set_option linter.unusedSectionVars false

namespace CppCores
namespace Locks
variable {Tid : Type*} [DecidableEq Tid] {c : Class} {s s' : State Tid} {t : Tid} {p p' : Prim Tid}

/-- told what is held, and exclusion -/
structure Excludes (s : State Tid) : Prop where
  exclusive : ∀ t, s.exclusive t = s.prim.writers.count t
  shared : ∀ t, s.shared t = s.prim.readers.count t
  alone : ∀ t ∈ s.prim.writers, s.prim.writers = [t] ∧ s.prim.readers = []

/-- not a `try` function that returns the answer of the pthread function as it is, nor a call that
drops an error: `lock` and `lock_shared` by the writer, and `EAGAIN` -/
def Honest (c : Class) (s : State Tid) : Act Tid → Prop
  | .lock t => c = .PosixRWLock → t ∉ s.prim.writers
  | .lock_shared t => t ∉ s.prim.writers
  | .EAGAIN _ => c ≠ .PosixRWLock
  | .try_lock _ => c ≠ .PosixSpinLock
  | .try_lock_shared _ _ => c ≠ .PosixRWLock
  | _ => True

instance (c : Class) (s : State Tid) (a : Act Tid) : Decidable (Honest c s a) := by
  cases a <;> unfold Honest <;> infer_instance

/-- the classes over a word -/
def Spins (c : Class) : Prop := c = .SimpleSpinLock ∨ c = .AtomicSpinLock

structure Inv (c : Class) (s : State Tid) : Prop where
  excludes : Excludes s
  flag : Spins c → (s.prim.flag = true ↔ s.prim.writers ≠ [])
  only : c ≠ .PosixRWLock → s.prim.readers = []
  place : ∀ t, s.pc t = .lockingShared → c = .PosixRWLock
  /-- the writer is in no call -/
  outside : c = .PosixRWLock → ∀ t, s.pc t ≠ .idle → t ∉ s.prim.writers

theorem inv_start (c : Class) : Inv c (start : State Tid) where
  excludes := ⟨fun _ => rfl, fun _ => rfl, nofun⟩
  flag := fun _ => ⟨nofun, fun h => absurd rfl h⟩
  only := fun _ => rfl
  place := nofun
  outside := fun _ _ _ => List.not_mem_nil

/-! ## what the functions do -/

/-- the primitive was free and is now held by `t` -/
structure Takes (c : Class) (p : Prim Tid) (t : Tid) (p' : Prim Tid) : Prop where
  free : p.Free
  writers : p'.writers = [t]
  readers : p'.readers = []
  flag : Spins c → p'.flag = true

theorem exchange_spec (h : Inv c s) (hc : Spins c) (t : Tid) :
    ((s.prim.exchange t).1 = true ∧ (s.prim.exchange t).2 = s.prim) ∨
      ((s.prim.exchange t).1 = false ∧ Takes c s.prim t (s.prim.exchange t).2) := by
  have hr : s.prim.readers = [] := h.only (by rcases hc with rfl | rfl <;> nofun)
  have hf := h.flag hc
  obtain ⟨⟨flag, writers, readers⟩, pc, ex, sh⟩ := s
  cases flag with
  | true => exact .inl ⟨rfl, rfl⟩
  | false =>
    have hw : writers = [] := by
      by_contra hne
      exact Bool.false_ne_true (hf.mpr hne)
    refine .inr ⟨rfl, ⟨hw, hr⟩, ?_, hr, fun _ => rfl⟩
    show t :: writers = [t]
    rw [hw]

theorem wrlock_spec (hc : ¬ Spins c) (h : p.wrlock t = some p') : Takes c p t p' := by
  obtain ⟨hf, h⟩ := Option.ite_none_right_eq_some.mp h
  rw [← Option.some.inj h]
  exact ⟨hf, rfl, hf.2, fun hs => absurd hs hc⟩

theorem trywrlock_spec (hc : ¬ Spins c) (p : Prim Tid) (t : Tid) :
    ((p.trywrlock t).1 = 0 ∧ Takes c p t (p.trywrlock t).2) ∨
      ((p.trywrlock t).1 = EBUSY ∧ (p.trywrlock t).2 = p) := by
  rw [Prim.trywrlock]
  split
  · rename_i hf
    exact .inl ⟨rfl, hf, rfl, hf.2, fun hs => absurd hs hc⟩
  · exact .inr ⟨rfl, rfl⟩

theorem not_spins_mutex : ¬ Spins .MutexBase := by rintro (h | h) <;> cases h

theorem not_spins_spin : ¬ Spins .PosixSpinLock := by rintro (h | h) <;> cases h

theorem not_spins_rw : ¬ Spins .PosixRWLock := by rintro (h | h) <;> cases h

/-- what one step in `lock` may do -/
def LockOk (c : Class) (p : Prim Tid) (t : Tid) : Outcome Tid → Prop
  | .goOn p' pc => p' = p ∧ pc ≠ .lockingShared
  | .returned p' => Takes c p t p'

theorem wrlock_ok (hc : ¬ Spins c) {o : Outcome Tid}
    (h : (p.wrlock t).map Outcome.returned = some o) : LockOk c p t o := by
  obtain ⟨p', hp, rfl⟩ := Option.map_eq_some_iff.mp h
  exact wrlock_spec hc hp

theorem rwlock_wrlock_ok (ht : t ∉ p.writers) {o : Outcome Tid}
    (h : (p.rwlock_wrlock t).map (fun r => Outcome.returned r.2) = some o) :
    LockOk .PosixRWLock p t o := by
  obtain ⟨r, hr, rfl⟩ := Option.map_eq_some_iff.mp h
  rw [Prim.rwlock_wrlock, if_neg ht] at hr
  obtain ⟨p', hp, rfl⟩ := Option.map_eq_some_iff.mp hr
  exact wrlock_spec not_spins_rw hp

/-- **`lock` goes on with the primitive as it is, or returns with it taken.** -/
theorem lock_spec (h : Inv c s) (hpc : s.pc t ≠ .idle) {o : Outcome Tid}
    (ho : lock s.prim t c = some o) : LockOk c s.prim t o := by
  cases c with
  | MutexBase => exact wrlock_ok not_spins_mutex ho
  | SimpleSpinLock =>
    rcases exchange_spec h (.inl rfl) t with ⟨h1, h2⟩ | ⟨h1, h2⟩
    · rw [lock, if_pos h1] at ho
      exact Option.some.inj ho ▸ ⟨h2, nofun⟩
    · rw [lock, if_neg (by rw [h1]; exact Bool.false_ne_true)] at ho
      exact Option.some.inj ho ▸ h2
  | AtomicSpinLock =>
    rcases exchange_spec h (.inr rfl) t with ⟨h1, h2⟩ | ⟨h1, h2⟩
    · rw [lock, if_neg (by rw [h1]; exact Bool.false_ne_true)] at ho
      exact Option.some.inj ho ▸ ⟨h2, nofun⟩
    · rw [lock, if_pos (by rw [h1]; rfl)] at ho
      exact Option.some.inj ho ▸ h2
  | PosixSpinLock => exact wrlock_ok not_spins_spin ho
  | PosixRWLock => exact rwlock_wrlock_ok (h.outside rfl t hpc) ho

/-- **`lock_shared` returns with a share.** -/
theorem lock_shared_spec (ht : t ∉ p.writers) (h : lock_shared p t = some p') :
    p.writers = [] ∧ p' = { p with readers := t :: p.readers } := by
  obtain ⟨r, hr, rfl⟩ := Option.map_eq_some_iff.mp h
  rw [Prim.rwlock_rdlock, if_neg ht] at hr
  obtain ⟨hw, hr⟩ := Option.ite_none_right_eq_some.mp hr
  rw [← Option.some.inj hr]
  exact ⟨hw, rfl⟩

/-- **`try_lock` tells whether it took the primitive.** -/
theorem try_lock_spec (h : Inv c s) (hc : c ≠ .PosixSpinLock) (t : Tid) :
    ((try_lock s.prim t c).1 = true ∧ Takes c s.prim t (try_lock s.prim t c).2) ∨
      ((try_lock s.prim t c).1 = false ∧ (try_lock s.prim t c).2 = s.prim) := by
  cases c with
  | MutexBase =>
    rcases trywrlock_spec not_spins_mutex s.prim t with ⟨h1, h2⟩ | ⟨h1, h2⟩
    · exact .inl ⟨by rw [try_lock, h1]; rfl, h2⟩
    · exact .inr ⟨by rw [try_lock, h1]; rfl, h2⟩
  | SimpleSpinLock =>
    rcases exchange_spec h (.inl rfl) t with ⟨h1, h2⟩ | ⟨h1, h2⟩
    · exact .inr ⟨by rw [try_lock, h1]; rfl, h2⟩
    · exact .inl ⟨by rw [try_lock, h1]; rfl, h2⟩
  | AtomicSpinLock =>
    rcases exchange_spec h (.inr rfl) t with ⟨h1, h2⟩ | ⟨h1, h2⟩
    · exact .inr ⟨by rw [try_lock, h1]; rfl, h2⟩
    · exact .inl ⟨by rw [try_lock, h1]; rfl, h2⟩
  | PosixSpinLock => exact absurd rfl hc
  | PosixRWLock =>
    rcases trywrlock_spec not_spins_rw s.prim t with ⟨h1, h2⟩ | ⟨h1, h2⟩
    · rw [try_lock, if_neg (by rw [h1]; exact (show 0 ≠ EBUSY by decide))]
      exact .inl ⟨rfl, h2⟩
    · rw [try_lock, if_pos h1]
      exact .inr ⟨rfl, h2⟩

/-- **`unlock` by a thread that was told to hold it frees the primitive.** -/
theorem unlock_spec (h : Inv c s) (ht : 0 < s.exclusive t) (hu : unlock s.prim t c = some p') :
    p'.Free ∧ (Spins c → p'.flag = false) := by
  have hm : t ∈ s.prim.writers := List.count_pos_iff.mp (h.excludes.exclusive t ▸ ht)
  obtain ⟨hw, hr⟩ := h.excludes.alone t hm
  have he : s.prim.writers.erase t = [] := by rw [hw, List.erase_cons_head]
  have posix (hc : ¬ Spins c) (hu : s.prim.unlock t = some p') :
      p'.Free ∧ (Spins c → p'.flag = false) := by
    rw [Prim.unlock, if_pos hm] at hu
    rw [← Option.some.inj hu]
    exact ⟨⟨he, hr⟩, fun hs => absurd hs hc⟩
  cases c with
  | MutexBase => exact posix not_spins_mutex hu
  | SimpleSpinLock =>
    rw [← Option.some.inj hu]
    exact ⟨⟨he, hr⟩, fun _ => rfl⟩
  | AtomicSpinLock =>
    rw [← Option.some.inj hu]
    exact ⟨⟨he, hr⟩, fun _ => rfl⟩
  | PosixSpinLock => exact posix not_spins_spin hu
  | PosixRWLock => exact posix not_spins_rw hu

/-- `unlock_shared` by a thread that was told to share it drops one of its shares -/
theorem unlock_shared_spec (h : Inv c s) (ht : 0 < s.shared t)
    (hu : unlock_shared s.prim t = some p') :
    s.prim.writers = [] ∧ p' = { s.prim with readers := s.prim.readers.erase t } := by
  have hm : t ∈ s.prim.readers := List.count_pos_iff.mp (h.excludes.shared t ▸ ht)
  have hw : s.prim.writers = [] := by
    refine List.eq_nil_iff_forall_not_mem.mpr fun u hu => ?_
    rw [(h.excludes.alone u hu).2] at hm
    exact List.not_mem_nil hm
  refine ⟨hw, ?_⟩
  rw [unlock_shared, Prim.unlock, if_neg (by rw [hw]; exact List.not_mem_nil), if_pos hm] at hu
  exact (Option.some.inj hu).symm

/-! ## what a step keeps -/

theorem alone_of_nil (hw : p.writers = []) (q : List Tid) :
    ∀ u ∈ p.writers, p.writers = [u] ∧ q = [] := by
  rw [hw]
  exact nofun

namespace Inv

theorem place_update (h : Inv c s) {pc : Pc} (hpc : pc = .lockingShared → c = .PosixRWLock)
    (t u : Tid) (hu : Function.update s.pc t pc u = .lockingShared) : c = .PosixRWLock := by
  obtain rfl | hne := eq_or_ne u t
  · rw [Function.update_self] at hu
    exact hpc hu
  · rw [Function.update_of_ne hne] at hu
    exact h.place u hu

theorem goto (h : Inv c s) (t : Tid) {pc : Pc} (hpc : pc = .lockingShared → c = .PosixRWLock)
    (hout : c = .PosixRWLock → pc ≠ .idle → t ∉ s.prim.writers) : Inv c (s.goto t pc s.prim) where
  excludes := ⟨h.excludes.exclusive, h.excludes.shared, h.excludes.alone⟩
  flag := h.flag
  only := h.only
  place := h.place_update hpc t
  outside := fun hc u hu => by
    have hu : Function.update s.pc t pc u ≠ .idle := hu
    obtain rfl | hne := eq_or_ne u t
    · rw [Function.update_self] at hu
      exact hout hc hu
    · rw [Function.update_of_ne hne] at hu
      exact h.outside hc u hu

theorem goOn (h : Inv c s) (hin : s.pc t ≠ .idle) {pc : Pc} (hpc : pc ≠ .lockingShared) :
    Inv c (s.goto t pc s.prim) :=
  h.goto t (fun hp => absurd hp hpc) fun hc _ => h.outside hc t hin

theorem free (h : Inv c s) (hf : s.prim.Free) (u : Tid) : s.exclusive u = 0 ∧ s.shared u = 0 := by
  rw [h.excludes.exclusive, h.excludes.shared, hf.1, hf.2]
  exact ⟨rfl, rfl⟩

theorem acquire (h : Inv c s) (ht : Takes c s.prim t p') :
    Inv c ((s.goto t .idle p').told t true) where
  excludes := by
    refine ⟨fun u => ?_, fun u => ?_, fun u hu => ?_⟩
    · show Function.update s.exclusive t (s.exclusive t + 1) u = p'.writers.count u
      rw [ht.writers, (h.free ht.free t).1]
      obtain rfl | hne := eq_or_ne u t
      · rw [Function.update_self, List.count_cons_self, List.count_nil]
      · rw [Function.update_of_ne hne, (h.free ht.free u).1,
          List.count_cons_of_ne hne.symm, List.count_nil]
    · show s.shared u = p'.readers.count u
      rw [ht.readers, (h.free ht.free u).2, List.count_nil]
    · have hu : u ∈ p'.writers := hu
      rw [ht.writers, List.mem_singleton] at hu
      subst hu
      exact ⟨ht.writers, ht.readers⟩
  flag := fun hc => ⟨fun _ => by
    show p'.writers ≠ []
    rw [ht.writers]
    exact List.cons_ne_nil t [], fun _ => ht.flag hc⟩
  only := fun _ => ht.readers
  place := h.place_update (show Pc.idle = .lockingShared → _ from nofun) t
  outside := fun _ u hu hm => by
    have hm : u ∈ p'.writers := hm
    rw [ht.writers, List.mem_singleton] at hm
    subst hm
    exact hu (Function.update_self ..)

theorem acquireShared (h : Inv .PosixRWLock s) (hw : s.prim.writers = []) (t : Tid) :
    Inv .PosixRWLock
      ((s.goto t .idle { s.prim with readers := t :: s.prim.readers }).toldShared t true) where
  excludes := by
    refine ⟨h.excludes.exclusive, fun u => ?_, alone_of_nil hw _⟩
    show Function.update s.shared t (s.shared t + 1) u = (t :: s.prim.readers).count u
    obtain rfl | hne := eq_or_ne u t
    · rw [Function.update_self, List.count_cons_self, h.excludes.shared]
    · rw [Function.update_of_ne hne, List.count_cons_of_ne hne.symm, h.excludes.shared]
  flag := fun hc => absurd hc not_spins_rw
  only := fun hc => absurd rfl hc
  place := fun _ _ => rfl
  outside := fun _ u _ hm => by
    have hm : u ∈ s.prim.writers := hm
    rw [hw] at hm
    exact List.not_mem_nil hm

theorem release (h : Inv c s) (ht : 0 < s.exclusive t) (hf : p'.Free)
    (hflag : Spins c → p'.flag = false) :
    Inv c { s with prim := p', exclusive := Function.update s.exclusive t (s.exclusive t - 1) } where
  excludes := by
    have hm : t ∈ s.prim.writers := List.count_pos_iff.mp (h.excludes.exclusive t ▸ ht)
    obtain ⟨hw, hr⟩ := h.excludes.alone t hm
    refine ⟨fun u => ?_, fun u => ?_, alone_of_nil hf.1 _⟩
    · show Function.update s.exclusive t (s.exclusive t - 1) u = p'.writers.count u
      rw [hf.1, List.count_nil]
      obtain rfl | hne := eq_or_ne u t
      · rw [Function.update_self, h.excludes.exclusive, hw, List.count_cons_self, List.count_nil]
      · rw [Function.update_of_ne hne, h.excludes.exclusive, hw,
          List.count_cons_of_ne hne.symm, List.count_nil]
    · show s.shared u = p'.readers.count u
      rw [h.excludes.shared, hr, hf.2]
  flag := fun hc => by
    show p'.flag = true ↔ p'.writers ≠ []
    rw [hflag hc, hf.1]
    exact ⟨nofun, fun hn => absurd rfl hn⟩
  only := fun _ => hf.2
  place := h.place
  outside := fun _ u _ hm => by
    have hm : u ∈ p'.writers := hm
    rw [hf.1] at hm
    exact List.not_mem_nil hm

theorem releaseShared (h : Inv .PosixRWLock s) (ht : 0 < s.shared t)
    (hw : s.prim.writers = []) :
    Inv .PosixRWLock { s with
      prim := { s.prim with readers := s.prim.readers.erase t }
      shared := Function.update s.shared t (s.shared t - 1) } where
  excludes := by
    refine ⟨h.excludes.exclusive, fun u => ?_, alone_of_nil hw _⟩
    show Function.update s.shared t (s.shared t - 1) u = (s.prim.readers.erase t).count u
    obtain rfl | hne := eq_or_ne u t
    · rw [Function.update_self, h.excludes.shared, List.count_erase_self]
    · rw [Function.update_of_ne hne, List.count_erase_of_ne hne, h.excludes.shared]
  flag := fun hc => absurd hc not_spins_rw
  only := fun hc => absurd rfl hc
  place := h.place
  outside := h.outside

end Inv

/-- **A step that meets `Honest` keeps the invariant.** -/
theorem inv_step {a : Act Tid} (h : Inv c s) (hok : Honest c s a)
    (hst : step c s a = some s') : Inv c s' := by
  cases a with
  | lock t =>
    obtain ⟨-, hst⟩ := Option.ite_none_right_eq_some.mp hst
    rw [← Option.some.inj hst]
    exact h.goto t nofun fun hc _ => hok hc
  | lock_shared t =>
    obtain ⟨hc, hst⟩ := Option.ite_none_right_eq_some.mp hst
    rw [← Option.some.inj hst]
    exact h.goto t (fun _ => hc.1) fun _ _ => hok
  | run t =>
    have hrun : run c s t = some s' := hst
    rw [run] at hrun
    split at hrun
    · cases hrun
    · rename_i hpc
      have hin : s.pc t ≠ .idle := by rw [hpc]; exact nofun
      obtain ⟨o, ho, rfl⟩ := Option.map_eq_some_iff.mp hrun
      have hspec := lock_spec h hin ho
      cases o with
      | goOn p pc =>
        obtain ⟨rfl, hpc⟩ : p = s.prim ∧ _ := hspec
        exact h.goOn hin hpc
      | returned p => exact h.acquire hspec
    · rename_i hpc
      rw [← Option.some.inj hrun]
      exact h.goOn (by rw [hpc]; exact nofun) (by split <;> exact nofun)
    · rename_i hpc
      obtain rfl := h.place t hpc
      obtain ⟨p, hp, rfl⟩ := Option.map_eq_some_iff.mp hrun
      obtain ⟨hw, rfl⟩ := lock_shared_spec (h.outside rfl t (by rw [hpc]; exact nofun)) hp
      exact h.acquireShared hw t
  | EAGAIN t =>
    obtain ⟨hpc, -⟩ := Option.ite_none_right_eq_some.mp hst
    exact absurd (h.place t hpc) hok
  | try_lock t =>
    obtain ⟨-, hst⟩ := Option.ite_none_right_eq_some.mp hst
    rw [← Option.some.inj hst]
    rcases try_lock_spec h hok t with ⟨h1, h2⟩ | ⟨h1, h2⟩
    · rw [h1]
      exact h.acquire h2
    · rw [h1, h2]
      exact h.goto t nofun fun _ hne => absurd rfl hne
  | try_lock_shared t waiting =>
    obtain ⟨⟨hc, -⟩, -⟩ := Option.ite_none_right_eq_some.mp hst
    exact absurd hc hok
  | unlock t =>
    obtain ⟨⟨-, ht⟩, hst⟩ := Option.ite_none_right_eq_some.mp hst
    obtain ⟨p, hp, rfl⟩ := Option.map_eq_some_iff.mp hst
    obtain ⟨hf, hflag⟩ := unlock_spec h ht hp
    exact h.release ht hf hflag
  | unlock_shared t =>
    obtain ⟨⟨rfl, -, ht⟩, hmap⟩ := Option.ite_none_right_eq_some.mp hst
    obtain ⟨p, hp, rfl⟩ := Option.map_eq_some_iff.mp hmap
    obtain ⟨hw, rfl⟩ := unlock_shared_spec h ht hp
    exact h.releaseShared ht hw

theorem inv_reach (hr : (machine c).Reach (Honest c) s) : Inv c s :=
  hr.inv (inv_start c) fun _ _ _ h hok hst => inv_step h hok hst

/-- **What the threads were told is what they hold, and a thread that holds the lock exclusively is
the only one**, in every state of every run of such calls. -/
theorem excludes_reach (hr : (machine c).Reach (Honest c) s) : Excludes s :=
  (inv_reach hr).excludes

/-- thread 0 writes, then both threads read and nobody can write -/
theorem excludes_reach_run : ∃ s : State (Fin 2),
    (machine .PosixRWLock).Reach (Honest .PosixRWLock) s ∧ Excludes s ∧
      s.prim.readers = [1, 0] ∧ s.exclusive 1 = 0 := by
  have h : ((machine .PosixRWLock).execIf (Honest .PosixRWLock) (start : State (Fin 2))
      [.lock 0, .run 0, .unlock 0, .lock_shared 0, .run 0, .lock_shared 1, .run 1, .try_lock 1]).map
      (fun s => (s.prim.readers, s.exclusive 1)) = some ([1, 0], 0) := by decide
  obtain ⟨s, hs, he⟩ := Option.map_eq_some_iff.mp h
  have hr := Machine.Reach.of_execIf _ .init hs
  exact ⟨s, hr, excludes_reach hr, congrArg Prod.fst he, congrArg Prod.snd he⟩

/-- three classes need no condition -/
theorem excludes_every_run (hspin : c ≠ .PosixSpinLock) (hrw : c ≠ .PosixRWLock)
    (hr : (machine c).Reachable s) : Excludes s := by
  have hinv : Inv c s := hr.inv (inv_start c) fun s a s' h _ hst => by
    refine inv_step h ?_ hst
    cases a with
    | lock t => exact fun hc => absurd hc hrw
    | lock_shared t => exact absurd (Option.ite_none_right_eq_some.mp hst).1.1 hrw
    | EAGAIN t => exact hrw
    | try_lock t => exact hspin
    | try_lock_shared t waiting => exact hrw
    | _ => trivial
  exact hinv.excludes

/-! ## the other calls -/

/-- a thread is told that it has the lock, and the primitive stays as it is -/
theorem told_breaks (h : Excludes s) (t : Tid) : ¬ Excludes ((s.goto t .idle s.prim).told t true) := by
  intro he
  have hc : Function.update s.exclusive t (s.exclusive t + 1) t = s.prim.writers.count t :=
    he.exclusive t
  rw [Function.update_self, h.exclusive] at hc
  omega

theorem toldShared_breaks (h : Excludes s) (t : Tid) :
    ¬ Excludes ((s.goto t .idle s.prim).toldShared t true) := by
  intro he
  have hc : Function.update s.shared t (s.shared t + 1) t = s.prim.readers.count t := he.shared t
  rw [Function.update_self, h.shared] at hc
  omega

theorem excludes_goto (h : Excludes s) (t : Tid) (pc : Pc) : Excludes (s.goto t pc s.prim) :=
  ⟨h.exclusive, h.shared, h.alone⟩

theorem spin_try_lock_breaks {s : State Tid} (h : Inv .PosixSpinLock s) (t : Tid) :
    ¬ Excludes ((s.goto t .idle (try_lock s.prim t .PosixSpinLock).2).told t
      (try_lock s.prim t .PosixSpinLock).1) := by
  rcases trywrlock_spec not_spins_spin s.prim t with ⟨h1, h2⟩ | ⟨h1, h2⟩
  · -- acquired, and told that it is not
    intro he
    have hc := he.exclusive t
    rw [try_lock, if_neg (by rw [h1]; exact fun hn => hn rfl)] at hc
    have hc : s.exclusive t = (s.prim.trywrlock t).2.writers.count t := hc
    rw [h2.writers, (h.free h2.free t).1, List.count_cons_self] at hc
    omega
  · rw [try_lock, if_pos (by rw [h1]; exact (show EBUSY ≠ 0 by decide)), h2]
    exact told_breaks h.excludes t

theorem rw_try_lock_shared_breaks {s : State Tid} (h : Inv .PosixRWLock s) (t : Tid)
    (waiting : Option Tid) :
    ¬ Excludes ((s.goto t .idle (try_lock_shared s.prim t waiting).2).toldShared t
      (try_lock_shared s.prim t waiting).1) := by
  rw [try_lock_shared, Prim.tryrdlock]
  split
  · intro he
    have hc : s.shared t = (t :: s.prim.readers).count t := he.shared t
    rw [List.count_cons_self, h.excludes.shared] at hc
    omega
  · exact toldShared_breaks h.excludes t

/-- **Every other call breaks it**, at once or with the next step of the thread: the two functions
whether the lock is free or held, and `lock` and `lock_shared` when they return with an error. -/
theorem dishonest_breaks {a : Act Tid} (hr : (machine c).Reach (Honest c) s) (ha : ¬ Honest c s a)
    (hst : (machine c).step s a = some s') :
    ∃ as s'', as.length ≤ 1 ∧ (machine c).exec s' as = some s'' ∧ ¬ Excludes s'' := by
  have h := inv_reach hr
  cases a with
  | lock t =>
    obtain ⟨rfl, ht⟩ := Classical.not_imp.mp ha
    obtain ⟨-, hst⟩ := Option.ite_none_right_eq_some.mp hst
    obtain rfl := Option.some.inj hst
    have hlock : lock s.prim t .PosixRWLock = some (.returned s.prim) := by
      rw [lock, Prim.rwlock_wrlock, if_pos (not_not.mp ht)]
      rfl
    have hrun : run .PosixRWLock (s.goto t .locking s.prim) t =
        some (((s.goto t .locking s.prim).goto t .idle s.prim).told t true) := by
      rw [run, show (s.goto t .locking s.prim).pc t = .locking from Function.update_self ..]
      exact congrArg (Option.map _) hlock
    exact ⟨[.run t], _, Nat.le_refl 1, congrArg (fun o => o.bind some) hrun,
      told_breaks (excludes_goto h.excludes t _) t⟩
  | lock_shared t =>
    obtain ⟨⟨rfl, -⟩, hgo⟩ := Option.ite_none_right_eq_some.mp hst
    obtain rfl := Option.some.inj hgo
    have hlock : lock_shared s.prim t = some s.prim := by
      rw [lock_shared, Prim.rwlock_rdlock, if_pos (not_not.mp ha)]
      rfl
    have hrun : run .PosixRWLock (s.goto t .lockingShared s.prim) t =
        some (((s.goto t .lockingShared s.prim).goto t .idle s.prim).toldShared t true) := by
      rw [run,
        show (s.goto t .lockingShared s.prim).pc t = .lockingShared from Function.update_self ..]
      exact congrArg (Option.map _) hlock
    exact ⟨[.run t], _, Nat.le_refl 1, congrArg (fun o => o.bind some) hrun,
      toldShared_breaks (excludes_goto h.excludes t _) t⟩
  | EAGAIN t =>
    obtain ⟨-, hst⟩ := Option.ite_none_right_eq_some.mp hst
    rw [← Option.some.inj hst]
    exact ⟨[], _, Nat.zero_le 1, rfl, toldShared_breaks h.excludes t⟩
  | try_lock t =>
    obtain rfl : c = .PosixSpinLock := not_not.mp ha
    obtain ⟨-, hst⟩ := Option.ite_none_right_eq_some.mp hst
    rw [← Option.some.inj hst]
    exact ⟨[], _, Nat.zero_le 1, rfl, spin_try_lock_breaks h t⟩
  | try_lock_shared t waiting =>
    obtain rfl : c = .PosixRWLock := not_not.mp ha
    obtain ⟨-, hst⟩ := Option.ite_none_right_eq_some.mp hst
    rw [← Option.some.inj hst]
    exact ⟨[], _, Nat.zero_le 1, rfl, rw_try_lock_shared_breaks h t waiting⟩
  | run t => exact absurd trivial ha
  | unlock t => exact absurd trivial ha
  | unlock_shared t => exact absurd trivial ha

/-- with these functions it fails: one call on a free lock -/
theorem not_excludes :
    (¬ ∀ s : State (Fin 2), (machine .PosixSpinLock).Reachable s → Excludes s) ∧
      ¬ ∀ s : State (Fin 2), (machine .PosixRWLock).Reachable s → Excludes s := by
  refine ⟨fun h => ?_, fun h => ?_⟩
  · exact spin_try_lock_breaks (inv_start _) 0 (h _ (Machine.Reach.step (l := .try_lock 0)
      .init trivial rfl))
  · exact rw_try_lock_shared_breaks (inv_start _) 0 none (h _ (Machine.Reach.step
      (l := .try_lock_shared 0 none) .init trivial rfl))

end Locks
end CppCores
