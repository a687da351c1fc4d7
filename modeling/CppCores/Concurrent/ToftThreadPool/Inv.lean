import Mathlib.Data.Finset.Card
import Mathlib.Data.Finset.Range
import Mathlib.Tactic.Common
import CppCores.Concurrent.ToftThreadPool.Worker

/-!
# ToftThreadPool: the invariant of the pool

* `step_cases`     what one step of the pool can do;
* `Working`        every worker is as in `Worker.Ok` and `Worker.Logged`;
* `Adding`         the calls to `AddTask` and what they have added;
* `Terminating`    `Terminate`, the `exit` flags and `m_num_busy_threads`.

Each is kept by every step (`Inv.step`), hence holds in every state reached (`inv_reach`).
-/

namespace CppCores
namespace ToftPool

set_option linter.unusedSectionVars false

variable {Id : Type*} [DecidableEq Id] {n : ℕ} {s s' : State Id} {a : Act Id}

/-- the steps of the pool, one constructor for each kind -/
inductive Step (n : ℕ) (s : State Id) : Act Id → State Id → Prop
  | call {id : Id} (key : ℕ) : s.adder id = .idle →
      Step n s (.addTask id key) (s.adderAt id (if s.m_exit then .returned else .index key))
  | index {id : Id} {key : ℕ} : s.adder id = .index key → s.m_num_threads ≠ 0 →
      Step n s (.adder id) (s.adderAt id (.push key (key % s.m_num_threads)))
  | push {id : Id} {key w : ℕ} : s.adder id = .push key w → s.Contexts →
      Step n s (.adder id) ((((s.setWorker w ((s.worker w).push id).notify).record
        [.added id key]).addReturned id).adderAt id .returned)
  | crash (id : Id) : s.m_num_threads = 0 ∨ ¬ s.Contexts → Step n s (.adder id) s.crash
  | next {w : ℕ} {c : Worker Id} {l : List (Event Id)} : w < n → (s.worker w).Next w c l →
      Step n s (.worker w) ((s.setWorker w c).record l)
  | leave {w : ℕ} : w < n → (s.worker w).pc = .leave → s.terminator.locked = false →
      Step n s (.worker w) (s.setWorker w ((s.worker w).goto .gone)).unbusy
  | spurious {w : ℕ} : w < n → (s.worker w).pc = .asleep →
      Step n s (.spurious w) (s.setWorker w (s.worker w).notify)
  | flagAll : s.terminator = .idle → Step n s .terminate (s.setExit.termAt (.flagging 0))
  | flag {i : ℕ} : s.terminator = .flagging i → i < s.m_num_threads →
      Step n s .terminate
        ((s.setWorker i (s.worker i).setExit.notify).termAt (.flagging (i + 1)))
  | flagged {i : ℕ} : s.terminator = .flagging i → s.m_num_threads ≤ i →
      Step n s .terminate (testIdle s)
  | recheck : s.terminator = .recheck → Step n s .terminate (testIdle s)
  | join {i : ℕ} : s.terminator = .joining i → i < s.m_num_threads →
      (s.worker i).pc = .gone → Step n s .terminate (s.termAt (.joining (i + 1)))
  | joined {i : ℕ} : s.terminator = .joining i → s.m_num_threads ≤ i →
      Step n s .terminate (s.termAt .deleted)
  | deleted : s.terminator = .deleted →
      Step n s .terminate ((s.setNumThreads 0).termAt .returned)
  | spuriousTerminate : s.terminator = .waiting → Step n s .spuriousTerminate (s.termAt .recheck)

theorem stepAdder_cases {id : Id} (h : stepAdder s id = some s') : Step n s (.adder id) s' := by
  unfold stepAdder at h
  split at h
  · cases h
  · next key hp =>
    split at h
    · next h0 =>
      obtain rfl := Option.some.inj h
      exact .crash id (.inl h0)
    · next h0 =>
      obtain rfl := Option.some.inj h
      exact .index hp h0
  · next key w hp =>
    split at h
    · next hc =>
      obtain rfl := Option.some.inj h
      exact .push hp hc
    · next hc =>
      obtain rfl := Option.some.inj h
      exact .crash id (.inr hc)
  · cases h

theorem stepWorker_cases {w : ℕ} (h : stepWorker n s w = some s') : Step n s (.worker w) s' := by
  obtain ⟨hw, h⟩ := Option.ite_none_right_eq_some.mp h
  split at h
  · next hp =>
    obtain ⟨hl, h⟩ := Option.ite_none_left_eq_some.mp h
    obtain rfl := Option.some.inj h
    exact .leave hw hp (eq_false_of_ne_true hl)
  · obtain ⟨⟨c, l⟩, hn, rfl⟩ := Option.map_eq_some_iff.mp h
    exact .next hw (Worker.next_cases hn)

theorem stepTerminate_cases (h : stepTerminate s = some s') : Step n s .terminate s' := by
  unfold stepTerminate at h
  split at h
  · next hp =>
    obtain rfl := Option.some.inj h
    exact .flagAll hp
  · next i hp =>
    split at h
    · next hi =>
      obtain rfl := Option.some.inj h
      exact .flag hp hi
    · next hi =>
      obtain rfl := Option.some.inj h
      exact .flagged hp (Nat.le_of_not_lt hi)
  · cases h
  · next hp =>
    obtain rfl := Option.some.inj h
    exact .recheck hp
  · next i hp =>
    split at h
    · next hi =>
      obtain ⟨hg, h⟩ := Option.ite_none_right_eq_some.mp h
      obtain rfl := Option.some.inj h
      exact .join hp hi hg
    · next hi =>
      obtain rfl := Option.some.inj h
      exact .joined hp (Nat.le_of_not_lt hi)
  · next hp =>
    obtain rfl := Option.some.inj h
    exact .deleted hp
  · cases h

theorem step_cases (h : step n s a = some s') : s.crashed = false ∧ Step n s a s' := by
  obtain ⟨hc, h⟩ := Option.ite_none_left_eq_some.mp h
  refine ⟨eq_false_of_ne_true hc, ?_⟩
  cases a with
  | addTask id key =>
    obtain ⟨hp, h⟩ := Option.ite_none_right_eq_some.mp h
    obtain rfl := Option.some.inj h
    exact .call key hp
  | adder id => exact stepAdder_cases h
  | worker w => exact stepWorker_cases h
  | spurious w =>
    obtain ⟨hp, h⟩ := Option.ite_none_right_eq_some.mp h
    obtain rfl := Option.some.inj h
    exact .spurious hp.1 hp.2
  | terminate => exact stepTerminate_cases h
  | spuriousTerminate =>
    obtain ⟨hp, h⟩ := Option.ite_none_right_eq_some.mp h
    obtain rfl := Option.some.inj h
    exact .spuriousTerminate hp

/-! ## the three parts of the invariant -/

structure Working (n : ℕ) (s : State Id) : Prop where
  ok : ∀ w, (s.worker w).Ok s.early
  logged : ∀ w, (s.worker w).Logged (ofWorker n w s.log)

structure Adding (n : ℕ) (s : State Id) : Prop where
  keyed : ∀ id key w, s.adder id = .push key w → w = key % n
  owner : ∀ e ∈ s.log, e.worker n < n
  nodup : (addedIds s.log).Nodup
  done : ∀ id ∈ addedIds s.log, s.adder id = .returned
  returned : s.returned = addedIds s.log
  early : s.early ⊆ addedIds s.log
  /-- before `Terminate` every call that has returned has added its task -/
  accepted : s.m_exit = false → ∀ id, s.adder id = .returned → id ∈ addedIds s.log

namespace TermPc

/-- `exit` of the context `w` has been set -/
def flags (w : ℕ) : TermPc → Prop
  | .idle => False
  | .flagging i => w < i
  | .waiting | .recheck | .joining _ | .deleted | .returned => True

/-- the wait is over -/
def joins : TermPc → Bool
  | .idle | .flagging _ | .waiting | .recheck => false
  | .joining _ | .deleted | .returned => true

end TermPc

/-- the workers that have not left -/
def inside (n : ℕ) (s : State Id) : Finset ℕ :=
  (Finset.range n).filter fun w => (s.worker w).pc ≠ .gone

structure Terminating (n : ℕ) (s : State Id) : Prop where
  exits : ∀ w, (s.worker w).exit = true → s.m_exit = true
  begun : s.m_exit = false ↔ s.terminator = .idle
  flagged : ∀ w < n, s.terminator.flags w → (s.worker w).exit = true
  busy : s.m_num_busy_threads = (inside n s).card
  waits : s.terminator = .waiting → s.m_num_busy_threads ≠ 0
  empty : s.terminator.joins → s.m_num_busy_threads = 0
  threads : s.m_num_threads = if s.terminator = .returned then 0 else n
  crashed : s.crashed = true → s.terminator.joins

structure Inv (n : ℕ) (s : State Id) : Prop where
  working : Working n s
  adding : Adding n s
  terminating : Terminating n s

/-! ## the workers -/

theorem Working.setWorker {w : ℕ} {c : Worker Id} {l : List (Event Id)} (h : Working n s)
    (hc : c.Ok s.early) (ho : ∀ e ∈ l, e.worker n = w)
    (hl : c.Logged (ofWorker n w s.log ++ l)) : Working n ((s.setWorker w c).record l) where
  ok := (Function.forall_update_iff s.worker fun _ c => c.Ok s.early).mpr ⟨hc, fun v _ => h.ok v⟩
  logged := by
    apply (Function.forall_update_iff s.worker fun v c => c.Logged (ofWorker n v (s.log ++ l))).mpr
    constructor
    · rwa [ofWorker_append, ofWorker_self ho]
    · intro v hv
      rw [ofWorker_append, ofWorker_other ho hv, List.append_nil]
      exact h.logged v

theorem Working.setWorker_only {w : ℕ} {c : Worker Id} (h : Working n s) (hc : c.Ok s.early)
    (hl : c.Logged (ofWorker n w s.log)) : Working n (s.setWorker w c) := by
  have := Working.setWorker (l := []) h hc nofun (by rwa [List.append_nil])
  exact ⟨this.ok, fun v => by simpa [State.record] using this.logged v⟩

theorem Working.step (h : Working n s) (ha : Adding n s) (ht : Terminating n s)
    (hst : Step n s a s') : Working n s' := by
  cases hst with
  | call | index | crash | flagged | recheck | join | joined | deleted | spuriousTerminate =>
    exact ⟨h.ok, h.logged⟩
  | @push id key w hp =>
    have hid : id ∉ s.early := fun hm => by
      have := ha.done id (ha.early hm)
      rw [hp] at this
      cases this
    have ho : ∀ e ∈ [Event.added id key], e.worker n = w := fun e he => by
      rw [List.mem_singleton.mp he, ha.keyed id key w hp]
      rfl
    have := h.setWorker ((h.ok w).push hid) ho (h.logged w).push
    exact ⟨this.ok, this.logged⟩
  | @next w c l hw hn =>
    exact h.setWorker ((h.ok w).next hn) hn.own.1 ((h.logged w).next (h.ok w) hn)
  | @leave w hw hp =>
    have := h.setWorker_only ((h.ok w).gone hp) ((h.logged w).goto (by rw [hp]; rfl) rfl)
    exact ⟨this.ok, this.logged⟩
  | @spurious w => exact h.setWorker_only (h.ok w).notify (h.logged w).notify
  | flagAll hp =>
    -- the early calls are fixed here, while no worker has seen `exit`
    have he : ∀ w, (s.worker w).exit = false := fun w =>
      eq_false_of_ne_true fun h1 => by
        have := ht.exits w h1
        rw [ht.begun.mpr hp] at this
        cases this
    exact ⟨fun w => (h.ok w).of_not_exit (he w), h.logged⟩
  | @flag i =>
    have := h.setWorker_only (h.ok i).setExit (h.logged i).setExit
    exact ⟨this.ok, this.logged⟩

/-! ## the calls to `AddTask` -/

theorem adderAt_adder {id b : Id} {pc : AdderPc} :
    (s.adderAt id pc).adder b = if b = id then pc else s.adder b := by
  show Function.update s.adder id pc b = _
  rw [Function.update_apply]

theorem Adding.adderAt {id : Id} {pc : AdderPc} (h : Adding n s) (hp : s.adder id ≠ .returned)
    (hk : ∀ key w, pc = .push key w → w = key % n) (hr : s.m_exit = false → pc ≠ .returned) :
    Adding n (s.adderAt id pc) where
  keyed := fun b key w hb => by
    rw [adderAt_adder] at hb
    split at hb
    · exact hk key w hb
    · exact h.keyed b key w hb
  owner := h.owner
  nodup := h.nodup
  done := fun b hb => by
    rw [adderAt_adder, if_neg]
    · exact h.done b hb
    · intro heq
      subst heq
      exact hp (h.done b hb)
  returned := h.returned
  early := h.early
  accepted := fun he b hb => by
    rw [adderAt_adder] at hb
    split at hb
    · exact absurd hb (hr he)
    · exact h.accepted he b hb

theorem Adding.record {w : ℕ} {c : Worker Id} {l : List (Event Id)} (h : Adding n s)
    (ho : ∀ e ∈ l, e.worker n < n) (hl : addedIds l = []) :
    Adding n ((s.setWorker w c).record l) := by
  have hadd : addedIds (s.log ++ l) = addedIds s.log := by
    rw [addedIds_append, hl, List.append_nil]
  exact
    { keyed := h.keyed
      owner := fun e he => (List.mem_append.mp he).elim (h.owner e) (ho e)
      nodup := hadd ▸ h.nodup
      done := fun id hid => h.done id (hadd ▸ hid)
      returned := hadd ▸ h.returned
      early := hadd ▸ h.early
      accepted := fun he id hid => hadd ▸ h.accepted he id hid }

theorem Adding.push {id : Id} {key w : ℕ} {c : Worker Id} (h : Adding n s) (hn : 0 < n)
    (hp : s.adder id = .push key w) :
    Adding n ((((s.setWorker w c).record [.added id key]).addReturned id).adderAt id .returned) := by
  have hadd : addedIds (s.log ++ [Event.added id key]) = addedIds s.log ++ [id] := addedIds_append
  have hid : id ∉ addedIds s.log := fun hm => by
    have := h.done id hm
    rw [hp] at this
    cases this
  exact
    { keyed := fun b k v hb => by
        rw [adderAt_adder] at hb
        split at hb
        · cases hb
        · exact h.keyed b k v hb
      owner := fun e he => (List.mem_append.mp he).elim (h.owner e) fun he => by
        rw [List.mem_singleton.mp he]
        exact Nat.mod_lt key hn
      nodup := hadd ▸ List.nodup_append.mpr ⟨h.nodup, List.nodup_singleton id, fun b hb c hc => by
        rw [List.mem_singleton.mp hc]
        intro heq
        subst heq
        exact hid hb⟩
      done := fun b hb => by
        rw [adderAt_adder]
        split
        · rfl
        · next hne =>
          refine h.done b ((List.mem_append.mp (hadd ▸ hb)).resolve_right fun hb => ?_)
          exact hne (List.mem_singleton.mp hb)
      returned := hadd ▸ congrArg (· ++ [id]) h.returned
      early := hadd ▸ fun b hb => List.mem_append_left _ (h.early hb)
      accepted := fun he b hb => by
        show b ∈ addedIds (s.log ++ [Event.added id key])
        rw [hadd]
        by_cases hbi : b = id
        · exact List.mem_append_right _ (List.mem_singleton.mpr hbi)
        · rw [adderAt_adder, if_neg hbi] at hb
          exact List.mem_append_left _ (h.accepted he b hb) }

theorem Adding.step (h : Adding n s) (ht : Terminating n s) (hn : 0 < n) (hst : Step n s a s') :
    Adding n s' := by
  cases hst with
  | @call id key hp =>
    refine h.adderAt (by simp [hp]) ?_ ?_
    · intro k w hk
      split at hk <;> cases hk
    · intro he
      rw [he]
      nofun
  | @index id key hp h0 =>
    refine h.adderAt (by simp [hp]) ?_ (fun _ => nofun)
    intro k w hk
    obtain ⟨rfl, rfl⟩ := AdderPc.push.inj hk
    rw [ht.threads] at h0 ⊢
    split at h0
    · exact absurd rfl h0
    · next hr => rw [if_neg hr]
  | push hp => exact h.push hn hp
  | @next w c l hw hnx =>
    obtain ⟨ho, hl, -⟩ := hnx.own
    exact h.record (fun e he => (ho e he).trans_lt hw) hl
  | crash | leave | spurious | flag | flagged | recheck | join | joined | spuriousTerminate =>
    exact { h with }
  | flagAll => exact { h with early := h.returned ▸ List.Subset.refl _, accepted := nofun }
  | deleted => exact { h with }

/-! ## `Terminate` -/

theorem inside_congr (hg : ∀ w, (s'.worker w).pc = .gone ↔ (s.worker w).pc = .gone) :
    inside n s' = inside n s :=
  Finset.filter_congr fun w _ => not_congr (hg w)

theorem Terminating.exit_of_begun (h : Terminating n s) (hi : s.terminator ≠ .idle) :
    s.m_exit = true :=
  eq_true_of_ne_false fun hm => hi (h.begun.mp hm)

/-- a step that sets no `exit` and lets no worker go -/
theorem Terminating.frame (h : Terminating n s)
    (hx : ∀ w, (s'.worker w).exit = (s.worker w).exit)
    (hg : ∀ w, (s'.worker w).pc = .gone ↔ (s.worker w).pc = .gone)
    (ht : s'.terminator = s.terminator) (hm : s'.m_exit = s.m_exit)
    (hb : s'.m_num_busy_threads = s.m_num_busy_threads)
    (hn : s'.m_num_threads = s.m_num_threads) (hc : s'.crashed = s.crashed) : Terminating n s' where
  exits := fun w he => hm ▸ h.exits w (hx w ▸ he)
  begun := by rw [hm, ht, h.begun]
  flagged := fun w hw hf => by rw [hx, h.flagged w hw (ht ▸ hf)]
  busy := by rw [hb, inside_congr hg, h.busy]
  waits := by rw [ht, hb]; exact h.waits
  empty := by rw [ht, hb]; exact h.empty
  threads := by rw [hn, ht, h.threads]
  crashed := by rw [hc, ht]; exact h.crashed

theorem setWorker_worker {w v : ℕ} {c : Worker Id} :
    (s.setWorker w c).worker v = if v = w then c else s.worker v := by
  show Function.update s.worker w c v = _
  rw [Function.update_apply]

theorem Terminating.setWorker {w : ℕ} {c : Worker Id} (h : Terminating n s)
    (hx : c.exit = (s.worker w).exit) (hg : c.pc = .gone ↔ (s.worker w).pc = .gone) :
    Terminating n (s.setWorker w c) := by
  refine h.frame (fun v => ?_) (fun v => ?_) rfl rfl rfl rfl rfl
  · rw [setWorker_worker]
    split
    · next hv => rw [hv, hx]
    · rfl
  · rw [setWorker_worker]
    split
    · next hv => rw [hv, hg]
    · rfl

theorem Terminating.termAt {pc : TermPc} (h : Terminating n s) (hi : s.terminator ≠ .idle)
    (hr : s.terminator ≠ .returned) (hf : ∀ w < n, s.terminator.flags w) (hpc : pc ≠ .idle)
    (hpr : pc ≠ .returned) (hw : pc = .waiting → s.m_num_busy_threads ≠ 0)
    (he : pc.joins → s.m_num_busy_threads = 0) (hc : s.crashed = false) :
    Terminating n (s.termAt pc) where
  exits := h.exits
  begun := by
    refine ⟨fun hm => absurd (h.begun.mp hm) hi, fun hm => absurd hm hpc⟩
  flagged := fun w hlt _ => h.flagged w hlt (hf w hlt)
  busy := h.busy
  waits := hw
  empty := he
  threads := by
    show s.m_num_threads = if pc = .returned then 0 else n
    rw [h.threads, if_neg hr, if_neg hpr]
  crashed := fun hm => absurd (hc.symm.trans hm) nofun

theorem Terminating.testIdle (h : Terminating n s) (hi : s.terminator ≠ .idle)
    (hr : s.terminator ≠ .returned) (hf : ∀ w < n, s.terminator.flags w) (hc : s.crashed = false) :
    Terminating n (testIdle s) := by
  unfold ToftPool.testIdle
  split
  · next hb => exact h.termAt hi hr hf nofun nofun nofun (fun _ => hb) hc
  · next hb => exact h.termAt hi hr hf nofun nofun (fun _ => hb) nofun hc

/-- the last worker to leave wakes `Terminate` up, if it waits -/
theorem unbusy_terminator (s : State Id) :
    (s.unbusy.terminator = s.terminator ∧
      (s.terminator = .waiting → s.unbusy.m_num_busy_threads ≠ 0)) ∨
    (s.unbusy.terminator = .recheck ∧ s.terminator = .waiting) := by
  by_cases hc : s.m_num_busy_threads - 1 = 0 ∧ s.terminator = .waiting
  · exact .inr ⟨if_pos hc, hc.2⟩
  · exact .inl ⟨if_neg hc, fun hw hb => hc ⟨hb, hw⟩⟩

theorem inside_gone {w : ℕ} :
    inside n (s.setWorker w ((s.worker w).goto .gone)) = (inside n s).erase w := by
  ext v
  rw [Finset.mem_erase, inside, inside, Finset.mem_filter, Finset.mem_filter, setWorker_worker]
  by_cases hv : v = w
  · simp [hv, Worker.goto]
  · simp [hv]

theorem Terminating.leave {w : ℕ} (h : Terminating n s) (hw : w < n)
    (hp : (s.worker w).pc = .leave) (hc : s.crashed = false) :
    Terminating n (s.setWorker w ((s.worker w).goto .gone)).unbusy := by
  have hmem : w ∈ inside n s := by
    refine Finset.mem_filter.mpr ⟨Finset.mem_range.mpr hw, ?_⟩
    rw [hp]
    nofun
  have hx : ∀ v, ((s.setWorker w ((s.worker w).goto .gone)).worker v).exit = (s.worker v).exit := by
    intro v
    rw [setWorker_worker]
    split
    · next hv => rw [hv]; rfl
    · rfl
  have hbusy : s.m_num_busy_threads - 1
      = (inside n (s.setWorker w ((s.worker w).goto .gone))).card := by
    rw [inside_gone, Finset.card_erase_of_mem hmem, h.busy]
  have hempty : s.terminator.joins → s.m_num_busy_threads - 1 = 0 := fun hj => by
    rw [h.empty hj]
  have hcr : ∀ pc : TermPc, s.crashed = true → pc.joins := fun _ hm =>
    absurd (hc.symm.trans hm) nofun
  rcases unbusy_terminator (s.setWorker w ((s.worker w).goto .gone)) with ⟨ht, hne⟩ | ⟨ht, hwait⟩
  · exact
      { exits := fun v he => h.exits v (hx v ▸ he)
        begun := by rw [ht]; exact h.begun
        flagged := fun v hv hf => (hx v).trans (h.flagged v hv (by rw [ht] at hf; exact hf))
        busy := hbusy
        waits := fun hw' => hne (ht ▸ hw')
        empty := fun hj => hempty (by rw [ht] at hj; exact hj)
        threads := by rw [ht]; exact h.threads
        crashed := hcr _ }
  · have hwait : s.terminator = .waiting := hwait
    exact
      { exits := fun v he => h.exits v (hx v ▸ he)
        begun := by
          rw [ht]
          exact ⟨fun hm => absurd (h.begun.mp hm) (by simp [hwait]), nofun⟩
        flagged := fun v hv _ => (hx v).trans (h.flagged v hv (by rw [hwait]; trivial))
        busy := hbusy
        waits := fun hw' => by rw [ht] at hw'; cases hw'
        empty := fun hj => by rw [ht] at hj; cases hj
        threads := by
          rw [ht, if_neg nofun]
          exact h.threads.trans (by rw [hwait, if_neg nofun])
        crashed := hcr _ }

theorem Terminating.flag {i : ℕ} (h : Terminating n s) (hp : s.terminator = .flagging i)
    (hc : s.crashed = false) :
    Terminating n ((s.setWorker i (s.worker i).setExit.notify).termAt (.flagging (i + 1))) := by
  have hx : (s.worker i).setExit.notify.exit = true := Worker.notify_exit
  have hg : ∀ v, ((s.setWorker i (s.worker i).setExit.notify).worker v).pc = .gone ↔
      (s.worker v).pc = .gone := by
    intro v
    rw [setWorker_worker]
    split
    · next hv => rw [hv, Worker.notify_gone]; rfl
    · rfl
  have hm : s.m_exit = true := h.exit_of_begun (hp ▸ nofun)
  exact
    { exits := fun _ _ => hm
      begun := ⟨fun h0 => absurd (h0.symm.trans hm) nofun, nofun⟩
      flagged := fun v hv hf => by
        show ((s.setWorker i _).worker v).exit = true
        rw [setWorker_worker]
        split
        · exact hx
        · next hvi =>
          refine h.flagged v hv ?_
          rw [hp]
          exact lt_of_le_of_ne (Nat.le_of_lt_succ hf) hvi
      busy := by
        show s.m_num_busy_threads = (inside n (s.setWorker i _)).card
        rw [inside_congr hg, h.busy]
      waits := nofun
      empty := nofun
      threads := h.threads.trans (by rw [hp, if_neg nofun, if_neg nofun])
      crashed := fun hcr => absurd (hc.symm.trans hcr) nofun }

theorem Terminating.step (h : Terminating n s) (hn : 0 < n) (hc : s.crashed = false)
    (hst : Step n s a s') : Terminating n s' := by
  cases hst with
  | call | index => exact { h with }
  | @push id key w =>
    exact { h.setWorker (w := w) (c := ((s.worker w).push id).notify) Worker.notify_exit
      Worker.notify_gone with }
  | crash id hcause =>
    -- the contexts are gone, or `m_num_threads` is 0
    refine { h with crashed := fun _ => ?_ }
    show s.terminator.joins = true
    rcases hcause with h0 | hctx
    · rw [h.threads] at h0
      split at h0
      · next hr => rw [hr]; rfl
      · exact absurd h0 hn.ne'
    · rcases not_and_or.mp hctx with hd | hd <;> rw [not_not.mp hd] <;> rfl
  | @next w c l hw hnx =>
    obtain ⟨-, -, hx⟩ := hnx.own (n := n)
    exact { h.setWorker (w := w) hx (iff_of_false hnx.ne_gone.2 hnx.ne_gone.1) with }
  | leave hw hp => exact h.leave hw hp hc
  | @spurious w => exact h.setWorker Worker.notify_exit Worker.notify_gone
  | flagAll hp =>
    exact
      { exits := fun _ _ => rfl
        begun := ⟨nofun, nofun⟩
        flagged := fun w _ hf => absurd hf (Nat.not_lt_zero w)
        busy := h.busy
        waits := nofun
        empty := nofun
        threads := h.threads.trans (by rw [hp, if_neg nofun]; rfl)
        crashed := fun hm => absurd (hc.symm.trans hm) nofun }
  | @flag i hp => exact h.flag hp hc
  | @flagged i hp hi =>
    refine h.testIdle (by simp [hp]) (by simp [hp]) (fun w hw => ?_) hc
    rw [h.threads, hp, if_neg nofun] at hi
    rw [hp]
    exact hw.trans_le hi
  | recheck hp =>
    exact h.testIdle (by simp [hp]) (by simp [hp]) (fun w _ => by rw [hp]; trivial) hc
  | @join i hp =>
    refine h.termAt (by simp [hp]) (by simp [hp]) (fun w _ => ?_) nofun nofun nofun ?_ hc
    · rw [hp]; trivial
    · exact fun _ => h.empty (by rw [hp]; rfl)
  | @joined i hp =>
    refine h.termAt (by simp [hp]) (by simp [hp]) (fun w _ => ?_) nofun nofun nofun ?_ hc
    · rw [hp]; trivial
    · exact fun _ => h.empty (by rw [hp]; rfl)
  | deleted hp =>
    have hm : s.m_exit = true := h.exit_of_begun (hp ▸ nofun)
    exact
      { exits := h.exits
        begun := ⟨fun h0 => absurd (h0.symm.trans hm) nofun, nofun⟩
        flagged := fun w hw _ => h.flagged w hw (by rw [hp]; trivial)
        busy := h.busy
        waits := nofun
        empty := fun _ => h.empty (by rw [hp]; rfl)
        threads := rfl
        crashed := fun _ => rfl }
  | spuriousTerminate hp =>
    refine h.termAt (by simp [hp]) (by simp [hp]) (fun w _ => ?_) nofun nofun nofun nofun hc
    rw [hp]; trivial

/-! ## every state reached -/

theorem Inv.step (h : Inv n s) (hn : 0 < n) (hst : (pool n).step s a = some s') : Inv n s' := by
  obtain ⟨hc, hst⟩ := step_cases hst
  exact
    { working := h.working.step h.adding h.terminating hst
      adding := h.adding.step h.terminating hn hst
      terminating := h.terminating.step hn hc hst }

theorem inv_start : Inv n (start n : State Id) where
  working :=
    { ok := fun _ =>
        { working := fun _ => rfl
          running := nofun
          asleep := nofun
          last := nofun }
      logged := fun _ => ⟨rfl, rfl⟩ }
  adding :=
    { keyed := nofun
      owner := nofun
      nodup := List.nodup_nil
      done := nofun
      returned := rfl
      early := nofun
      accepted := nofun }
  terminating :=
    { exits := nofun
      begun := ⟨fun _ => rfl, fun _ => rfl⟩
      flagged := nofun
      busy := by
        rw [inside, Finset.filter_true_of_mem fun _ _ => nofun, Finset.card_range]
        rfl
      waits := nofun
      empty := nofun
      threads := rfl
      crashed := nofun }

theorem inv_reach (hn : 0 < n) (h : (pool n).Reachable s) : Inv n s :=
  h.inv inv_start fun _ _ _ hi _ hst => hi.step hn hst

end ToftPool
end CppCores
