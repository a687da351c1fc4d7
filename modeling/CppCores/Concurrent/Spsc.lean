import CppCores.Lib.Machine
import CppCores.Lib.RingDeque

/-!
# SpscLockFreeQueue: the queue of `concurrent/lockfree_queue.h` for one producer and one consumer

Every access to `r_`, `w_` and `data_` is one step, and the two threads interleave in any way.  A
call takes its first load with it and a return its last access; `pop(T &)` is the body of both
`pop`s.  The indices stay below `N`, so they are natural numbers.  No step reads `log`: it has the
calls with their answers, each entered at its last access.

* `Inv`             the cells from `r_` to `w_` are the content that `log` leaves, and each side's copy
                    of the other's index may be stale but only on the safe side;
* `Inv.reach`       it holds in every state reached;
* `spscRun_reach`   from it: first in first out, at most `N - 1` elements, right answers, and the
                    producer never writes the cell that the consumer is reading.
-/

set_option linter.unusedSectionVars false

namespace CppCores
namespace Spsc
variable {T : Type*}

/-- the place of the producer in `push`; `w` is loaded with the call -/
inductive Producer (T : Type*) where
  | idle
  | loadR (element : T) (w w_next : ℕ)
  | write (element : T) (w w_next : ℕ)
  | store (element : T) (w_next : ℕ)

/-- the place of the consumer in `pop`; `r` is loaded with the call -/
inductive Consumer (T : Type*) where
  | idle
  | loadW (r : ℕ)
  | read (r : ℕ)
  /-- `r` is already the next index -/
  | store (element : T) (r : ℕ)

structure State (T : Type*) where
  r : ℕ
  w : ℕ
  data : ℕ → T
  producer : Producer T
  consumer : Consumer T
  log : List (DequeOp T)

/-- the producer calls `push element` or goes on, the consumer calls `pop` or goes on -/
inductive Act (T : Type*) where
  | push (element : T)
  | producer
  | pop
  | consumer

namespace State

def producerAt (s : State T) (pc : Producer T) : State T := { s with producer := pc }

def consumerAt (s : State T) (pc : Consumer T) : State T := { s with consumer := pc }

def write (s : State T) (i : ℕ) (v : T) : State T := { s with data := Function.update s.data i v }

def storeW (s : State T) (w : ℕ) : State T := { s with w := w }

def storeR (s : State T) (r : ℕ) : State T := { s with r := r }

def answer (s : State T) (op : DequeOp T) : State T := { s with log := s.log ++ [op] }

end State

/-- the index after `i`, which wraps at `N` -/
def next (N i : ℕ) : ℕ := if i + 1 = N then 0 else i + 1

/-- the next step of the producer inside `push` -/
def stepProducer (s : State T) : Option (State T) :=
  match s.producer with
  | .idle => none
  | .loadR element w w_next =>
    if w_next = s.r then some ((s.answer .full).producerAt .idle)
    else some (s.producerAt (.write element w w_next))
  | .write element w w_next => some ((s.write w element).producerAt (.store element w_next))
  | .store element w_next =>
    some (((s.storeW w_next).answer (.pushBack element)).producerAt .idle)

/-- the next step of the consumer inside `pop` -/
def stepConsumer (N : ℕ) (s : State T) : Option (State T) :=
  match s.consumer with
  | .idle => none
  | .loadW r =>
    if r = s.w then some ((s.answer .empty).consumerAt .idle) else some (s.consumerAt (.read r))
  | .read r => some (s.consumerAt (.store (s.data r) (next N r)))
  | .store element r => some (((s.storeR r).answer (.popFront element)).consumerAt .idle)

def step (N : ℕ) (s : State T) : Act T → Option (State T)
  | .push element =>
    match s.producer with
    | .idle => some (s.producerAt (.loadR element s.w (next N s.w)))
    | _ => none
  | .producer => stepProducer s
  | .pop =>
    match s.consumer with
    | .idle => some (s.consumerAt (.loadW s.r))
    | _ => none
  | .consumer => stepConsumer N s

/-- the new queue; `junk` is what the cells hold before they are written -/
def start (junk : ℕ → T) : State T where
  r := 0
  w := 0
  data := junk
  producer := .idle
  consumer := .idle
  log := []

def queue (N : ℕ) (junk : ℕ → T) : Machine (State T) (Act T) := ⟨start junk, step N⟩

/-! ## positions -/

namespace State

/-- how many elements were pushed: the position of `w_` before it wraps -/
def hi (s : State T) : ℕ := (pushed s.log).length

/-- how many elements were popped: the position of `r_` before it wraps -/
def lo (s : State T) : ℕ := (taken s.log).length

end State

theorem next_mod {N i : ℕ} (hN : 2 < N) : next N (i % N) = (i + 1) % N := by
  have hlt := Nat.mod_lt i (show 0 < N by omega)
  rw [Nat.add_mod, Nat.mod_eq_of_lt (show 1 < N by omega)]
  unfold next
  by_cases h : i % N + 1 = N
  · rw [if_pos h, h, Nat.mod_self]
  · rw [if_neg h, Nat.mod_eq_of_lt (show i % N + 1 < N by omega)]

/-- two positions at most a lap apart and in one cell are the same or a lap apart -/
theorem eq_or_lap {N lo hi : ℕ} (h1 : lo ≤ hi) (h2 : hi ≤ lo + N) (h : hi % N = lo % N) :
    hi = lo ∨ hi = lo + N := by
  by_contra hc
  exact mod_ne_of_lt_lap (show lo < hi by omega) (by omega) h.symm

/-! ## the invariant -/

/-- what the producer knows: it stands at `hi`, and once it has seen a free cell there is one, since
the consumer only frees more -/
def State.ProducerOk (N : ℕ) (s : State T) : Prop :=
  match s.producer with
  | .idle => True
  | .loadR _ w w_next => w = s.hi % N ∧ w_next = (s.hi + 1) % N
  | .write _ w w_next => w = s.hi % N ∧ w_next = (s.hi + 1) % N ∧ s.hi < s.lo + (N - 1)
  | .store element w_next =>
    w_next = (s.hi + 1) % N ∧ s.hi < s.lo + (N - 1) ∧ s.data (s.hi % N) = element

/-- what the consumer knows: it stands at `lo`, and once it has seen an element there is one -/
def State.ConsumerOk (N : ℕ) (s : State T) : Prop :=
  match s.consumer with
  | .idle => True
  | .loadW r => r = s.lo % N
  | .read r => r = s.lo % N ∧ s.lo < s.hi
  | .store element r => r = (s.lo + 1) % N ∧ s.lo < s.hi ∧ s.data (s.lo % N) = element

structure Inv (N : ℕ) (s : State T) : Prop where
  holds : Holds N (N - 1) s.data s.lo s.hi s.log
  r : s.r = s.lo % N
  w : s.w = s.hi % N
  producer : s.ProducerOk N
  consumer : s.ConsumerOk N
  forward : ∀ v, DequeOp.popBack v ∉ s.log

section
variable {N : ℕ} {s s' : State T}

theorem inv_start (junk : ℕ → T) : Inv N (start junk) :=
  ⟨Holds.start 0, (Nat.zero_mod N).symm, (Nat.zero_mod N).symm, trivial, trivial,
    fun _ => nofun⟩

theorem Inv.producerAt (h : Inv N s) {pc : Producer T} (hpc : (s.producerAt pc).ProducerOk N) :
    Inv N (s.producerAt pc) := ⟨h.holds, h.r, h.w, hpc, h.consumer, h.forward⟩

theorem Inv.consumerAt (h : Inv N s) {pc : Consumer T} (hpc : (s.consumerAt pc).ConsumerOk N) :
    Inv N (s.consumerAt pc) := ⟨h.holds, h.r, h.w, h.producer, hpc, h.forward⟩

/-- what a side knows is kept when the other side only moves its own end away -/
theorem ConsumerOk.mono (h : s.ConsumerOk N) (hc : s'.consumer = s.consumer) (hlo : s'.lo = s.lo)
    (hhi : s.hi ≤ s'.hi) (hd : s'.data (s.lo % N) = s.data (s.lo % N) ∨ s.hi ≤ s.lo) :
    s'.ConsumerOk N := by
  cases hpc : s.consumer with
  | idle => simp only [State.ConsumerOk, hc, hpc]
  | loadW r => simpa only [State.ConsumerOk, hc, hpc, hlo] using h
  | read r =>
    simp only [State.ConsumerOk, hc, hpc, hlo] at h ⊢
    exact ⟨h.1, by omega⟩
  | store e r =>
    simp only [State.ConsumerOk, hc, hpc, hlo] at h ⊢
    obtain ⟨h1, h2, h3⟩ := h
    rcases hd with hd | hd
    · exact ⟨h1, by omega, by rw [hd, h3]⟩
    · omega

theorem ProducerOk.mono (h : s.ProducerOk N) (hp : s'.producer = s.producer) (hhi : s'.hi = s.hi)
    (hlo : s.lo ≤ s'.lo) (hd : s'.data = s.data) : s'.ProducerOk N := by
  cases hpc : s.producer with
  | idle => simp only [State.ProducerOk, hp, hpc]
  | loadR v w wn => simpa only [State.ProducerOk, hp, hpc, hhi] using h
  | write v w wn =>
    simp only [State.ProducerOk, hp, hpc, hhi] at h ⊢
    exact ⟨h.1, h.2.1, by omega⟩
  | store v wn =>
    simp only [State.ProducerOk, hp, hpc, hhi, hd] at h ⊢
    exact ⟨h.1, by omega, h.2.2⟩

theorem hi_answer (s : State T) (op : DequeOp T) :
    (s.answer op).hi = s.hi + op.pushed?.toList.length := by
  simp [State.hi, State.answer]

theorem lo_answer (s : State T) (op : DequeOp T) :
    (s.answer op).lo = s.lo + op.taken?.toList.length := by
  simp [State.lo, State.answer]

theorem Inv.forward_answer (h : Inv N s) {op : DequeOp T} (hop : ∀ v, op ≠ .popBack v) (v : T) :
    .popBack v ∉ s.log ++ [op] := by
  intro hm
  rcases List.mem_append.mp hm with hm | hm
  · exact h.forward v hm
  · exact hop v (List.mem_singleton.mp hm).symm

theorem Inv.refuse (h : Inv N s) {op : DequeOp T} (hop : op.pushed? = none) (hop' : op.taken? = none)
    (hh : Holds N (N - 1) s.data s.lo s.hi (s.log ++ [op])) : Inv N (s.answer op) := by
  have hhi : (s.answer op).hi = s.hi := by rw [hi_answer, hop]; rfl
  have hlo : (s.answer op).lo = s.lo := by rw [lo_answer, hop']; rfl
  refine ⟨?_, ?_, ?_, ?_, ?_, ?_⟩
  · rw [hhi, hlo]; exact hh
  · rw [hlo]; exact h.r
  · rw [hhi]; exact h.w
  · exact ProducerOk.mono h.producer rfl hhi (Nat.le_of_eq hlo.symm) rfl
  · exact ConsumerOk.mono h.consumer rfl hlo (Nat.le_of_eq hhi.symm) (.inl rfl)
  · refine h.forward_answer fun v e => ?_
    rw [e] at hop'
    exact absurd hop' (by simp)

theorem inv_producer (hN : 2 < N) (h : Inv N s) (hst : stepProducer s = some s') : Inv N s' := by
  have hle := h.holds.le
  have hroom := h.holds.room
  have hp := h.producer
  cases ho : s.producer with
  | idle => simp [stepProducer, ho] at hst
  | loadR v w wn =>
    simp only [State.ProducerOk, ho] at hp
    obtain ⟨hw, hwn⟩ := hp
    simp only [stepProducer, ho] at hst
    by_cases hf : wn = s.r
    · rw [if_pos hf] at hst
      obtain rfl := Option.some.inj hst
      rw [hwn, h.r] at hf
      have hlap := eq_or_lap (show s.lo ≤ s.hi + 1 by omega) (by omega) hf
      have := h.refuse rfl rfl (h.holds.full (by omega))
      exact this.producerAt trivial
    · rw [if_neg hf] at hst
      obtain rfl := Option.some.inj hst
      refine h.producerAt ⟨hw, hwn, ?_⟩
      show s.hi < s.lo + (N - 1)
      -- a full queue has `w_next` a lap ahead of `r_`, in the same cell
      by_contra hc
      refine hf ?_
      rw [hwn, h.r, show s.hi + 1 = s.lo + N by omega, Nat.add_mod_right]
  | write v w wn =>
    simp only [State.ProducerOk, ho] at hp
    obtain ⟨rfl, hwn, hlt⟩ := hp
    simp only [stepProducer, ho] at hst
    obtain rfl := Option.some.inj hst
    refine ⟨h.holds.write (by omega) v, h.r, h.w, ⟨hwn, hlt, ?_⟩, ?_, h.forward⟩
    · exact Function.update_self ..
    · refine ConsumerOk.mono h.consumer rfl rfl (Nat.le_refl _) ?_
      rcases Nat.lt_or_ge s.lo s.hi with hlo | hlo
      · left
        exact Function.update_of_ne (mod_ne_of_lt_lap hlo (by omega)) ..
      · right
        exact hlo
  | store v wn =>
    simp only [State.ProducerOk, ho] at hp
    obtain ⟨hwn, hlt, hv⟩ := hp
    simp only [stepProducer, ho] at hst
    obtain rfl := Option.some.inj hst
    have hhi : ((s.storeW wn).answer (.pushBack v)).hi = s.hi + 1 := hi_answer _ _
    have hlo : ((s.storeW wn).answer (.pushBack v)).lo = s.lo := lo_answer _ _
    refine ⟨?_, ?_, ?_, trivial, ?_, ?_⟩
    · show Holds N (N - 1) s.data ((s.storeW wn).answer (.pushBack v)).lo
        ((s.storeW wn).answer (.pushBack v)).hi (s.log ++ [.pushBack v])
      rw [hhi, hlo]
      exact h.holds.pushBack hlt hv
    · exact h.r.trans (by rw [← hlo]; rfl)
    · exact hwn.trans (by rw [← hhi]; rfl)
    · have hge : s.hi ≤ ((s.storeW wn).answer (.pushBack v)).hi := by
        rw [hhi]
        exact Nat.le_succ _
      exact @ConsumerOk.mono _ _ s ((s.storeW wn).answer (.pushBack v)) h.consumer rfl hlo hge
        (.inl rfl)
    · exact h.forward_answer fun _ => nofun

theorem inv_consumer (hN : 2 < N) (h : Inv N s) (hst : stepConsumer N s = some s') : Inv N s' := by
  have hle := h.holds.le
  have hroom := h.holds.room
  have hc := h.consumer
  cases ho : s.consumer with
  | idle => simp [stepConsumer, ho] at hst
  | loadW r =>
    simp only [State.ConsumerOk, ho] at hc
    simp only [stepConsumer, ho] at hst
    by_cases he : r = s.w
    · rw [if_pos he] at hst
      obtain rfl := Option.some.inj hst
      rw [hc, h.w] at he
      have hlap := eq_or_lap hle (by omega) he.symm
      have := h.refuse rfl rfl (h.holds.empty (by omega))
      exact this.consumerAt trivial
    · rw [if_neg he] at hst
      obtain rfl := Option.some.inj hst
      refine h.consumerAt ⟨hc, ?_⟩
      show s.lo < s.hi
      by_contra hge
      refine he ?_
      rw [hc, h.w, show s.hi = s.lo by omega]
  | read r =>
    simp only [State.ConsumerOk, ho] at hc
    obtain ⟨rfl, hlt⟩ := hc
    simp only [stepConsumer, ho] at hst
    obtain rfl := Option.some.inj hst
    exact h.consumerAt ⟨next_mod hN, hlt, rfl⟩
  | store e r =>
    simp only [State.ConsumerOk, ho] at hc
    obtain ⟨hr, hlt, he⟩ := hc
    simp only [stepConsumer, ho] at hst
    obtain rfl := Option.some.inj hst
    have hhi : ((s.storeR r).answer (.popFront e)).hi = s.hi := hi_answer _ _
    have hlo : ((s.storeR r).answer (.popFront e)).lo = s.lo + 1 := lo_answer _ _
    refine ⟨?_, ?_, ?_, ?_, trivial, ?_⟩
    · show Holds N (N - 1) s.data ((s.storeR r).answer (.popFront e)).lo
        ((s.storeR r).answer (.popFront e)).hi (s.log ++ [.popFront e])
      rw [hhi, hlo]
      exact h.holds.popFront hlt he
    · exact hr.trans (by rw [← hlo]; rfl)
    · exact h.w.trans (by rw [← hhi]; rfl)
    · refine ProducerOk.mono h.producer rfl hhi ?_ rfl
      show s.lo ≤ ((s.storeR r).answer (.popFront e)).lo
      rw [hlo]
      exact Nat.le_succ _
    · exact h.forward_answer fun _ => nofun

/-- **One step keeps the invariant.** -/
theorem inv_step (hN : 2 < N) (h : Inv N s) (a : Act T) (hst : step N s a = some s') :
    Inv N s' := by
  cases a with
  | push v =>
    cases ho : s.producer with
    | idle =>
      simp only [step, ho] at hst
      obtain rfl := Option.some.inj hst
      refine h.producerAt ⟨h.w, ?_⟩
      rw [h.w, next_mod hN]
      rfl
    | _ => simp [step, ho] at hst
  | producer => exact inv_producer hN h hst
  | pop =>
    cases ho : s.consumer with
    | idle =>
      simp only [step, ho] at hst
      obtain rfl := Option.some.inj hst
      exact h.consumerAt h.r
    | _ => simp [step, ho] at hst
  | consumer => exact inv_consumer hN h hst

theorem Inv.reach (hN : 2 < N) (junk : ℕ → T) (h : (queue N junk).Reachable s) : Inv N s :=
  h.inv (inv_start junk) fun _ a _ ih _ hst => inv_step hN ih a hst

/-! ## runs -/

/-- what a run of the queue has to look like -/
structure SpscRun (N : ℕ) (s : State T) : Prop where
  /-- the values popped are the first of the values pushed -/
  order : taken s.log <+: pushed s.log
  /-- at most `N - 1` elements are outstanding -/
  bound : (pushed s.log).length ≤ (taken s.log).length + (N - 1)
  /-- `push` answers false only with `N - 1` elements outstanding -/
  full : ∀ pre post, s.log = pre ++ .full :: post →
    (pushed pre).length = (taken pre).length + (N - 1)
  /-- `pop` answers false only with none outstanding -/
  empty : ∀ pre post, s.log = pre ++ .empty :: post → pushed pre = taken pre
  /-- the cell that the producer writes next is not the one that the consumer reads next -/
  apart : ∀ element w w_next r, s.producer = .write element w w_next → s.consumer = .read r → w ≠ r

/-- **Every run of one producer and one consumer is first in first out and free of races.** -/
theorem spscRun_reach (hN : 2 < N) (junk : ℕ → T) (h : (queue N junk).Reachable s) :
    SpscRun N s := by
  have hinv := Inv.reach hN junk h
  have hle := hinv.holds.le
  have hroom := hinv.holds.room
  have hlegal := hinv.holds.legal
  have hpre : ∀ pre op post, s.log = pre ++ op :: post → ∀ v, DequeOp.popBack v ∉ pre := by
    intro pre op post e v hm
    exact hinv.forward v (e ▸ List.mem_append_left _ hm)
  refine ⟨⟨_, (hlegal.fifo hinv.forward).symm⟩, hroom, ?_, ?_, ?_⟩
  · intro pre post e
    obtain ⟨q, hq, hfull⟩ := hlegal.fits pre .full post e
    have hfull' : q.length = N - 1 := hfull
    rw [hq.fifo (hpre pre _ post e), List.length_append, hfull']
  · intro pre post e
    obtain ⟨q, hq, hempty⟩ := hlegal.fits pre .empty post e
    have hempty' : q = [] := hempty
    rw [hq.fifo (hpre pre _ post e), hempty', List.append_nil]
  · intro v w wn r hp hc
    have hpo := hinv.producer
    have hco := hinv.consumer
    simp only [State.ProducerOk, hp] at hpo
    simp only [State.ConsumerOk, hc] at hco
    rw [hpo.1, hco.1]
    exact (mod_ne_of_lt_lap hco.2 (by omega)).symm

/-- a queue of three cells: two elements fit, the third is refused, one is taken -/
theorem spscRun_three : ∃ s : State Bool, SpscRun 3 s ∧
    s.log = [.pushBack true, .pushBack false, .full, .popFront true] := by
  let junk : ℕ → Bool := fun _ => false
  let as : List (Act Bool) := [.push true, .producer, .producer, .producer, .push false, .producer,
    .producer, .pop, .producer, .consumer, .push true, .producer, .consumer, .consumer]
  have h : ((queue 3 junk).exec (start junk) as).map State.log =
      some [.pushBack true, .pushBack false, .full, .popFront true] := by decide
  obtain ⟨s, hs, e⟩ := Option.map_eq_some_iff.mp h
  exact ⟨s, spscRun_reach (by decide) junk (.of_exec as .init hs), e⟩

end
end Spsc
end CppCores
