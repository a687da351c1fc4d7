import Mathlib.Tactic.Common
import CppCores.Concurrent.Mpmc.Inv

/-!
# MpmcLockFreeQueue: the invariant is kept

One lemma for each part and each kind of access; `Inv.step` puts them together.
-/

namespace CppCores
namespace Mpmc

set_option linter.unusedSectionVars false

variable {P C T : Type*} [DecidableEq P] [DecidableEq C]
variable {N : ℕ} {arg : P → T} {s s' : State P C T} {a : Act P C}
variable {log : List (Event P C T)} {e : Event P C T}

/-! ## tickets -/

/-- one more event; only what it says itself is to be shown -/
theorem Tickets.concat (h : Tickets s) (hl : s'.log = s.log ++ [e])
    (hw : tickets s.log ++ tickets [e] = List.range s'.w_count)
    (hr : readTickets s.log ++ readTickets [e] = List.range s'.r_count)
    (hs : (winners s.log ++ winners [e]).Nodup) (ho : (placers s.log ++ placers [e]).Nodup)
    (hp : ∀ p k, e = .placed p k → .ticket p k ∈ s.log)
    (hg : ∀ c k v, e = .got c k v → .taken c k ∈ s.log) : Tickets s' where
  writes := by rw [hl, tickets_concat, hw]
  reads := by rw [hl, readTickets_concat, hr]
  single := by rwa [hl, winners_concat]
  once := by rwa [hl, placers_concat]
  placed := by
    intro p k hk
    rw [hl, mem_concat] at hk ⊢
    exact .inl (hk.elim (h.placed p k) fun he => hp p k he.symm)
  got := by
    intro c k v hk
    rw [hl, mem_concat] at hk ⊢
    exact .inl (hk.elim (h.got c k v) fun he => hg c k v he.symm)

theorem Tickets.step (h : Tickets s) (hc : Calls N s) (hok : TicketOk N s a)
    (hst : Step N arg s a s') : Tickets s' := by
  have hw := (List.append_nil _).trans h.writes
  have hr := (List.append_nil _).trans h.reads
  have hs : (winners s.log ++ []).Nodup := (List.append_nil _).symm ▸ h.single
  have ho : (placers s.log ++ []).Nodup := (List.append_nil _).symm ▸ h.once
  cases hst with
  | movePush | storePush | movePop | loadPop | testPop | storePop => exact { h with }
  | @win p w k hp hcount =>
    have hnew : tickets s.log ++ [w] = List.range (w + 1) := by
      rw [h.writes, hcount, List.range_succ]
    exact h.concat (e := .ticket p w) rfl hnew hr (nodup_concat h.single (hok.win hp hcount).1) ho
      nofun nofun
  | @write p w k hp =>
    have hpush := hc.push p
    rw [hp] at hpush
    obtain ⟨hticket, hnot⟩ := hpush
    refine h.concat (e := .placed p w) rfl hw hr hs (nodup_concat h.once hnot) ?_ nofun
    intro q j he
    obtain ⟨rfl, rfl⟩ := Event.placed.inj he
    exact hticket
  | @take c r k hp hcount =>
    have hnew : readTickets s.log ++ [r] = List.range (r + 1) := by
      rw [h.reads, hcount, List.range_succ]
    exact h.concat (e := .taken c r) rfl hw hnew hs ho nofun nofun
  | @read c r k hp =>
    have hpop := hc.pop c
    rw [hp] at hpop
    obtain ⟨-, -, -, htaken, -⟩ := hpop
    refine h.concat (e := .got c r _) rfl hw hr hs ho nofun ?_
    intro d j v he
    obtain ⟨rfl, rfl, -⟩ := Event.got.inj he
    exact htaken

/-! ## calls -/

theorem PushOk.concat {p : P} {pc : PushPc} (h : PushOk log p pc) (he : ∀ k, e ≠ .placed p k) :
    PushOk (log ++ [e]) p pc := by
  cases pc with
  | write w k =>
    refine ⟨mem_concat.mpr (.inl h.1), fun hm => ?_⟩
    obtain ⟨j, hj⟩ := exists_placed hm
    exact (mem_concat.mp hj).elim (fun hj => h.2 (mem_placers hj)) fun hj => he j hj.symm
  | store w k => exact mem_concat.mpr (.inl h)
  | idle | loadPush | loadPop | acquire | reload | returned => exact h

theorem PopOk.concat {data : ℕ → Slot T} {c : C} {pc : PopPc T} (h : PopOk N data log c pc)
    (he : ∀ r k, pc = .read r k → ∀ d v, e ≠ .got d r v) : PopOk N data (log ++ [e]) c pc := by
  cases pc with
  | read r k =>
    obtain ⟨h0, hlt, hne, ht, hg⟩ := h
    refine ⟨h0, hlt, hne, mem_concat.mpr (.inl ht), fun hm => ?_⟩
    obtain ⟨d, v, hd⟩ := mem_gotTickets.mp hm
    exact (mem_concat.mp hd).elim (fun hd => hg (mem_gotTickets.mpr ⟨d, v, hd⟩)) fun hd =>
      he r k rfl d v hd.symm
  | store r k v => exact ⟨h.1, h.2.1, mem_concat.mpr (.inl h.2.2)⟩
  | returned answer =>
    cases answer with
    | none => exact h
    | some v =>
      obtain ⟨k, hk⟩ := h
      exact ⟨k, mem_concat.mpr (.inl hk)⟩
  | idle | loadPop | loadPush | acquire | reload => exact h

theorem PopOk.data {data data' : ℕ → Slot T} {c : C} {pc : PopPc T} (h : PopOk N data log c pc)
    (hd : ∀ i, (data i).push_count ≠ 0 → (data' i).push_count ≠ 0) : PopOk N data' log c pc := by
  cases pc with
  | acquire r k => exact ⟨h.1, h.2.1, hd r h.2.2⟩
  | read r k => exact ⟨h.1, h.2.1, hd r h.2.2.1, h.2.2.2⟩
  | returned answer =>
    cases answer with
    | none => exact h
    | some v => exact h
  | idle | loadPop | loadPush | store | reload => exact h

theorem Calls.pusherAt {p : P} {pc : PushPc} (hpush : ∀ q, q ≠ p → PushOk s.log q (s.pusher q))
    (hpop : ∀ c, PopOk N s.data s.log c (s.popper c)) (hp : PushOk s.log p pc) :
    Calls N (s.pusherAt p pc) where
  push := (Function.forall_update_iff s.pusher (PushOk s.log)).mpr ⟨hp, hpush⟩
  pop := hpop

theorem Calls.popperAt {c : C} {pc : PopPc T} (hpush : ∀ p, PushOk s.log p (s.pusher p))
    (hpop : ∀ d, d ≠ c → PopOk N s.data s.log d (s.popper d))
    (hp : PopOk N s.data s.log c pc) : Calls N (s.popperAt c pc) where
  push := hpush
  pop := (Function.forall_update_iff s.popper (PopOk N s.data s.log)).mpr ⟨hp, hpop⟩

theorem PushOk.outside {p : P} {pc : PushPc} (h : pc.outside) : PushOk log p pc := by
  cases pc with
  | write | store => cases h
  | returned answer =>
    cases answer with
    | true => cases h
    | false => rfl
  | idle | loadPush | loadPop | acquire | reload => trivial

theorem PopOk.outside {data : ℕ → Slot T} {c : C} {pc : PopPc T} (h : pc.outside) :
    PopOk N data log c pc := by
  cases pc with
  | loadPush | acquire | read | store => cases h
  | returned answer =>
    cases answer with
    | some v => cases h
    | none => trivial
  | idle | loadPop | reload => trivial

/-- `pop_count` stays 0, so only the first lap is `our_turn` -/
theorem PopOk.test {data : ℕ → Slot T} {c : C} {r : ℕ} (hN : 0 < N) :
    PopOk N data log c (testPop N r 0 (data (r % N)).push_count) := by
  unfold testPop
  split
  · trivial
  · next hne =>
    split
    · next hturn =>
      have hlt : r < N := by
        rcases Nat.div_eq_zero_iff.mp hturn with h0 | hlt
        · exact absurd h0 (Nat.ne_of_gt hN)
        · exact hlt
      rw [Nat.mod_eq_of_lt hlt] at hne
      exact ⟨rfl, hlt, Ne.symm hne⟩
    · trivial

theorem setPush_push_count {i j k : ℕ} :
    ((s.setPush i k).data j).push_count = if j = i then k else (s.data j).push_count := by
  show (Function.update s.data i _ j).push_count = _
  rw [Function.update_apply]
  split <;> rfl

theorem setVal_push_count {i j : ℕ} {v : T} :
    ((s.setVal i v).data j).push_count = (s.data j).push_count := by
  show (Function.update s.data i _ j).push_count = _
  rw [Function.update_apply]
  split
  · next h => rw [h]
  · rfl

theorem Calls.setPush {i k : ℕ} (h : Calls N s) : Calls N (s.setPush i (k + 1)) where
  push := h.push
  pop := by
    intro c
    apply (h.pop c).data
    intro j hj
    rw [setPush_push_count]
    split
    · exact Nat.succ_ne_zero k
    · exact hj

theorem Calls.step (h : Calls N s) (ht : Tickets s) (hs : Slots N arg s) (hN : 0 < N)
    (hok : TicketOk N s a) (hst : Step N arg s a s') : Calls N s' := by
  cases hst with
  | movePush p _ hpc => exact .pusherAt (fun q _ => h.push q) h.pop (.outside hpc)
  | movePop c hpc => exact .popperAt h.push (fun d _ => h.pop d) (.outside hpc)
  | loadPop => exact .popperAt h.push (fun d _ => h.pop d) (hs.pop_count _)
  | @testPop c r k hp =>
    have hpop := h.pop c
    rw [hp] at hpop
    obtain rfl : k = 0 := hpop
    exact .popperAt h.push (fun d _ => h.pop d) (.test hN)
  | @win p w k hp hw =>
    have hfresh := (hok.win hp hw).1
    refine .pusherAt (fun q _ => (h.push q).concat nofun) (fun c => (h.pop c).concat nofun) ?_
    refine ⟨mem_concat.mpr (.inr rfl), fun hm => ?_⟩
    obtain ⟨j, hj⟩ := exists_placed hm
    have hticket := ht.placed p j ((mem_concat.mp hj).resolve_right nofun)
    exact hfresh (List.mem_filterMap.mpr ⟨_, hticket, rfl⟩)
  | @take c r k hp hr =>
    have hpop := h.pop c
    rw [hp] at hpop
    obtain ⟨h0, hlt, hne⟩ := hpop
    refine .popperAt (fun p => (h.push p).concat nofun) (fun d _ => (h.pop d).concat nofun) ?_
    refine ⟨h0, hlt, hne, mem_concat.mpr (.inr rfl), fun hm => ?_⟩
    -- nobody has read the slot with a ticket that was not yet won
    obtain ⟨d, v, hd⟩ := mem_gotTickets.mp hm
    have := ht.taken_lt (ht.got d r v ((mem_concat.mp hd).resolve_right nofun))
    exact absurd hr (Nat.ne_of_gt this)
  | @write p w k hp =>
    refine .pusherAt (fun q hq => (h.push q).concat ?_) (fun c => ?_) (mem_concat.mpr (.inr rfl))
    · intro j he
      exact hq (Event.placed.inj he).1.symm
    · have hpop := (h.pop c).concat (e := .placed p w) nofun
      apply hpop.data
      intro j hj
      show ((s.setVal _ _).data j).push_count ≠ 0
      rwa [setVal_push_count]
  | @read c r k hp =>
    have hpop := h.pop c
    rw [hp] at hpop
    obtain ⟨h0, hlt, -, htaken, -⟩ := hpop
    refine .popperAt (fun p => (h.push p).concat nofun) (fun d hd => (h.pop d).concat ?_) ?_
    · intro r' k' hd' d' v he
      have hpop' := h.pop d
      rw [hd'] at hpop'
      obtain ⟨-, -, -, htaken', -⟩ := hpop'
      rw [← (Event.got.inj he).2.1] at htaken'
      exact hd (ht.reader htaken' htaken)
    · exact ⟨h0, hlt, mem_concat.mpr (.inr rfl)⟩
  | @storePush p w k => exact .pusherAt (fun q _ => h.push q) h.setPush.pop trivial
  | @storePop c r k v hp =>
    have hpop := h.pop c
    rw [hp] at hpop
    obtain ⟨-, -, hgot⟩ := hpop
    exact .popperAt h.push (fun d _ => h.setPush.pop d) ⟨r, hgot⟩

/-! ## slots -/

/-- a ticket is of the first lap, or of the second and its slot has been read -/
theorem Slots.lap (h : Slots N arg s) (ht : Tickets s) {k : ℕ} (hk : k < s.w_count) :
    k < N ∨ ∃ i < N, k = i + N ∧ i ∈ gotTickets s.log := by
  rcases Nat.lt_or_ge k N with hlt | hge
  · exact .inl hlt
  · have hgot := h.lapped k hge hk
    obtain ⟨c, v, hc⟩ := mem_gotTickets.mp hgot
    refine .inr ⟨k - N, ?_, (Nat.sub_add_cancel hge).symm, hgot⟩
    exact Nat.lt_of_lt_of_le (ht.taken_lt (ht.got c _ v hc)) h.bound

theorem Slots.setPush {i k : ℕ} (h : Slots N arg s) (hi : ∃ p, .placed p i ∈ s.log) :
    Slots N arg (s.setPush i k) where
  pop_count := by
    intro j
    show (Function.update s.data i _ j).pop_count = 0
    rw [Function.update_apply]
    split
    · exact h.pop_count i
    · exact h.pop_count j
  stored := by
    intro j hj hne
    rw [setPush_push_count] at hne
    split at hne
    · next hji => exact hji ▸ hi
    · exact h.stored j hj hne
  value := by
    intro j hj p hp hg
    rw [← h.value j hj p hp hg]
    show (Function.update s.data i _ j).val = _
    rw [Function.update_apply]
    split
    · next hji => rw [hji]
    · rfl
  delivered := h.delivered
  lapped := h.lapped
  bound := h.bound

theorem gotTickets_mono {k : ℕ} (h : k ∈ gotTickets log) : k ∈ gotTickets (log ++ [e]) := by
  rw [gotTickets_concat]
  exact List.mem_append_left _ h

theorem Slots.record (h : Slots N arg s) (hp : ∀ p k, e ≠ .placed p k)
    (hg : ∀ c k v, e ≠ .got c k v) : Slots N arg (s.record e) where
  pop_count := h.pop_count
  stored := by
    intro i hi hne
    obtain ⟨p, hpl⟩ := h.stored i hi hne
    exact ⟨p, mem_concat.mpr (.inl hpl)⟩
  value := by
    intro i hi p hpl hgot
    have hpl' := (mem_concat.mp hpl).resolve_right fun he => hp p i he.symm
    exact h.value i hi p hpl' fun hm => hgot (gotTickets_mono hm)
  delivered := by
    intro c k v hgot
    have hgot' := (mem_concat.mp hgot).resolve_right fun he => hg c k v he.symm
    obtain ⟨p, hpl, hv⟩ := h.delivered c k v hgot'
    exact ⟨p, mem_concat.mpr (.inl hpl), hv⟩
  lapped := fun k hk hlt => gotTickets_mono (h.lapped k hk hlt)
  bound := h.bound

theorem setVal_val {i j : ℕ} {v : T} :
    ((s.setVal i v).data j).val = if j = i then v else (s.data j).val := by
  show (Function.update s.data i _ j).val = _
  rw [Function.update_apply]
  split <;> rfl

/-- the element of the second lap goes to a slot that has been read -/
theorem Slots.write {p : P} {w : ℕ} (h : Slots N arg s) (ht : Tickets s)
    (hticket : .ticket p w ∈ s.log) :
    Slots N arg ((s.setVal (w % N) (arg p)).record (.placed p w)) where
  pop_count := by
    intro j
    show (Function.update s.data (w % N) _ j).pop_count = 0
    rw [Function.update_apply]
    split
    · exact h.pop_count (w % N)
    · exact h.pop_count j
  stored := by
    intro i hi hne
    have hne' : (s.data i).push_count ≠ 0 := by
      rw [← setVal_push_count (i := w % N) (v := arg p)]
      exact hne
    obtain ⟨q, hq⟩ := h.stored i hi hne'
    exact ⟨q, mem_concat.mpr (.inl hq)⟩
  value := by
    intro j hj q hq hgot
    show ((s.setVal (w % N) (arg p)).data j).val = arg q
    have hgot' : j ∉ gotTickets s.log := fun hm => hgot (gotTickets_mono hm)
    rw [setVal_val]
    rcases h.lap ht (ht.ticket_lt hticket) with hlt | ⟨i, hi, rfl, him⟩
    · rw [Nat.mod_eq_of_lt hlt]
      split
      · next hjw =>
        subst hjw
        rcases mem_concat.mp hq with hq | hq
        · rw [ht.writer hticket (ht.placed q j hq)]
        · rw [(Event.placed.inj hq).1]
      · next hjw =>
        refine h.value j hj q ((mem_concat.mp hq).resolve_right fun he => hjw ?_) hgot'
        exact (Event.placed.inj he).2
    · rw [Nat.add_mod_right, Nat.mod_eq_of_lt hi]
      split
      · next hji => exact absurd (hji ▸ him) hgot'
      · refine h.value j hj q ((mem_concat.mp hq).resolve_right fun he => ?_) hgot'
        have hjw := (Event.placed.inj he).2
        omega
  delivered := by
    intro c k v hgot
    obtain ⟨q, hq, hv⟩ := h.delivered c k v ((mem_concat.mp hgot).resolve_right nofun)
    exact ⟨q, mem_concat.mpr (.inl hq), hv⟩
  lapped := fun k hk hlt => gotTickets_mono (h.lapped k hk hlt)
  bound := h.bound

theorem Slots.read {c : C} {r : ℕ} (h : Slots N arg s) (hr : r < N)
    (hne : (s.data r).push_count ≠ 0) (hgot : r ∉ gotTickets s.log) :
    Slots N arg (s.record (.got c r (s.data (r % N)).val)) where
  pop_count := h.pop_count
  stored := by
    intro i hi hs
    obtain ⟨p, hp⟩ := h.stored i hi hs
    exact ⟨p, mem_concat.mpr (.inl hp)⟩
  value := by
    intro i hi p hp hg
    exact h.value i hi p ((mem_concat.mp hp).resolve_right nofun) fun hm => hg (gotTickets_mono hm)
  delivered := by
    intro d k v hd
    rcases mem_concat.mp hd with hd | hd
    · obtain ⟨p, hp, hv⟩ := h.delivered d k v hd
      exact ⟨p, mem_concat.mpr (.inl hp), hv⟩
    · obtain ⟨-, rfl, rfl⟩ := Event.got.inj hd
      obtain ⟨p, hp⟩ := h.stored k hr hne
      refine ⟨p, mem_concat.mpr (.inl hp), ?_⟩
      rw [Nat.mod_eq_of_lt hr]
      exact h.value k hr p hp hgot
  lapped := fun k hk hlt => gotTickets_mono (h.lapped k hk hlt)
  bound := h.bound

theorem Slots.step (h : Slots N arg s) (ht : Tickets s) (hc : Calls N s) (hok : TicketOk N s a)
    (hst : Step N arg s a s') : Slots N arg s' := by
  cases hst with
  | movePush | movePop | loadPop | testPop => exact { h with }
  | @win p w k hp hw =>
    have hrec := h.record (e := .ticket p w) nofun nofun
    refine { hrec with lapped := fun j hj hlt => ?_ }
    rcases Nat.lt_succ_iff_lt_or_eq.mp hlt with hlt | rfl
    · exact hrec.lapped j hj (hw ▸ hlt)
    · exact gotTickets_mono ((hok.win hp hw).2 hj)
  | @take c r k hp hr =>
    have hpop := hc.pop c
    rw [hp] at hpop
    exact { h.record (e := .taken c r) nofun nofun with bound := hpop.2.1 }
  | @write p w k hp =>
    have hpush := hc.push p
    rw [hp] at hpush
    exact { h.write ht hpush.1 with }
  | @read c r k hp =>
    have hpop := hc.pop c
    rw [hp] at hpop
    obtain ⟨-, hlt, hne, -, hgot⟩ := hpop
    exact { h.read (c := c) hlt hne hgot with }
  | @storePush p w k hp =>
    have hpush := hc.push p
    rw [hp] at hpush
    -- a slot of the second lap has been read, so it was placed in the first
    have hplaced : ∃ q, Event.placed q (w % N) ∈ s.log := by
      rcases h.lap ht (ht.ticket_lt (ht.placed p w hpush)) with hlt | ⟨i, hi, rfl, him⟩
      · rw [Nat.mod_eq_of_lt hlt]
        exact ⟨p, hpush⟩
      · rw [Nat.add_mod_right, Nat.mod_eq_of_lt hi]
        obtain ⟨c, v, hgot⟩ := mem_gotTickets.mp him
        obtain ⟨q, hq, -⟩ := h.delivered c i v hgot
        exact ⟨q, hq⟩
    exact { h.setPush hplaced with }
  | @storePop c r k v hp =>
    have hpop := hc.pop c
    rw [hp] at hpop
    obtain ⟨-, hlt, hgot⟩ := hpop
    obtain ⟨q, hq, -⟩ := h.delivered c r v hgot
    have hplaced : ∃ q, Event.placed q (r % N) ∈ s.log := by
      rw [Nat.mod_eq_of_lt hlt]
      exact ⟨q, hq⟩
    exact { h.setPush hplaced with }

/-! ## the invariant -/

theorem Inv.step (h : Inv N arg s) (hN : 0 < N) (hok : TicketOk N s a)
    (hst : Step N arg s a s') : Inv N arg s' where
  tickets := h.tickets.step h.calls hok hst
  calls := h.calls.step h.tickets h.slots hN hok hst
  slots := h.slots.step h.tickets h.calls hok hst

theorem inv_start (junk : ℕ → T) : Inv N arg (start junk : State P C T) where
  tickets := ⟨rfl, rfl, List.nodup_nil, List.nodup_nil, nofun, nofun⟩
  calls := ⟨fun _ => trivial, fun _ => trivial⟩
  slots :=
    { pop_count := fun _ => rfl
      stored := fun _ _ hne => absurd rfl hne
      value := nofun
      delivered := nofun
      lapped := fun _ _ hlt => absurd hlt (Nat.not_lt_zero _)
      bound := Nat.zero_le N }

end Mpmc
end CppCores
