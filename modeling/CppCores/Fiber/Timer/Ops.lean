import CppCores.Fiber.Timer.Inv

/-!
# FiberTimerManager: what every operation does

One lemma for each operation on a manager between two operations (`Out []`): that it keeps `Out []`,
its answer, and what it does to the set and to the timers.

* `cancel_spec`, `refresh_spec`   take a timer that has a callback out, or move it;
* `addTimer_spec`, `reset_spec`, `addNew_spec`   `Inserted`: a timer goes into the set, and either the
                                  caller is to call `onTimerInsertedAtFront` or need not;
* `listExpiredCb_spec`            delivers the callbacks of the first timers of the set, those that are due
                                  if the clock was not set back, and puts the recurring ones back.
-/

set_option linter.unusedSectionVars false

namespace CppCores
namespace Fiber
open OrderedSet

/-- a timer after its callback was delivered at `now` -/
def Timer.delivered {W F : Type*} (now : UInt64) (t : Timer W F) : Timer W F :=
  if t.m_recurring then { t with m_next := now + t.m_ms } else { t with m_cb := none }

namespace Manager
variable {W F : Type*} {m m' : Manager W F} {i j : ℕ} {now : UInt64}

theorem Out.mem (h : Out [] m) (hc : (m.heap i).m_cb ≠ none) : i ∈ m.m_timers :=
  (h.linked i hc).resolve_right List.not_mem_nil

theorem mem_middle {b c : List ℕ} (he : m.m_timers = b ++ i :: c) :
    j ∈ m.m_timers ↔ j = i ∨ j ∈ b ++ c := by
  rw [he, List.perm_middle.mem_iff, List.mem_cons]

/-! ## `cancel` and `refresh` -/

/-- **`cancel` answers if the timer has a callback**, and then takes it out. -/
theorem cancel_spec (h : Out [] m) (i : ℕ) :
    (m.cancel i).1 = (m.heap i).m_cb.isSome ∧ Out [] (m.cancel i).2 ∧
      (∀ j ∈ (m.cancel i).2.m_timers, j ∈ m.m_timers ∧ (m.cancel i).2.heap j = m.heap j) ∧
      ((m.cancel i).1 = true → i ∈ m.m_timers ∧ i ∉ (m.cancel i).2.m_timers) ∧
      (∀ j, ((m.cancel i).2.heap j).m_recurring = (m.heap j).m_recurring) ∧
      (m.cancel i).2.count = m.count ∧ (m.cancel i).2.m_tickled = m.m_tickled ∧
      (m.cancel i).2.m_last_execute_time = m.m_last_execute_time := by
  by_cases hcb : (m.heap i).m_cb = none
  · have hc : m.cancel i = (false, m) := by
      unfold cancel
      rw [hcb]
      rfl
    rw [hc, hcb]
    exact ⟨rfl, h, fun _ hj => ⟨hj, rfl⟩, fun e => absurd e Bool.false_ne_true, fun _ => rfl, rfl,
      rfl, rfl⟩
  · have hi := h.mem hcb
    have hsome : (m.heap i).m_cb.isSome = true := Option.isSome_iff_ne_none.mpr hcb
    obtain ⟨b, c, hfind, he⟩ := h.find hi
    have hkey : (m.setCb i none).key = m.key := funext (modify_congr Timer.key rfl)
    have hfind' : (m.setCb i none).find i = (b, i :: c) := by
      rw [← hfind]
      unfold Manager.find
      rw [hkey]
      rfl
    have hc : m.cancel i = (true, (m.setTimers (b ++ c)).setCb i none) := by
      unfold cancel
      rw [if_pos hsome]
      simp only [hfind', ne_eq, reduceCtorEq, not_false_eq_true, if_true]
      rfl
    rw [hc]
    have hout := (h.erase he).clear
    have hnb : i ∉ b ++ c := (h.erase he).apart i List.mem_cons_self
    have hrec : ∀ j, (((m.setTimers (b ++ c)).setCb i none).heap j).m_recurring =
        (m.heap j).m_recurring :=
      modify_congr (m := m.setTimers (b ++ c)) Timer.m_recurring rfl
    refine ⟨hsome.symm, hout, fun j hj => ⟨(mem_middle he).mpr (.inr hj), ?_⟩, fun _ => ⟨hi, hnb⟩,
      hrec, rfl, rfl, rfl⟩
    apply setCb_of_ne
    intro heq
    subst heq
    exact hnb hj

theorem refresh_empty (hc : (m.heap i).m_cb = none) : m.refresh i now = (false, m) := by
  unfold refresh
  rw [hc]
  rfl

/-- **`refresh` moves a timer that has a callback** to `m_ms` from now. -/
theorem refresh_spec (h : Out [] m) (hc : (m.heap i).m_cb ≠ none) :
    (m.refresh i now).1 = true ∧ Out [] (m.refresh i now).2 ∧
      (∀ j, j ∈ (m.refresh i now).2.m_timers ↔ j ∈ m.m_timers) ∧
      (m.refresh i now).2.heap =
        Function.update m.heap i { m.heap i with m_next := now + (m.heap i).m_ms } ∧
      (m.refresh i now).2.count = m.count ∧ (m.refresh i now).2.m_tickled = m.m_tickled ∧
      (m.refresh i now).2.m_last_execute_time = m.m_last_execute_time := by
  obtain ⟨b, c, hfind, he⟩ := h.find (h.mem hc)
  set m1 := (m.setTimers (b ++ c)).setNext i (now + (m.heap i).m_ms) with hm1
  have hr : m.refresh i now = (true, m1.setTimers (m1.insert i).toList) := by
    unfold refresh
    rw [if_neg fun hn => hc (Option.isNone_iff_eq_none.mp hn)]
    simp only [hfind, reduceCtorEq, if_false]
    rfl
  have h1 : Out [i] m1 := (h.erase he).setNext List.mem_cons_self _
  rw [hr]
  refine ⟨rfl, h1.insert, fun j => ?_, rfl, rfl, rfl, rfl⟩
  show j ∈ (m1.insert i).toList ↔ _
  rw [h1.mem_insert, mem_middle he]
  rfl

/-! ## insertions that notify -/

/-- `m'` is `m` with the timer `i` put into the set; `front` tells the caller to call
`onTimerInsertedAtFront`, which it need not if that was done since the last `getNextTimer` or
if an earlier timer was there -/
structure Inserted (m : Manager W F) (i : ℕ) (front : Bool) (m' : Manager W F) : Prop where
  out : Out [] m'
  mem : ∀ j, j ∈ m'.m_timers ↔ j = i ∨ j ∈ m.m_timers
  heap : m'.heap = m.heap
  count : m'.count = m.count
  last : m'.m_last_execute_time = m.m_last_execute_time
  front : front = true ∧ m'.m_tickled = true ∨ front = false ∧ m'.m_tickled = m.m_tickled ∧
    (m.m_tickled = true ∨ ∃ a ∈ m.m_timers, m.key a < m.key i)

theorem addTimer_spec (h : Out [i] m) : Inserted m i (m.addTimer i).1 (m.addTimer i).2 := by
  have hmem : ∀ j, j ∈ (m.setTimers (m.insert i).toList).m_timers ↔ j = i ∨ j ∈ m.m_timers :=
    fun j => h.mem_insert
  by_cases hf : (m.insert i).1 = [] ∧ m.m_tickled = false
  · have ha : m.addTimer i = (true, (m.setTimers (m.insert i).toList).setTickled true) := by
      unfold addTimer
      simp only [hf.1, decide_true, setTimers, hf.2, Bool.not_false, Bool.and_self, if_true]
    rw [ha]
    exact ⟨h.insert.setTickled true, hmem, rfl, rfl, rfl, .inl ⟨rfl, rfl⟩⟩
  · have ha : m.addTimer i = (false, m.setTimers (m.insert i).toList) := by
      have hb : (decide ((m.insert i).1 = []) && !(m.setTimers (m.insert i).toList).m_tickled) =
          false := by
        rw [Bool.and_eq_false_iff, decide_eq_false_iff_not, Bool.not_eq_false']
        by_cases he : (m.insert i).1 = []
        · right
          show m.m_tickled = true
          exact Bool.eq_true_of_not_eq_false fun e => hf ⟨he, e⟩
        · left
          exact he
      unfold addTimer
      simp only [hb, Bool.false_eq_true, if_false]
    rw [ha]
    refine ⟨h.insert, hmem, rfl, rfl, rfl, .inr ⟨rfl, rfl, ?_⟩⟩
    by_cases ht : m.m_tickled = true
    · exact .inl ht
    · right
      exact insert_front h.sorted h.keys_ne fun he => hf ⟨he, Bool.eq_false_of_not_eq_true ht⟩

theorem addNew_spec (h : Out [] m) (ms : UInt64) (cb : Option (Callback W F)) (recurring : Bool)
    (now : UInt64) {addr : ℕ} (hf : m.Free addr) :
    Inserted (m.make (.new ms cb recurring now addr)) m.count (m.addNew ms cb recurring now addr).1
      (m.addNew ms cb recurring now addr).2 :=
  addTimer_spec (@Out.make _ _ _ h (.new ms cb recurring now addr) hf)

/-- the first test of `reset`: the period stays and is not counted from now -/
theorem reset_early (m : Manager W F) (i : ℕ) (now : UInt64) :
    m.reset i (m.heap i).m_ms false now = (true, false, m) := by
  unfold reset
  rw [if_pos ⟨rfl, Bool.false_ne_true⟩]

theorem reset_empty {ms : UInt64} {from_now : Bool} (he : ¬ (ms = (m.heap i).m_ms ∧ ¬ from_now))
    (hc : (m.heap i).m_cb = none) : m.reset i ms from_now now = (false, false, m) := by
  unfold reset
  rw [if_neg he, if_pos (Option.isNone_iff_eq_none.mpr hc)]

/-- **Behind the first test, `reset` moves a timer that has a callback.** -/
theorem reset_present (h : Out [] m) {ms : UInt64} {from_now : Bool}
    (he : ¬ (ms = (m.heap i).m_ms ∧ ¬ from_now)) (hc : (m.heap i).m_cb ≠ none) :
    ∃ m1 : Manager W F, Out [i] m1 ∧ m.reset i ms from_now now = (true, m1.addTimer i) ∧
      (∀ j, j ∈ m.m_timers ↔ j = i ∨ j ∈ m1.m_timers) ∧
      m1.heap = Function.update m.heap i { m.heap i with
        m_ms := ms
        m_next := (if from_now then now else (m.heap i).m_next - (m.heap i).m_ms) + ms } ∧
      m1.count = m.count ∧ m1.m_tickled = m.m_tickled ∧
      m1.m_last_execute_time = m.m_last_execute_time := by
  obtain ⟨b, c, hfind, hsplit⟩ := h.find (h.mem hc)
  set start := if from_now then now else (m.heap i).m_next - (m.heap i).m_ms with hstart
  set m1 := ((m.setTimers (b ++ c)).setMs i ms).setNext i (start + ms) with hm1
  have hmem : i ∈ [i] := List.mem_cons_self
  have h1 : Out [i] m1 := ((h.erase hsplit).write hmem rfl rfl rfl).setNext hmem _
  have hms : (((m.setTimers (b ++ c)).setMs i ms).heap i).m_ms = ms := by rw [setMs_self]
  refine ⟨m1, h1, ?_, fun j => mem_middle hsplit, ?_, rfl, rfl, rfl⟩
  · unfold reset
    rw [if_neg he, if_neg fun hn => hc (Option.isNone_iff_eq_none.mp hn)]
    simp only [hfind, reduceCtorEq, if_false]
    show (true, (((m.setTimers (b ++ c)).setMs i ms).setNext i
      (start + (((m.setTimers (b ++ c)).setMs i ms).heap i).m_ms)).addTimer i) = _
    rw [hms]
  · funext j
    by_cases e : j = i
    · subst e
      rw [Function.update_self, hm1, setNext_self, setMs_self, setTimers_heap]
    · rw [Function.update_of_ne e, hm1, setNext_of_ne _ e, setMs_of_ne _ e, setTimers_heap]

/-- `reset` leaves everything as it is, or moves a timer that has a callback -/
theorem reset_spec (h : Out [] m) (ms : UInt64) (from_now : Bool) :
    (∃ b, m.reset i ms from_now now = (b, false, m)) ∨
      (m.heap i).m_cb ≠ none ∧ ∃ m1 : Manager W F, Out [i] m1 ∧
        m.reset i ms from_now now = (true, m1.addTimer i) ∧
        (∀ j, j ∈ m.m_timers ↔ j = i ∨ j ∈ m1.m_timers) ∧
        m1.heap = Function.update m.heap i { m.heap i with
          m_ms := ms
          m_next := (if from_now then now else (m.heap i).m_next - (m.heap i).m_ms) + ms } ∧
        m1.count = m.count ∧ m1.m_tickled = m.m_tickled ∧
        m1.m_last_execute_time = m.m_last_execute_time := by
  by_cases he : ms = (m.heap i).m_ms ∧ ¬ from_now
  · left
    obtain ⟨rfl, hf⟩ := he
    rw [Bool.eq_false_of_not_eq_true hf]
    exact ⟨true, reset_early m i now⟩
  · by_cases hc : (m.heap i).m_cb = none
    · exact .inl ⟨false, reset_empty he hc⟩
    · exact .inr ⟨hc, reset_present h he hc⟩

/-! ## `getNextTimer` -/

theorem getNextTimer_snd (m : Manager W F) (now : UInt64) :
    (m.getNextTimer now).2 = m.setTickled false := by
  unfold getNextTimer
  cases hl : (m.setTickled false).m_timers with
  | nil => simp only [hl]
  | cons next l =>
    simp only [hl]
    by_cases hn : now ≥ ((m.setTickled false).heap next).m_next
    · rw [if_pos hn]
    · rw [if_neg hn]

theorem next_le_of_key_lt (h : m.key i < m.key j) :
    (m.heap i).m_next.toNat ≤ (m.heap j).m_next.toNat := by
  have h' : (m.heap i).key < (m.heap j).key := h
  unfold Timer.key at h'
  rw [Prod.Lex.toLex_lt_toLex] at h'
  rcases h' with h' | ⟨h', -⟩
  · exact Nat.le_of_lt h'
  · exact Nat.le_of_eq h'

/-- the first timer is due first -/
theorem head_earliest (h : Out [] m) {next : ℕ} (hn : m.m_timers.head? = some next)
    (hj : j ∈ m.m_timers) : (m.heap next).m_next.toNat ≤ (m.heap j).m_next.toNat := by
  obtain ⟨l, he⟩ := List.head?_eq_some_iff.mp hn
  have hs := h.sorted
  rw [he] at hs hj
  rcases List.mem_cons.mp hj with rfl | hj
  · exact Nat.le_refl _
  · exact next_le_of_key_lt ((List.pairwise_cons.mp hs).1 j hj)

/-! ## `listExpiredCb` -/

theorem deliver_spec {X : List ℕ} {acc : List (ℕ × Option (Callback W F))} (h : Out (i :: X) m) :
    Out X (deliver now (acc, m) i).2 ∧
      (deliver now (acc, m) i).1 = acc ++ [(i, (m.heap i).m_cb)] ∧
      (∀ j, j ∈ (deliver now (acc, m) i).2.m_timers ↔
        j ∈ m.m_timers ∨ j = i ∧ (m.heap i).m_recurring = true) ∧
      (deliver now (acc, m) i).2.heap = Function.update m.heap i ((m.heap i).delivered now) ∧
      (deliver now (acc, m) i).2.count = m.count ∧
      (deliver now (acc, m) i).2.m_tickled = m.m_tickled ∧
      (deliver now (acc, m) i).2.m_last_execute_time = m.m_last_execute_time := by
  by_cases hr : (m.heap i).m_recurring = true
  · set m1 := m.setNext i (now + (m.heap i).m_ms) with hm1
    have h1 : Out (i :: X) m1 := h.setNext List.mem_cons_self _
    have hd : deliver now (acc, m) i =
        (acc ++ [(i, (m.heap i).m_cb)], m1.setTimers (m1.insert i).toList) := by
      unfold deliver
      simp only [hr, if_true]
      rfl
    rw [hd]
    refine ⟨h1.insert, rfl, fun j => ?_, ?_, rfl, rfl, rfl⟩
    · show j ∈ (m1.insert i).toList ↔ _
      rw [h1.mem_insert]
      show j = i ∨ j ∈ m.m_timers ↔ _
      simp only [hr, and_true]
      exact Or.comm
    · unfold Timer.delivered
      rw [if_pos hr]
      rfl
  · have hd : deliver now (acc, m) i = (acc ++ [(i, (m.heap i).m_cb)], m.setCb i none) := by
      unfold deliver
      simp only [hr, Bool.false_eq_true, if_false]
    rw [hd]
    refine ⟨h.clear, rfl, fun j => ?_, ?_, rfl, rfl, rfl⟩
    · show j ∈ m.m_timers ↔ _
      simp [hr]
    · unfold Timer.delivered
      rw [if_neg hr]
      rfl

theorem deliver_foldl {X : List ℕ} (h : Out X m) (acc : List (ℕ × Option (Callback W F))) :
    let r := X.foldl (deliver now) (acc, m)
    Out [] r.2 ∧ r.1 = acc ++ X.map (fun i => (i, (m.heap i).m_cb)) ∧
      (∀ j, j ∈ r.2.m_timers ↔ j ∈ m.m_timers ∨ j ∈ X ∧ (m.heap j).m_recurring = true) ∧
      (∀ j, r.2.heap j = if j ∈ X then (m.heap j).delivered now else m.heap j) ∧
      r.2.count = m.count ∧ r.2.m_tickled = m.m_tickled ∧
      r.2.m_last_execute_time = m.m_last_execute_time := by
  induction X generalizing m acc with
  | nil => exact ⟨h, (List.append_nil acc).symm, fun j => by simp, fun j => by simp, rfl, rfl, rfl⟩
  | cons i X ih =>
    obtain ⟨h1, hcbs, hmem, hheap, hcount, htick, hlast⟩ := @deliver_spec _ _ _ _ now _ acc h
    obtain ⟨hnew, -⟩ := List.nodup_cons.mp h.nodup
    obtain ⟨ih1, ih2, ih3, ih4, ih5, ih6, ih7⟩ := ih h1 (deliver now (acc, m) i).1
    have hX : ∀ j ∈ X, (deliver now (acc, m) i).2.heap j = m.heap j := by
      intro j hj
      rw [hheap, Function.update_of_ne]
      intro heq
      subst heq
      exact hnew hj
    refine ⟨ih1, ih2.trans ?_, fun j => (ih3 j).trans ?_, fun j => (ih4 j).trans ?_,
      ih5.trans hcount, ih6.trans htick, ih7.trans hlast⟩
    · rw [hcbs, List.append_assoc]
      congr 1
      show (i, (m.heap i).m_cb) :: _ = _
      rw [List.map_cons]
      congr 1
      exact List.map_congr_left fun j hj => by rw [hX j hj]
    · rw [hmem]
      by_cases hj : j ∈ X
      · have hne : j ≠ i := by
          intro heq
          subst heq
          exact hnew hj
        rw [hX j hj]
        simp [hj, hne]
      · by_cases e : j = i
        · subst e
          simp [hj]
        · simp [hj, e]
    · by_cases hj : j ∈ X
      · rw [if_pos hj, if_pos (List.mem_cons_of_mem i hj), hX j hj]
      · rw [if_neg hj, hheap]
        by_cases e : j = i
        · subst e
          rw [Function.update_self, if_pos List.mem_cons_self]
        · rw [Function.update_of_ne e, if_neg]
          exact fun hm => (List.mem_cons.mp hm).elim e hj

theorem lt_of_mem_dropWhile {l : List ℕ} (hs : Sorted m.key l)
    (hge : ∀ j ∈ l, now.toNat ≤ (m.heap j).m_next.toNat)
    (hj : j ∈ l.dropWhile fun i => decide ((m.heap i).m_next = now)) :
    now.toNat < (m.heap j).m_next.toNat := by
  induction l with
  | nil => exact absurd hj List.not_mem_nil
  | cons i l ih =>
    obtain ⟨hi, hl⟩ := List.pairwise_cons.mp hs
    rw [List.dropWhile_cons] at hj
    by_cases hn : (m.heap i).m_next = now
    · rw [if_pos (decide_eq_true hn)] at hj
      exact ih hl (fun j hj => hge j (List.mem_cons_of_mem _ hj)) hj
    · rw [if_neg (by simpa using hn)] at hj
      have hne : (m.heap i).m_next.toNat ≠ now.toNat := fun e => hn (UInt64.toNat_inj.mp e)
      have hlt : now.toNat < (m.heap i).m_next.toNat := by
        have := hge i List.mem_cons_self
        omega
      rcases List.mem_cons.mp hj with rfl | hj
      · exact hlt
      · exact Nat.lt_of_lt_of_le hlt (next_le_of_key_lt (hi j hj))

theorem expiredEnd_spec (h : Out [] m) (rollover : Bool) (now : UInt64) (addr : ℕ) :
    let it := m.expiredEnd rollover now addr
    m.m_timers = it.1 ++ it.2 ∧ (rollover = false →
      (∀ j ∈ it.1, (m.heap j).m_next.toNat ≤ now.toNat) ∧
      ∀ j ∈ it.2, now.toNat < (m.heap j).m_next.toNat) := by
  set k : ℕ ×ₗ ℕ := toLex (now.toNat, addr) with hk
  set same := fun i => decide ((m.heap i).m_next = now) with hsame
  cases rollover with
  | true => exact ⟨by simp [expiredEnd], fun e => absurd e (by simp)⟩
  | false =>
    have happ := @lower_bound_append _ _ _ m.key k m.m_timers
    have hit : m.expiredEnd false now addr = ((lower_bound m.key k m.m_timers).1 ++
        (lower_bound m.key k m.m_timers).2.takeWhile same,
        (lower_bound m.key k m.m_timers).2.dropWhile same) := rfl
    rw [hit]
    refine ⟨?_, fun _ => ⟨fun j hj => ?_, fun j hj => ?_⟩⟩
    · rw [List.append_assoc, List.takeWhile_append_dropWhile, happ]
    · rcases List.mem_append.mp hj with hj | hj
      · have hlt := lower_bound_lt hj
        have hlt' : (m.heap j).key < k := hlt
        rw [hk, Timer.key, Prod.Lex.toLex_lt_toLex] at hlt'
        exact hlt'.elim Nat.le_of_lt fun e => Nat.le_of_eq e.1
      · have he := of_decide_eq_true (List.all_eq_true.mp List.all_takeWhile j hj)
        rw [he]
    · refine lt_of_mem_dropWhile (h.sorted.sublist (List.dropWhile_sublist _)) (fun a ha => ?_) hj
      have hge := lower_bound_ge h.sorted ha
      have hge' : k ≤ (m.heap a).key := hge
      rw [hk, Timer.key, Prod.Lex.toLex_le_toLex] at hge'
      exact hge'.elim Nat.le_of_lt fun e => Nat.le_of_eq e.1

/-- **`listExpiredCb` delivers the callbacks of the first timers of the set**, which are those that
are due unless the clock was set back, and puts the recurring ones back. -/
theorem listExpiredCb_spec (h : Out [] m) (now : UInt64) (addr : ℕ) :
    let r := m.listExpiredCb now addr
    ∃ X R, m.m_timers = X ++ R ∧ Out [] r.2 ∧
      r.1 = X.map (fun i => (i, (m.heap i).m_cb)) ∧
      (∀ j, j ∈ r.2.m_timers ↔ j ∈ R ∨ j ∈ X ∧ (m.heap j).m_recurring = true) ∧
      (∀ j, r.2.heap j = if j ∈ X then (m.heap j).delivered now else m.heap j) ∧
      r.2.count = m.count ∧ r.2.m_tickled = m.m_tickled ∧
      (r.2.m_last_execute_time = m.m_last_execute_time ∨ r.2.m_last_execute_time = now) ∧
      ((m.detectClockRollover now).1 = false →
        (∀ j ∈ X, (m.heap j).m_next.toNat ≤ now.toNat) ∧
        ∀ j ∈ R, now.toNat < (m.heap j).m_next.toNat) := by
  cases hl : m.m_timers with
  | nil =>
    have hr : m.listExpiredCb now addr = ([], m) := by
      unfold listExpiredCb
      rw [hl]
    rw [hr]
    refine ⟨[], [], rfl, h, rfl, fun j => ?_, fun j => ?_, rfl, rfl, .inl rfl, fun _ => ?_⟩
    · show j ∈ m.m_timers ↔ _
      rw [hl]
      simp
    · simp
    · exact ⟨by simp, by simp⟩
  | cons first l =>
    set m1 := (m.detectClockRollover now).2 with hm1
    set rollover := (m.detectClockRollover now).1 with hroll
    have h1 : Out [] m1 := h.detectClockRollover now
    by_cases hearly : (!rollover && decide ((m.heap first).m_next > now)) = true
    · have hr : m.listExpiredCb now addr = ([], m1) := by
        unfold listExpiredCb
        rw [hl]
        exact if_pos hearly
      obtain ⟨hroll', hlt⟩ := by simpa using hearly
      rw [hr]
      refine ⟨[], first :: l, rfl, h1, rfl, fun j => ?_, fun j => ?_, rfl, rfl, .inr rfl,
        fun _ => ⟨by simp, fun j hj => ?_⟩⟩
      · show j ∈ m.m_timers ↔ _
        rw [hl]
        simp
      · simp [hm1, detectClockRollover]
      · have hfirst : now.toNat < (m.heap first).m_next.toNat := UInt64.lt_iff_toNat_lt.mp hlt
        have hs := h.sorted
        rw [hl] at hs
        rcases List.mem_cons.mp hj with rfl | hj
        · exact hfirst
        · exact Nat.lt_of_lt_of_le hfirst (next_le_of_key_lt ((List.pairwise_cons.mp hs).1 j hj))
    · obtain ⟨happ, hdue⟩ := expiredEnd_spec h1 rollover now addr
      set it := m1.expiredEnd rollover now addr with hit
      have hr : m.listExpiredCb now addr = it.1.foldl (deliver now) ([], m1.setTimers it.2) := by
        unfold listExpiredCb
        rw [hl]
        exact if_neg hearly
      obtain ⟨f1, f2, f3, f4, f5, f6, f7⟩ := @deliver_foldl _ _ _ now _ (h1.erase_front happ) []
      rw [hr]
      refine ⟨it.1, it.2, ?_, f1, f2, f3, f4, f5, f6, .inr f7, hdue⟩
      rw [← hl]
      exact happ

end Manager
end Fiber
end CppCores
