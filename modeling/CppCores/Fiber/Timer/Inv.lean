import CppCores.Fiber.Timer.Model

/-!
# FiberTimerManager: what every operation keeps

`Out P m`: `m_timers` is in order, and the timers with a callback are in `m_timers` or, while an
operation is under way, in `P`, which it has taken out.  The small steps of the operations move timers
in and out of `P` (`Out.erase`, `Out.write`, `Out.clear`, `Out.insert`, `Out.make`); an operation begins
and ends with `P` empty.  A timer with an empty callback can be scheduled too, if it was made with one:
`Filled m` says that there is none.
-/

set_option linter.unusedSectionVars false

namespace CppCores
namespace Fiber
open OrderedSet

namespace Manager
variable {W F : Type*}

/-- the object of the timer is there: a client has a pointer, or it is still to be delivered -/
def Alive (P : List ℕ) (m : Manager W F) (i : ℕ) : Prop :=
  (m.heap i).held = true ∨ i ∈ m.m_timers ∨ i ∈ P

structure Out (P : List ℕ) (m : Manager W F) : Prop where
  sorted : Sorted m.key m.m_timers
  linked : ∀ i, (m.heap i).m_cb ≠ none → i ∈ m.m_timers ∨ i ∈ P
  apart : ∀ i ∈ P, i ∉ m.m_timers
  nodup : P.Nodup
  addr : ∀ i j, Alive P m i → Alive P m j → (m.heap i).addr = (m.heap j).addr → i = j
  fresh : ∀ i, m.count ≤ i → ¬ Alive P m i
  unmoved : m.moved = false

/-- the scheduled timers have a callback -/
def Filled (m : Manager W F) : Prop := ∀ i ∈ m.m_timers, (m.heap i).m_cb ≠ none

section
variable {m : Manager W F} {P : List ℕ} {i j : ℕ} {f : Timer W F → Timer W F}

@[simp] theorem modify_self : (m.modify i f).heap i = f (m.heap i) := Function.update_self ..

theorem modify_of_ne (h : j ≠ i) : (m.modify i f).heap j = m.heap j := Function.update_of_ne h ..

@[simp] theorem setCb_self (cb : Option (Callback W F)) :
    (m.setCb i cb).heap i = { m.heap i with m_cb := cb } := Function.update_self ..

theorem setCb_of_ne (cb : Option (Callback W F)) (h : j ≠ i) :
    (m.setCb i cb).heap j = m.heap j := Function.update_of_ne h ..

@[simp] theorem setMs_self (ms : UInt64) :
    (m.setMs i ms).heap i = { m.heap i with m_ms := ms } := Function.update_self ..

theorem setMs_of_ne (ms : UInt64) (h : j ≠ i) : (m.setMs i ms).heap j = m.heap j :=
  Function.update_of_ne h ..

@[simp] theorem setNext_self (next : UInt64) :
    (m.setNext i next).heap i = { m.heap i with m_next := next } := Function.update_self ..

theorem setNext_of_ne (next : UInt64) (h : j ≠ i) : (m.setNext i next).heap j = m.heap j :=
  Function.update_of_ne h ..

@[simp] theorem setTimers_heap (l : List ℕ) : (m.setTimers l).heap = m.heap := rfl

/-- what is the same for the old and the new timer is the same everywhere -/
theorem modify_congr {β : Type*} (g : Timer W F → β) (h : g (f (m.heap i)) = g (m.heap i)) (j : ℕ) :
    g ((m.modify i f).heap j) = g (m.heap j) := by
  by_cases e : j = i
  · subst e
    rw [modify_self, h]
  · rw [modify_of_ne e]

theorem start_out (now : UInt64) : Out [] (start now : Manager W F) where
  sorted := List.Pairwise.nil
  linked i h := absurd rfl h
  apart := by simp
  nodup := List.nodup_nil
  addr i j hi := by simp [Alive, start, Timer.unmade] at hi
  fresh i _ hi := by simp [Alive, start, Timer.unmade] at hi
  unmoved := rfl

namespace Out

theorem alive (hi : i ∈ m.m_timers ∨ i ∈ P) : Alive P m i := .inr hi

theorem key_ne (h : Out P m) (hi : Alive P m i) (hj : j ∈ m.m_timers) (hne : j ≠ i) :
    m.key j ≠ m.key i := by
  intro e
  refine hne (h.addr j i (alive (.inl hj)) hi ?_)
  exact congrArg (fun k => (ofLex k).2) e

theorem find (h : Out P m) (hi : i ∈ m.m_timers) :
    ∃ b c, m.find i = (b, i :: c) ∧ m.m_timers = b ++ i :: c := find_mem h.sorted hi

theorem alive_congr {P' : List ℕ} {m' : Manager W F}
    (hmem : ∀ j, j ∈ m'.m_timers ∨ j ∈ P' ↔ j ∈ m.m_timers ∨ j ∈ P)
    (hheld : ∀ j, (m'.heap j).held = (m.heap j).held) : Alive P' m' j ↔ Alive P m j := by
  unfold Alive
  rw [hheld, hmem]

theorem erase {b c : List ℕ} (h : Out P m) (he : m.m_timers = b ++ i :: c) :
    Out (i :: P) (m.setTimers (b ++ c)) := by
  have hperm : m.m_timers.Perm (i :: (b ++ c)) := by rw [he]; exact List.perm_middle
  have hnd : (i :: (b ++ c)).Nodup := hperm.nodup_iff.mp h.sorted.nodup
  have hi : i ∈ m.m_timers := hperm.mem_iff.mpr List.mem_cons_self
  have hmem : ∀ j, j ∈ b ++ c ∨ j ∈ i :: P ↔ j ∈ m.m_timers ∨ j ∈ P := by
    intro j
    rw [hperm.mem_iff, List.mem_cons, List.mem_cons]
    tauto
  have halive : ∀ j, Alive (i :: P) (m.setTimers (b ++ c)) j ↔ Alive P m j := fun j =>
    alive_congr hmem fun _ => rfl
  refine ⟨?_, fun j hj => (hmem j).mpr (h.linked j hj), fun j hj hm => ?_, ?_,
    fun j k hj hk => h.addr j k ((halive j).mp hj) ((halive k).mp hk),
    fun j hj hl => h.fresh j hj ((halive j).mp hl), h.unmoved⟩
  · refine h.sorted.sublist ?_
    rw [he]
    exact (List.Sublist.refl b).append (List.sublist_cons_self i c)
  · have hm' : j ∈ b ++ c := hm
    rcases List.mem_cons.mp hj with rfl | hj
    · exact (List.nodup_cons.mp hnd).1 hm'
    · exact h.apart j hj (hperm.mem_iff.mpr (List.mem_cons_of_mem _ hm'))
  · exact List.nodup_cons.mpr ⟨fun hp => h.apart i hp hi, h.nodup⟩

theorem erase_front {X R : List ℕ} (h : Out [] m) (he : m.m_timers = X ++ R) :
    Out X (m.setTimers R) := by
  have hs := h.sorted
  rw [he] at hs
  have hnd := hs.nodup
  have hmem : ∀ j, j ∈ R ∨ j ∈ X ↔ j ∈ m.m_timers ∨ j ∈ [] := by
    intro j
    rw [he, List.mem_append]
    simp only [List.not_mem_nil, or_false]
    exact Or.comm
  have halive : ∀ j, Alive X (m.setTimers R) j ↔ Alive [] m j := fun j =>
    alive_congr hmem fun _ => rfl
  refine ⟨hs.sublist (List.sublist_append_right X R), fun j hj => (hmem j).mpr (h.linked j hj),
    fun j hj hm => List.disjoint_of_nodup_append hnd hj hm, hnd.of_append_left,
    fun j k hj hk => h.addr j k ((halive j).mp hj) ((halive k).mp hk),
    fun j hj hl => h.fresh j hj ((halive j).mp hl), h.unmoved⟩

theorem key_congr (hP : i ∉ m.m_timers) (hj : j ∈ m.m_timers) : (m.modify i f).key j = m.key j := by
  unfold key
  rw [modify_of_ne]
  intro heq
  subst heq
  exact hP hj

theorem write (h : Out P m) (hi : i ∈ P) (hcb : (f (m.heap i)).m_cb = (m.heap i).m_cb)
    (haddr : (f (m.heap i)).addr = (m.heap i).addr)
    (hheld : (f (m.heap i)).held = (m.heap i).held) : Out P (m.modify i f) := by
  have hcb' := modify_congr Timer.m_cb hcb
  have haddr' := modify_congr Timer.addr haddr
  have halive : ∀ j, Alive P (m.modify i f) j ↔ Alive P m j := fun j =>
    alive_congr (fun _ => Iff.rfl) (modify_congr Timer.held hheld)
  refine ⟨?_, fun j hj => ?_, h.apart, h.nodup, fun j k hj hk e => ?_, fun j hj hl => ?_, h.unmoved⟩
  · exact h.sorted.congr fun j hj => key_congr (h.apart i hi) hj
  · rw [hcb' j] at hj
    exact h.linked j hj
  · rw [haddr' j, haddr' k] at e
    exact h.addr j k ((halive j).mp hj) ((halive k).mp hk) e
  · exact h.fresh j hj ((halive j).mp hl)

theorem setNext (h : Out P m) (hi : i ∈ P) (next : UInt64) : Out P (m.setNext i next) := by
  have hw : Out P (m.modify i fun t => { t with m_next := next }) := h.write hi rfl rfl rfl
  refine ⟨hw.sorted, hw.linked, hw.apart, hw.nodup, hw.addr, hw.fresh, ?_⟩
  show (m.moved || decide (i ∈ m.m_timers)) = false
  rw [h.unmoved, decide_eq_false (h.apart i hi)]
  rfl

theorem clear (h : Out (i :: P) m) : Out P (m.setCb i none) := by
  obtain ⟨hnew, hnd⟩ := List.nodup_cons.mp h.nodup
  have hni := h.apart i List.mem_cons_self
  have hne : ∀ j, j ≠ i → (m.setCb i none).heap j = m.heap j := fun j e => setCb_of_ne none e
  have haddr : ∀ j, ((m.setCb i none).heap j).addr = (m.heap j).addr := modify_congr Timer.addr rfl
  have hheld : ∀ j, ((m.setCb i none).heap j).held = (m.heap j).held := modify_congr Timer.held rfl
  have halive : ∀ j, Alive P (m.setCb i none) j → Alive (i :: P) m j := by
    intro j hj
    unfold Alive at hj ⊢
    rw [hheld] at hj
    exact hj.imp_right fun hj => hj.imp_right (List.mem_cons_of_mem i)
  refine ⟨?_, fun j hj => ?_, fun j hj => h.apart j (List.mem_cons_of_mem _ hj), hnd,
    fun j k hj hk e => ?_, fun j hj hl => h.fresh j hj (halive j hl), h.unmoved⟩
  · exact h.sorted.congr fun j hj => key_congr hni hj
  · have e : j ≠ i := by
      intro e
      subst e
      rw [setCb_self] at hj
      exact hj rfl
    rw [hne j e] at hj
    exact (h.linked j hj).imp_right fun hj => (List.mem_cons.mp hj).resolve_left e
  · rw [haddr j, haddr k] at e
    exact h.addr j k (halive j hj) (halive k hk) e

theorem keys_ne (h : Out (i :: P) m) : ∀ j ∈ m.m_timers, m.key j ≠ m.key i := by
  intro j hj
  refine h.key_ne (alive (.inr List.mem_cons_self)) hj ?_
  intro heq
  subst heq
  exact h.apart j List.mem_cons_self hj

theorem mem_insert (h : Out (i :: P) m) : j ∈ (m.insert i).toList ↔ j = i ∨ j ∈ m.m_timers :=
  OrderedSet.mem_insert h.sorted h.keys_ne

theorem insert (h : Out (i :: P) m) : Out P (m.setTimers (m.insert i).toList) := by
  obtain ⟨hnew, hnd⟩ := List.nodup_cons.mp h.nodup
  have hmem : ∀ j, j ∈ (m.insert i).toList ∨ j ∈ P ↔ j ∈ m.m_timers ∨ j ∈ i :: P := by
    intro j
    rw [h.mem_insert, List.mem_cons]
    tauto
  have halive : ∀ j, Alive P (m.setTimers (m.insert i).toList) j ↔ Alive (i :: P) m j := fun j =>
    alive_congr hmem fun _ => rfl
  refine ⟨insert_sorted h.sorted h.keys_ne, fun j hj => (hmem j).mpr (h.linked j hj),
    fun j hj hm => ?_, hnd, fun j k hj hk => h.addr j k ((halive j).mp hj) ((halive k).mp hk),
    fun j hj hl => h.fresh j hj ((halive j).mp hl), h.unmoved⟩
  rcases h.mem_insert.mp hm with rfl | hm
  · exact hnew hj
  · exact h.apart j (List.mem_cons_of_mem _ hj) hm

theorem setTickled (h : Out P m) (b : Bool) : Out P (m.setTickled b) :=
  ⟨h.sorted, h.linked, h.apart, h.nodup, h.addr, h.fresh, h.unmoved⟩

theorem detectClockRollover (h : Out P m) (now : UInt64) : Out P (m.detectClockRollover now).2 :=
  ⟨h.sorted, h.linked, h.apart, h.nodup, h.addr, h.fresh, h.unmoved⟩

theorem release (h : Out P m) (i : ℕ) : Out P (m.release i) := by
  have hcb : ∀ j, ((m.release i).heap j).m_cb = (m.heap j).m_cb := modify_congr Timer.m_cb rfl
  have haddr : ∀ j, ((m.release i).heap j).addr = (m.heap j).addr := modify_congr Timer.addr rfl
  have hkey : ∀ j, (m.release i).key j = m.key j := modify_congr Timer.key rfl
  have halive : ∀ j, Alive P (m.release i) j → Alive P m j := by
    intro j hj
    refine hj.imp_left fun hj => ?_
    by_cases e : j = i
    · subst e
      unfold Manager.release at hj
      rw [modify_self] at hj
      cases hj
    · rwa [show (m.release i).heap j = m.heap j from modify_of_ne e] at hj
  refine ⟨h.sorted.congr fun j _ => hkey j, fun j hj => ?_, h.apart, h.nodup, fun j k hj hk e => ?_,
    fun j hj hl => h.fresh j hj (halive j hl), h.unmoved⟩
  · rw [hcb j] at hj
    exact h.linked j hj
  · rw [haddr j, haddr k] at e
    exact h.addr j k (halive j hj) (halive k hk) e

theorem make (h : Out [] m) {t : Timer W F} (hf : m.Free t.addr) : Out [m.count] (m.make t) := by
  have hself : (m.make t).heap m.count = t := Function.update_self ..
  have hne : ∀ j, j ≠ m.count → (m.make t).heap j = m.heap j := fun j e =>
    Function.update_of_ne e ..
  have hnew : m.count ∉ m.m_timers := fun hm => h.fresh _ (Nat.le_refl _) (alive (.inl hm))
  have hold : ∀ j, j ≠ m.count → Alive [m.count] (m.make t) j → Alive [] m j := by
    intro j e hj
    unfold Alive at hj ⊢
    rw [hne j e] at hj
    exact hj.imp_right fun hj => .inl (hj.resolve_right fun hj => e (List.mem_singleton.mp hj))
  -- an object that is there has another address
  have hfar : ∀ j, j ≠ m.count → Alive [m.count] (m.make t) j → (m.heap j).addr ≠ t.addr := by
    intro j e hj
    have hl := hold j e hj
    refine hf j (Nat.lt_of_not_le fun hle => h.fresh j hle hl) ?_
    exact hl.imp_right fun hl => hl.resolve_right List.not_mem_nil
  refine ⟨?_, fun j hj => ?_, fun j hj => ?_, List.nodup_singleton _, fun j k hj hk e => ?_,
    fun j hj hl => ?_, h.unmoved⟩
  · refine h.sorted.congr fun j hj => ?_
    unfold key
    rw [hne]
    intro heq
    subst heq
    exact hnew hj
  · by_cases e : j = m.count
    · exact .inr (List.mem_singleton.mpr e)
    · rw [hne j e] at hj
      exact .inl ((h.linked j hj).resolve_right List.not_mem_nil)
  · rw [List.mem_singleton.mp hj]
    exact hnew
  · by_cases ej : j = m.count <;> by_cases ek : k = m.count
    · rw [ej, ek]
    · subst ej
      rw [hself, hne k ek] at e
      exact absurd e.symm (hfar k ek hk)
    · subst ek
      rw [hself, hne j ej] at e
      exact absurd e (hfar j ej hj)
    · rw [hne j ej, hne k ek] at e
      exact h.addr j k (hold j ej hj) (hold k ek hk) e
  · have hj' : m.count + 1 ≤ j := hj
    exact h.fresh j (by omega) (hold j (by omega) hl)

end Out
end
end Manager
end Fiber
end CppCores
