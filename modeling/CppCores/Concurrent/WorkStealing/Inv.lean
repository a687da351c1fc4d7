import CppCores.Lib.RingDeque
import CppCores.Concurrent.WorkStealing.Logs

/-!
# WorkStealingQueue: the joint invariant of the owner and the thieves

The outstanding elements are those of the positions `_top ≤ i < hi`.  Between its store of `b - 1`
and its return a `pop` keeps `hi = b` although `_bottom` is smaller: the newest element is still
there for a thief.  `Inv` says in addition

* of the owner at `popRead b t` with `t < b - 1` (the branch without compare-exchange): `_top` stays
  at most `b - 1` and no thief that has passed its check is at the position `b - 1`, because it
  loaded `t` before the owner did, or `_bottom` after the owner's store;
* of a thief that has passed its check with `t = _top`: the position `t` is still outstanding, and
  after the read its copy is the cell's content.

All this is about runs in which every `push` is begun with room to count (`Room`), so that
`t + _capacity` does not wrap.

* `inv_step`     one step keeps `Inv`;
* `Inv.reach`    `Inv` holds in every state reached.
-/

set_option linter.unusedSectionVars false

namespace CppCores
namespace WorkStealing
variable {Tid T : Type*}

/-- the position a thief has checked against `_bottom` -/
def Thief.checked : Thief T → Option UInt64
  | .read t => some t
  | .cas t _ => some t
  | _ => none

namespace State

/-- the position behind the newest outstanding element -/
def hi (s : State Tid T) : ℕ :=
  match s.owner with
  | .popTop2 b => b.toNat
  | .popRead b _ => b.toNat
  | .popCas b _ _ => b.toNat
  | .popRestore b _ => b.toNat
  | _ => s.bottom.toNat

/-- no thief takes the position `b - 1` any more -/
def Left (s : State Tid T) (b : UInt64) : Prop :=
  s.top.toNat + 1 ≤ b.toNat ∧
    ∀ tid t, (s.thief tid).checked = some t → t.toNat + 1 < b.toNat

def OwnerOk (cap : UInt64) (s : State Tid T) : Prop :=
  match s.owner with
  | .idle => True
  | .pushTop _ b => b = s.bottom ∧ b.toNat + cap.toNat < 2 ^ 64
  | .pushWrite _ b => b = s.bottom ∧ b.toNat + cap.toNat < 2 ^ 64 ∧
      b.toNat < s.top.toNat + cap.toNat
  | .pushStore v b => b = s.bottom ∧ b.toNat + cap.toNat < 2 ^ 64 ∧
      b.toNat < s.top.toNat + cap.toNat ∧ s.buffer (slot cap b) = v
  | .popTop b => b = s.bottom
  | .popDec b => b = s.bottom ∧ 0 < b.toNat
  | .popTop2 b => s.bottom.toNat + 1 = b.toNat
  | .popRead b t => s.bottom.toNat + 1 = b.toNat ∧ t.toNat ≤ s.top.toNat ∧
      t.toNat + 1 ≤ b.toNat ∧ (t.toNat + 1 < b.toNat → s.Left b)
  | .popCas b t v => s.bottom.toNat + 1 = b.toNat ∧ t.toNat ≤ s.top.toNat ∧
      t.toNat + 1 = b.toNat ∧ v = s.buffer (slot cap t)
  | .popRestore b _ => s.bottom.toNat + 1 = b.toNat ∧ s.top = b

def ThiefOk (cap : UInt64) (s : State Tid T) : Thief T → Prop
  | .idle => True
  | .bottom t => t.toNat ≤ s.top.toNat
  | .loop t => t.toNat ≤ s.top.toNat
  | .read t => t.toNat ≤ s.top.toNat ∧ (t = s.top → t.toNat < s.hi)
  | .cas t v => t.toNat ≤ s.top.toNat ∧ (t = s.top → t.toNat < s.hi ∧ v = s.buffer (slot cap t))

end State

structure Inv (cap : UInt64) (s : State Tid T) : Prop where
  holds : Holds cap.toNat cap.toNat s.buffer s.top.toNat s.hi s.log
  count : s.hi ≤ (pushed s.log).length + 1
  owner : s.OwnerOk cap
  thief : ∀ tid, s.ThiefOk cap (s.thief tid)

/-! ## words -/

theorem toNat_add_one (a : UInt64) (h : a.toNat + 1 < 2 ^ 64) : (a + 1).toNat = a.toNat + 1 := by
  rw [UInt64.toNat_add]
  exact Nat.mod_eq_of_lt h

theorem toNat_sub_one (a : UInt64) (h : 0 < a.toNat) : (a - 1).toNat = a.toNat - 1 := by
  refine UInt64.toNat_sub_of_le _ _ ?_
  rw [UInt64.le_iff_toNat_le]
  exact h

/-! ## thieves -/

section
variable {cap : UInt64} {s s' : State Tid T} {pc : Thief T}

/-- once `_top` has moved on, nothing is asked of a thief that was there before -/
theorem thiefOk_of_top (h : s.ThiefOk cap pc) (ht : s.top.toNat < s'.top.toNat) :
    s'.ThiefOk cap pc := by
  have later : ∀ t : UInt64, t.toNat ≤ s.top.toNat → t.toNat ≤ s'.top.toNat := by
    intro t hle
    omega
  have stale : ∀ t : UInt64, t.toNat ≤ s.top.toNat → t ≠ s'.top := by
    intro t hle e
    rw [e] at hle
    omega
  cases pc with
  | idle => trivial
  | bottom t => exact later t h
  | loop t => exact later t h
  | read t => exact ⟨later t h.1, fun e => absurd e (stale t h.1)⟩
  | cas t v => exact ⟨later t h.1, fun e => absurd e (stale t h.1)⟩

/-- while `_top` stays, the oldest position must stay outstanding and keep its cell -/
theorem thiefOk_of_same (h : s.ThiefOk cap pc) (ht : s'.top = s.top)
    (hhi : pc.checked = some s.top → s.top.toNat < s.hi → s.top.toNat < s'.hi)
    (hbuf : s.top.toNat < s.hi → s'.buffer (slot cap s.top) = s.buffer (slot cap s.top)) :
    s'.ThiefOk cap pc := by
  cases pc with
  | idle => trivial
  | bottom t => show t.toNat ≤ s'.top.toNat; rw [ht]; exact h
  | loop t => show t.toNat ≤ s'.top.toNat; rw [ht]; exact h
  | read t =>
    show t.toNat ≤ s'.top.toNat ∧ (t = s'.top → t.toNat < s'.hi)
    rw [ht]
    refine ⟨h.1, fun e => ?_⟩
    subst e
    exact hhi rfl (h.2 rfl)
  | cas t v =>
    show t.toNat ≤ s'.top.toNat ∧ (t = s'.top → t.toNat < s'.hi ∧ v = s'.buffer (slot cap t))
    rw [ht]
    refine ⟨h.1, fun e => ?_⟩
    subst e
    obtain ⟨h1, h2⟩ := h.2 rfl
    exact ⟨hhi rfl h1, by rw [hbuf h1]; exact h2⟩

theorem Inv.thief_same (h : Inv cap s) (ht : s'.top = s.top) (hb : s'.buffer = s.buffer)
    (hh : s'.hi = s.hi) (hth : s'.thief = s.thief) : ∀ tid, s'.ThiefOk cap (s'.thief tid) := by
  intro tid
  rw [hth]
  exact thiefOk_of_same (h.thief tid) ht (fun _ h1 => by rw [hh]; exact h1) (fun _ => by rw [hb])

theorem Inv.count_le (h : Inv cap s) {new : List (DequeOp (Elem T))} (hl : s'.log = s.log ++ new)
    (hh : s'.hi ≤ s.hi) : s'.hi ≤ (pushed s'.log).length + 1 := by
  have hcount := h.count
  rw [hl, pushed_append, List.length_append]
  omega

end

/-! ## the steps of the owner -/

section
variable {cap : UInt64} {s s' : State Tid T}

theorem inv_pushTop (h : Inv cap s) {v : Elem T} {b : UInt64}
    (ho : s.owner = .pushTop v b) (hst : stepOwner cap s = some s') : Inv cap s' := by
  have hhi : s.hi = s.bottom.toNat := by simp only [State.hi, ho]
  obtain ⟨hbot, hroom⟩ : b = s.bottom ∧ b.toNat + cap.toNat < 2 ^ 64 := by
    simpa only [State.OwnerOk, ho] using h.owner
  have hle := h.holds.le
  rw [hhi, ← hbot] at hle
  have hadd : (s.top + cap).toNat = s.top.toNat + cap.toNat := by
    rw [UInt64.toNat_add]
    exact Nat.mod_eq_of_lt (by omega)
  simp only [stepOwner, ho] at hst
  by_cases hfull : b ≥ s.top + cap
  · rw [if_pos hfull] at hst
    obtain rfl := Option.some.inj hst
    have hge : s.top.toNat + cap.toNat ≤ s.hi := by
      rw [hhi, ← hadd, ← hbot]
      exact UInt64.le_iff_toNat_le.mp hfull
    have hh : ((s.effect .full).ret .full).hi = s.hi := hhi.symm
    refine ⟨?_, ?_, trivial, h.thief_same rfl rfl hh rfl⟩
    · rw [hh]; exact h.holds.full hge
    · exact h.count_le rfl (Nat.le_of_eq hh)
  · rw [if_neg hfull] at hst
    obtain rfl := Option.some.inj hst
    have hlt : b.toNat < s.top.toNat + cap.toNat := by
      rw [← hadd]
      exact UInt64.lt_iff_toNat_lt.mp (UInt64.not_le.mp hfull)
    have hh : (s.goto (.pushWrite v b)).hi = s.hi := hhi.symm
    refine ⟨?_, ?_, ⟨hbot, hroom, hlt⟩, h.thief_same rfl rfl hh rfl⟩
    · rw [hh]; exact h.holds
    · rw [hh]; exact h.count

theorem inv_pushWrite (h : Inv cap s) (hc : cap.toNat.isPowerOfTwo) {v : Elem T} {b : UInt64}
    (ho : s.owner = .pushWrite v b) (hst : stepOwner cap s = some s') : Inv cap s' := by
  have hhi : s.hi = s.bottom.toNat := by simp only [State.hi, ho]
  obtain ⟨hbot, hroom, hlt⟩ : b = s.bottom ∧ b.toNat + cap.toNat < 2 ^ 64 ∧
      b.toNat < s.top.toNat + cap.toNat := by simpa only [State.OwnerOk, ho] using h.owner
  simp only [stepOwner, ho] at hst
  obtain rfl := Option.some.inj hst
  have hcell : slot cap b = s.hi % cap.toNat := by rw [slot_eq cap b hc, hhi, hbot]
  have hw := h.holds.write (by rw [hhi, ← hbot]; exact hlt) v
  rw [← hcell] at hw
  have hh : ((s.writeSlot (slot cap b) v).goto (.pushStore v b)).hi = s.hi := hhi.symm
  refine ⟨?_, ?_, ⟨hbot, hroom, hlt, Function.update_self ..⟩, fun tid => ?_⟩
  · rw [hh]; exact hw
  · rw [hh]; exact h.count
  · -- the written cell lies a whole lap away from the oldest position
    refine thiefOk_of_same (h.thief tid) rfl (fun _ h1 => by rw [hh]; exact h1) fun h1 => ?_
    refine Function.update_of_ne ?_ ..
    rw [slot_eq cap b hc, slot_eq cap s.top hc]
    rw [hhi, ← hbot] at h1
    exact mod_ne_of_lt_lap h1 hlt

theorem inv_pushStore (h : Inv cap s) (hc : cap.toNat.isPowerOfTwo) {v : Elem T} {b : UInt64}
    (ho : s.owner = .pushStore v b) (hst : stepOwner cap s = some s') : Inv cap s' := by
  have hhi : s.hi = s.bottom.toNat := by simp only [State.hi, ho]
  obtain ⟨hbot, hroom, hlt, hv⟩ : b = s.bottom ∧ b.toNat + cap.toNat < 2 ^ 64 ∧
      b.toNat < s.top.toNat + cap.toNat ∧ s.buffer (slot cap b) = v := by
    simpa only [State.OwnerOk, ho] using h.owner
  have hpos := Nat.pos_of_isPowerOfTwo hc
  simp only [stepOwner, ho] at hst
  obtain rfl := Option.some.inj hst
  have hb1 : (b + 1).toNat = s.hi + 1 := by
    rw [toNat_add_one b (by omega), hbot, hhi]
  have hh : (((s.storeBottom (b + 1)).effect (.pushBack v)).ret (.pushBack v)).hi = s.hi + 1 := hb1
  refine ⟨?_, ?_, trivial, fun tid => ?_⟩
  · rw [hh]
    refine h.holds.pushBack (by rw [hhi, ← hbot]; exact hlt) ?_
    rw [hhi, ← hbot, ← slot_eq cap b hc]
    exact hv
  · have hcount := h.count
    rw [hh]
    show s.hi + 1 ≤ (pushed (s.log ++ [.pushBack v])).length + 1
    rw [pushed_append, List.length_append]
    exact Nat.succ_le_succ hcount
  · exact thiefOk_of_same (h.thief tid) rfl (fun _ h1 => by rw [hh]; omega) (fun _ => rfl)

theorem inv_popTop (h : Inv cap s) {b : UInt64} (ho : s.owner = .popTop b)
    (hst : stepOwner cap s = some s') : Inv cap s' := by
  have hhi : s.hi = s.bottom.toNat := by simp only [State.hi, ho]
  have hbot : b = s.bottom := by simpa only [State.OwnerOk, ho] using h.owner
  simp only [stepOwner, ho] at hst
  by_cases hemp : s.top ≥ b
  · rw [if_pos hemp] at hst
    obtain rfl := Option.some.inj hst
    have hle : s.hi ≤ s.top.toNat := by
      rw [hhi, ← hbot]
      exact UInt64.le_iff_toNat_le.mp hemp
    have hh : ((s.effect .empty).ret .empty).hi = s.hi := hhi.symm
    refine ⟨?_, ?_, trivial, h.thief_same rfl rfl hh rfl⟩
    · rw [hh]; exact h.holds.empty hle
    · exact h.count_le rfl (Nat.le_of_eq hh)
  · rw [if_neg hemp] at hst
    obtain rfl := Option.some.inj hst
    have hlt : s.top.toNat < b.toNat := UInt64.lt_iff_toNat_lt.mp (UInt64.not_le.mp hemp)
    have hh : (s.goto (.popDec b)).hi = s.hi := hhi.symm
    refine ⟨?_, ?_, ⟨hbot, by omega⟩, h.thief_same rfl rfl hh rfl⟩
    · rw [hh]; exact h.holds
    · rw [hh]; exact h.count

theorem inv_popDec (h : Inv cap s) {b : UInt64} (ho : s.owner = .popDec b)
    (hst : stepOwner cap s = some s') : Inv cap s' := by
  have hhi : s.hi = s.bottom.toNat := by simp only [State.hi, ho]
  obtain ⟨hbot, hpos⟩ : b = s.bottom ∧ 0 < b.toNat := by
    simpa only [State.OwnerOk, ho] using h.owner
  simp only [stepOwner, ho] at hst
  obtain rfl := Option.some.inj hst
  have hh : ((s.storeBottom (b - 1)).goto (.popTop2 b)).hi = s.hi := by
    rw [hhi, ← hbot]; rfl
  refine ⟨?_, ?_, ?_, h.thief_same rfl rfl hh rfl⟩
  · rw [hh]; exact h.holds
  · rw [hh]; exact h.count
  · show (b - 1).toNat + 1 = b.toNat
    rw [toNat_sub_one b hpos]
    omega

theorem inv_popTop2 (h : Inv cap s) {b : UInt64} (ho : s.owner = .popTop2 b)
    (hst : stepOwner cap s = some s') : Inv cap s' := by
  have hhi : s.hi = b.toNat := by simp only [State.hi, ho]
  have hbot : s.bottom.toNat + 1 = b.toNat := by simpa only [State.OwnerOk, ho] using h.owner
  have hle := h.holds.le
  have hnew : (b - 1).toNat + 1 = b.toNat := by
    rw [toNat_sub_one b (by omega)]
    omega
  simp only [stepOwner, ho] at hst
  by_cases hgt : s.top > b - 1
  · rw [if_pos hgt] at hst
    obtain rfl := Option.some.inj hst
    have hlt : (b - 1).toNat < s.top.toNat := UInt64.lt_iff_toNat_lt.mp hgt
    have hh : ((s.effect .empty).goto (.popRestore b none)).hi = s.hi := hhi.symm
    refine ⟨?_, ?_, ⟨hbot, ?_⟩, h.thief_same rfl rfl hh rfl⟩
    · rw [hh]; exact h.holds.empty (by omega)
    · exact h.count_le rfl (Nat.le_of_eq hh)
    · exact UInt64.toNat_inj.mp (show s.top.toNat = b.toNat by omega)
  · rw [if_neg hgt] at hst
    obtain rfl := Option.some.inj hst
    have hle' : s.top.toNat ≤ (b - 1).toNat := UInt64.le_iff_toNat_le.mp (UInt64.not_lt.mp hgt)
    have hh : (s.goto (.popRead b s.top)).hi = s.hi := hhi.symm
    have htb : s.top.toNat + 1 ≤ b.toNat := by omega
    refine ⟨?_, ?_, ⟨hbot, Nat.le_refl _, htb, fun hlt => ⟨htb, ?_⟩⟩, h.thief_same rfl rfl hh rfl⟩
    · rw [hh]; exact h.holds
    · rw [hh]; exact h.count
    · -- a thief that has passed its check loaded its `t` before this load of `_top`
      intro tid t ht
      have hth := h.thief tid
      change (s.thief tid).checked = some t at ht
      cases hp : s.thief tid with
      | idle => rw [hp] at ht; exact absurd ht (by simp [Thief.checked])
      | bottom t' => rw [hp] at ht; exact absurd ht (by simp [Thief.checked])
      | loop t' => rw [hp] at ht; exact absurd ht (by simp [Thief.checked])
      | read t' =>
        rw [hp] at ht hth
        obtain rfl := Option.some.inj ht
        have h1 : t'.toNat ≤ s.top.toNat := hth.1
        omega
      | cas t' v =>
        rw [hp] at ht hth
        obtain rfl := Option.some.inj ht
        have h1 : t'.toNat ≤ s.top.toNat := hth.1
        omega

theorem inv_popRead (h : Inv cap s) (hc : cap.toNat.isPowerOfTwo) {b t : UInt64}
    (ho : s.owner = .popRead b t) (hst : stepOwner cap s = some s') : Inv cap s' := by
  have hhi : s.hi = b.toNat := by simp only [State.hi, ho]
  obtain ⟨hbot, htop, htb, hleft⟩ : s.bottom.toNat + 1 = b.toNat ∧ t.toNat ≤ s.top.toNat ∧
      t.toNat + 1 ≤ b.toNat ∧ (t.toNat + 1 < b.toNat → s.Left b) := by
    simpa only [State.OwnerOk, ho] using h.owner
  have hnew : (b - 1).toNat = s.bottom.toNat := by
    rw [toNat_sub_one b (by omega)]
    omega
  simp only [stepOwner, ho] at hst
  by_cases hne : t ≠ b - 1
  · rw [if_pos hne] at hst
    obtain rfl := Option.some.inj hst
    have hlt : t.toNat + 1 < b.toNat := by
      have h1 : t.toNat ≠ (b - 1).toNat := fun e => hne (UInt64.toNat_inj.mp e)
      omega
    obtain ⟨hl1, hl2⟩ := hleft hlt
    set val := s.buffer (slot cap (b - 1)) with hval
    have hh : ((s.effect (.popBack val)).ret (.popBack val)).hi = s.bottom.toNat := rfl
    have hholds := h.holds
    rw [hhi, ← hbot] at hholds
    refine ⟨?_, ?_, trivial, fun tid => ?_⟩
    · rw [hh]
      refine hholds.popBack (by omega) ?_
      rw [hval, slot_eq cap _ hc, hnew]
    · exact h.count_le rfl (by rw [hh]; omega)
    · refine thiefOk_of_same (h.thief tid) rfl (fun hck _ => ?_) (fun _ => rfl)
      have := hl2 tid _ hck
      rw [hh]
      omega
  · rw [if_neg hne] at hst
    obtain rfl := Option.some.inj hst
    have ht : t = b - 1 := not_not.mp hne
    have hh : (s.goto (.popCas b t (s.buffer (slot cap (b - 1))))).hi = s.hi := hhi.symm
    refine ⟨?_, ?_, ⟨hbot, htop, by rw [ht, hnew, hbot], by rw [ht]; rfl⟩,
      h.thief_same rfl rfl hh rfl⟩
    · rw [hh]; exact h.holds
    · rw [hh]; exact h.count

theorem inv_popCas (h : Inv cap s) (hc : cap.toNat.isPowerOfTwo)
    {b t : UInt64} {v : Elem T} (ho : s.owner = .popCas b t v)
    (hst : stepOwner cap s = some s') : Inv cap s' := by
  have hhi : s.hi = b.toNat := by simp only [State.hi, ho]
  obtain ⟨hbot, htop, htb, hv⟩ : s.bottom.toNat + 1 = b.toNat ∧ t.toNat ≤ s.top.toNat ∧
      t.toNat + 1 = b.toNat ∧ v = s.buffer (slot cap t) := by
    simpa only [State.OwnerOk, ho] using h.owner
  have hle := h.holds.le
  have hb64 := b.toNat_lt
  simp only [stepOwner, ho] at hst
  by_cases heq : s.top = t
  · rw [if_pos heq] at hst
    obtain rfl := Option.some.inj hst
    have h1 : (t + 1).toNat = b.toNat := by
      rw [toNat_add_one t (by omega)]
      exact htb
    set s1 := ((s.setTop (t + 1)).effect (.popBack v)).goto (.popRestore b (some v)) with hs1
    have hh : s1.hi = t.toNat + 1 := by
      rw [htb]; rfl
    have htop1 : s1.top.toNat = t.toNat + 1 := by
      rw [htb]; exact h1
    have hholds := h.holds
    rw [hhi, ← htb, heq] at hholds
    refine ⟨?_, ?_, ⟨hbot, ?_⟩, fun tid => ?_⟩
    · -- the last element: taken at the back or at the front is the same
      rw [hh, htop1]
      have hcell : s.buffer (t.toNat % cap.toNat) = v := by rw [hv, slot_eq cap t hc]
      have hp := hholds.popBack (Nat.le_refl _) hcell
      refine ⟨Nat.le_refl _, Nat.le_add_right _ _, ?_⟩
      have hl := hp.legal
      rw [window_empty s.buffer (Nat.le_refl t.toNat)] at hl
      rw [window_empty _ (Nat.le_refl (t.toNat + 1))]
      exact hl
    · exact h.count_le rfl (Nat.le_of_eq (by rw [hh, htb, hhi]))
    · exact UInt64.toNat_inj.mp h1
    · refine thiefOk_of_top (h.thief tid) ?_
      rw [htop1, heq]
      exact Nat.lt_succ_self _
  · rw [if_neg heq] at hst
    obtain rfl := Option.some.inj hst
    have hne : t.toNat ≠ s.top.toNat := fun e => heq (UInt64.toNat_inj.mp e.symm)
    have hh : ((s.effect .empty).goto (.popRestore b none)).hi = s.hi := hhi.symm
    refine ⟨?_, ?_, ⟨hbot, ?_⟩, h.thief_same rfl rfl hh rfl⟩
    · rw [hh]; exact h.holds.empty (by omega)
    · exact h.count_le rfl (Nat.le_of_eq hh)
    · exact UInt64.toNat_inj.mp (show s.top.toNat = b.toNat by omega)

theorem inv_popRestore (h : Inv cap s) {b : UInt64} {r : Option (Elem T)}
    (ho : s.owner = .popRestore b r) (hst : stepOwner cap s = some s') : Inv cap s' := by
  have hhi : s.hi = b.toNat := by simp only [State.hi, ho]
  simp only [stepOwner, ho] at hst
  obtain rfl := Option.some.inj hst
  have hh : ((s.storeBottom b).ret (popResult r)).hi = s.hi := hhi.symm
  refine ⟨?_, ?_, trivial, h.thief_same rfl rfl hh rfl⟩
  · rw [hh]; exact h.holds
  · rw [hh]; exact h.count

theorem inv_owner (h : Inv cap s) (hc : cap.toNat.isPowerOfTwo)
    (hst : stepOwner cap s = some s') : Inv cap s' := by
  cases ho : s.owner with
  | idle => simp [stepOwner, ho] at hst
  | pushTop v b => exact inv_pushTop h ho hst
  | pushWrite v b => exact inv_pushWrite h hc ho hst
  | pushStore v b => exact inv_pushStore h hc ho hst
  | popTop b => exact inv_popTop h ho hst
  | popDec b => exact inv_popDec h ho hst
  | popTop2 b => exact inv_popTop2 h ho hst
  | popRead b t => exact inv_popRead h hc ho hst
  | popCas b t v => exact inv_popCas h hc ho hst
  | popRestore b r => exact inv_popRestore h ho hst

end

/-! ## the steps of a thief -/

section
variable [DecidableEq Tid] {cap : UInt64} {s s' : State Tid T} {tid : Tid}

/-- the owner's part of the invariant reads a thief only at its checked position -/
theorem ownerOk_thiefGoto (h : s.OwnerOk cap) (pc : Thief T)
    (hck : ∀ b t, s.owner = .popRead b t → ∀ t', pc.checked = some t' → s.Left b →
      t'.toNat + 1 < b.toNat) : (s.thiefGoto tid pc).OwnerOk cap := by
  cases ho : s.owner with
  | popRead b t =>
    simp only [State.OwnerOk, ho] at h
    simp only [State.OwnerOk, State.thiefGoto, ho]
    obtain ⟨h1, h2, h3, h4⟩ := h
    refine ⟨h1, h2, h3, fun hlt => ⟨(h4 hlt).1, fun tid' t' ht' => ?_⟩⟩
    by_cases e : tid' = tid
    · subst e
      have : pc.checked = some t' := by simpa only [Function.update_self] using ht'
      exact hck b t ho t' this (h4 hlt)
    · exact (h4 hlt).2 tid' t' (by simpa only [Function.update_of_ne e] using ht')
  | idle => simp only [State.OwnerOk, State.thiefGoto, ho]
  | _ => simpa only [State.OwnerOk, State.thiefGoto, ho] using h

theorem Inv.thiefGoto (h : Inv cap s) (pc : Thief T) (hpc : s.ThiefOk cap pc)
    (hck : ∀ b t, s.owner = .popRead b t → ∀ t', pc.checked = some t' → s.Left b →
      t'.toNat + 1 < b.toNat) : Inv cap (s.thiefGoto tid pc) := by
  refine ⟨h.holds, h.count, ownerOk_thiefGoto h.owner pc hck, fun tid' => ?_⟩
  show s.ThiefOk cap (Function.update s.thief tid pc tid')
  by_cases e : tid' = tid
  · subst e
    rw [Function.update_self]
    exact hpc
  · rw [Function.update_of_ne e]
    exact h.thief tid'

theorem inv_loop (h : Inv cap s) {t : UInt64} (hp : s.thief tid = .loop t)
    (hst : stepThief cap s tid = some s') : Inv cap s' := by
  have hth : t.toNat ≤ s.top.toNat := by simpa only [hp, State.ThiefOk] using h.thief tid
  simp only [stepThief, hp] at hst
  by_cases hge : t ≥ s.bottom
  · rw [if_pos hge] at hst
    obtain rfl := Option.some.inj hst
    exact h.thiefGoto .idle trivial (fun _ _ _ _ hc => absurd hc (by simp [Thief.checked]))
  · rw [if_neg hge] at hst
    obtain rfl := Option.some.inj hst
    have hlt : t.toNat < s.bottom.toNat := UInt64.lt_iff_toNat_lt.mp (UInt64.not_le.mp hge)
    have hhi : s.bottom.toNat ≤ s.hi := by
      -- a `pop` in progress has stored `b - 1`, elsewhere the two are equal
      have ho := h.owner
      cases hpc : s.owner <;> simp only [State.OwnerOk, hpc] at ho <;>
        simp only [State.hi, hpc] <;> omega
    refine h.thiefGoto (.read t) ⟨hth, fun _ => by omega⟩ fun b t0 ho t' hc _ => ?_
    obtain rfl := Option.some.inj hc
    have hown := h.owner
    simp only [State.OwnerOk, ho] at hown
    omega

/-- the owner's place stays right when a thief takes the oldest element -/
theorem ownerOk_stolen (h : Inv cap s) {t : UInt64} {v : Elem T} (hp : s.thief tid = .cas t v)
    (htop : s.top = t) (hlt : t.toNat < s.hi) (ht1 : (t + 1).toNat = t.toNat + 1) :
    ((s.setTop (t + 1)).stolen v).OwnerOk cap := by
  have hown := h.owner
  cases ho : s.owner with
  | idle => simp only [State.OwnerOk, State.setTop, State.stolen, ho]
  | pushTop w b => simpa only [State.OwnerOk, State.setTop, State.stolen, ho] using hown
  | pushWrite w b =>
    simp only [State.OwnerOk, State.setTop, State.stolen, ho, ht1] at hown ⊢
    exact ⟨hown.1, hown.2.1, by rw [htop] at hown; omega⟩
  | pushStore w b =>
    simp only [State.OwnerOk, State.setTop, State.stolen, ho, ht1] at hown ⊢
    exact ⟨hown.1, hown.2.1, by rw [htop] at hown; omega, hown.2.2.2⟩
  | popTop b => simpa only [State.OwnerOk, State.setTop, State.stolen, ho] using hown
  | popDec b => simpa only [State.OwnerOk, State.setTop, State.stolen, ho] using hown
  | popTop2 b => simpa only [State.OwnerOk, State.setTop, State.stolen, ho] using hown
  | popRead b t0 =>
    simp only [State.OwnerOk, State.setTop, State.stolen, ho, ht1] at hown ⊢
    obtain ⟨h1, h2, h3, h4⟩ := hown
    rw [htop] at h2
    refine ⟨h1, by omega, h3, fun hlt' => ⟨?_, (h4 hlt').2⟩⟩
    -- this thief had checked its position, so it is below `b - 1`
    have := (h4 hlt').2 tid t (by rw [hp]; rfl)
    show (t + 1).toNat + 1 ≤ b.toNat
    omega
  | popCas b t0 w =>
    simp only [State.OwnerOk, State.setTop, State.stolen, ho, ht1] at hown ⊢
    rw [htop] at hown
    exact ⟨hown.1, by omega, hown.2.2⟩
  | popRestore b r =>
    -- nothing is outstanding here, so no exchange succeeds
    simp only [State.OwnerOk, ho] at hown
    simp only [State.hi, ho] at hlt
    rw [← htop, hown.2] at hlt
    omega

theorem inv_cas (h : Inv cap s) (hc : cap.toNat.isPowerOfTwo) {t : UInt64} {v : Elem T}
    (hp : s.thief tid = .cas t v) (hst : stepThief cap s tid = some s') : Inv cap s' := by
  obtain ⟨hle, heq⟩ : t.toNat ≤ s.top.toNat ∧
      (t = s.top → t.toNat < s.hi ∧ v = s.buffer (slot cap t)) := by
    simpa only [hp, State.ThiefOk] using h.thief tid
  simp only [stepThief, hp] at hst
  by_cases htop : s.top = t
  · rw [if_pos htop] at hst
    obtain rfl := Option.some.inj hst
    obtain ⟨hlt, hv⟩ := heq htop.symm
    have hhi64 : s.hi < 2 ^ 64 := by
      cases hpc : s.owner <;> simp only [State.hi, hpc] <;> exact UInt64.toNat_lt _
    have ht1 : (t + 1).toNat = t.toNat + 1 := toNat_add_one t (by omega)
    have hh : (((s.setTop (t + 1)).stolen v).thiefGoto tid .idle).hi = s.hi := rfl
    have hholds := h.holds
    rw [htop] at hholds
    refine ⟨?_, h.count_le rfl (Nat.le_refl _), ?_, fun tid' => ?_⟩
    · rw [hh]
      show Holds cap.toNat cap.toNat s.buffer (t + 1).toNat s.hi (s.log ++ [.popFront v])
      rw [ht1]
      exact hholds.popFront hlt (by rw [hv, slot_eq cap t hc])
    · exact ownerOk_thiefGoto (ownerOk_stolen h hp htop hlt ht1) .idle
        (fun _ _ _ _ hck => absurd hck (by simp [Thief.checked]))
    · have hstale : (s.setTop (t + 1)).ThiefOk cap (s.thief tid') := by
        refine thiefOk_of_top (h.thief tid') ?_
        show s.top.toNat < (t + 1).toNat
        rw [ht1, htop]
        exact Nat.lt_succ_self _
      show (s.setTop (t + 1)).ThiefOk cap (Function.update s.thief tid .idle tid')
      by_cases e : tid' = tid
      · subst e
        rw [Function.update_self]
        trivial
      · rw [Function.update_of_ne e]
        exact hstale
  · rw [if_neg htop] at hst
    obtain rfl := Option.some.inj hst
    exact h.thiefGoto (.loop s.top) (Nat.le_refl _)
      (fun _ _ _ _ hck => absurd hck (by simp [Thief.checked]))

theorem inv_thief (h : Inv cap s) (hc : cap.toNat.isPowerOfTwo)
    (hst : stepThief cap s tid = some s') : Inv cap s' := by
  cases hp : s.thief tid with
  | idle => simp [stepThief, hp] at hst
  | bottom t =>
    have hth : t.toNat ≤ s.top.toNat := by simpa only [hp, State.ThiefOk] using h.thief tid
    simp only [stepThief, hp] at hst
    by_cases hge : t ≥ s.bottom
    · rw [if_pos hge] at hst
      obtain rfl := Option.some.inj hst
      exact h.thiefGoto .idle trivial (fun _ _ _ _ hck => absurd hck (by simp [Thief.checked]))
    · rw [if_neg hge] at hst
      obtain rfl := Option.some.inj hst
      exact h.thiefGoto (.loop t) hth (fun _ _ _ _ hck => absurd hck (by simp [Thief.checked]))
  | loop t => exact inv_loop h hp hst
  | read t =>
    obtain ⟨hle, heq⟩ : t.toNat ≤ s.top.toNat ∧ (t = s.top → t.toNat < s.hi) := by
      simpa only [hp, State.ThiefOk] using h.thief tid
    simp only [stepThief, hp] at hst
    obtain rfl := Option.some.inj hst
    refine h.thiefGoto (.cas t _) ⟨hle, fun e => ⟨heq e, rfl⟩⟩ fun b t0 ho t' hck hl => ?_
    exact hl.2 tid t' (by rw [hp]; exact hck)
  | cas t v => exact inv_cas h hc hp hst

/-! ## runs -/

/-- a `push` is begun while, itself counted, fewer than `2 ^ 64 - cap` elements have been pushed -/
def Room (cap : UInt64) (s : State Tid T) : Act Tid T → Prop
  | .push _ => (pushed s.log).length + 1 + cap.toNat < 2 ^ 64
  | _ => True

theorem Inv.call (h : Inv cap s) (ho : s.owner = .idle) {pc : Owner T} {n : ℕ}
    (hpc : ({ s with owner := pc, calls := n } : State Tid T).OwnerOk cap)
    (hh : ({ s with owner := pc, calls := n } : State Tid T).hi = s.bottom.toNat) :
    Inv cap { s with owner := pc, calls := n } := by
  have hhi : s.hi = s.bottom.toNat := by simp only [State.hi, ho]
  rw [← hhi] at hh
  refine ⟨?_, ?_, hpc, h.thief_same rfl rfl hh rfl⟩
  · rw [hh]; exact h.holds
  · rw [hh]; exact h.count

/-- **One step keeps the invariant.** -/
theorem inv_step {a : Act Tid T} (h : Inv cap s) (hc : cap.toNat.isPowerOfTwo) (hr : Room cap s a)
    (hst : Step cap s a s') : Inv cap s' := by
  cases hst with
  | push _ ho =>
    have hhi : s.hi = s.bottom.toNat := by simp only [State.hi, ho]
    have hcount := h.count
    have hr' : (pushed s.log).length + 1 + cap.toNat < 2 ^ 64 := hr
    exact h.call ho ⟨rfl, by omega⟩ rfl
  | pop ho => exact h.call ho rfl rfl
  | owner hst => exact inv_owner h hc hst
  | steal _ =>
    exact h.thiefGoto (.bottom s.top) (Nat.le_refl _)
      (fun _ _ _ _ hck => absurd hck (by simp [Thief.checked]))
  | thief hst => exact inv_thief h hc hst

theorem inv_start (cap : UInt64) (junk : ℕ → Elem T) : Inv cap (start junk : State Tid T) :=
  ⟨Holds.start 1, Nat.le_refl 1, trivial, fun _ => trivial⟩

/-- **The invariant holds in every state reached**, as long as `t + _capacity` cannot wrap. -/
theorem Inv.reach (hc : cap.toNat.isPowerOfTwo) (junk : ℕ → Elem T)
    (h : (queue cap junk : Machine (State Tid T) _).Reach (Room cap) s) : Inv cap s :=
  h.inv (inv_start cap junk) fun _ _ _ ih hr hst => inv_step ih hc hr (step_cases hst)

end

end WorkStealing
end CppCores
