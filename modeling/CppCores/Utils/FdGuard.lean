import CppCores.Lib.Machine
import CppCores.Lib.Ownership

/-!
# fd_guard: the owner of a file descriptor in `utils/fd_utils.h`

The system is the guards that exist and the table of the kernel, which maps the number of an open
descriptor to the adoption it belongs to: a number is used again after `::close`, an adoption is not.
`closed k` counts the calls of `::close` by guards that closed adoption `k`, `badClose` those on a number
that is not open.  The holder of a released descriptor may close it.

* `held s g`           the adoption that guard `g` owns; `ledger s` is the ledger of ownership;
* `Inv s`              the numbers in the guards are open, the ledger is `Ok`;
* `owned_or_closed`    **while no move-assignment overwrites a descriptor, every adoption is owned by
                       one guard, or was closed once, or was released**;
* `overwrite_leaks`    a move-assignment that overwrites one leaks it.
-/

namespace CppCores
namespace FdGuard
open Machine

/-! ## the code -/

structure fd_guard where
  fd_ : ℤ
  deriving DecidableEq, Repr

namespace fd_guard

def new : fd_guard := ⟨-1⟩

/-- the destructor; its result is the argument of `::close`, if that is called -/
def destroy (g : fd_guard) : Option ℤ := if g.fd_ ≥ 0 then some g.fd_ else none

/-- the move constructor: the new guard and `other` -/
def moveConstruct (other : fd_guard) : fd_guard × fd_guard := (⟨other.fd_⟩, ⟨-1⟩)

/-- `operator=(fd_guard &&)` from another guard: what is assigned to and `other` -/
def moveAssign (_ other : fd_guard) : fd_guard × fd_guard := (⟨other.fd_⟩, ⟨-1⟩)

def reset (g : fd_guard) (fd : ℤ) : Option ℤ × fd_guard :=
  (if g.fd_ ≥ 0 then some g.fd_ else none, ⟨fd⟩)

def release (g : fd_guard) : ℤ × fd_guard := (g.fd_, ⟨-1⟩)

end fd_guard

/-! ## the system -/

structure State where
  guards : ℕ → Option fd_guard
  table : ℤ → Option ℕ
  next : ℕ
  closed : ℕ → ℕ
  released : ℕ → Bool
  badClose : ℕ

namespace State

def init : State where
  guards := fun _ => none
  table := fun _ => none
  next := 0
  closed := fun _ => 0
  released := fun _ => false
  badClose := 0

/-- `::close(fd)` by a guard -/
def close (s : State) : Option ℤ → State
  | none => s
  | some fd =>
    match s.table fd with
    | none => { s with badClose := s.badClose + 1 }
    | some k =>
      { s with
        table := Function.update s.table fd none
        closed := Function.update s.closed k (s.closed k + 1) }

/-- the kernel opens `fd` -/
def opened (s : State) (fd : ℤ) : State :=
  { s with table := Function.update s.table fd (some s.next), next := s.next + 1 }

def set (s : State) (g : ℕ) (x : Option fd_guard) : State :=
  { s with guards := Function.update s.guards g x }

end State

inductive Op where
  | construct (g : ℕ)
  | destroy (g : ℕ)
  /-- `reset(fd)`; an `fd` that is not negative was opened for the call -/
  | reset (g : ℕ) (fd : ℤ)
  | release (g : ℕ)
  | moveConstruct (g other : ℕ)
  | moveAssign (g other : ℕ)
  /-- the holder of a released descriptor closes it -/
  | closeReleased (fd : ℤ)
  deriving DecidableEq, Repr

open State in
def step (s : State) : Op → Option State
  | .construct g =>
    match s.guards g with
    | none => some (s.set g (some .new))
    | some _ => none
  | .destroy g =>
    match s.guards g with
    | none => none
    | some x => some ((s.close x.destroy).set g none)
  | .reset g fd =>
    match s.guards g with
    | none => none
    | some x =>
      if fd = -1 then some ((s.close (x.reset fd).1).set g (some (x.reset fd).2))
      else if 0 ≤ fd ∧ s.table fd = none then
        some (((s.opened fd).close (x.reset fd).1).set g (some (x.reset fd).2))
      else none
  | .release g =>
    match s.guards g with
    | none => none
    | some x =>
      match s.table x.release.1 with
      | none => some (s.set g (some x.release.2))
      | some k =>
        some { s.set g (some x.release.2) with released := Function.update s.released k true }
  | .moveConstruct g other =>
    match s.guards g, s.guards other with
    | none, some y => some ((s.set g (some y.moveConstruct.1)).set other (some y.moveConstruct.2))
    | _, _ => none
  | .moveAssign g other =>
    match s.guards g, s.guards other with
    | some x, some y =>
      if g = other then some s
      else some ((s.set g (some (x.moveAssign y).1)).set other (some (x.moveAssign y).2))
    | _, _ => none
  | .closeReleased fd =>
    match s.table fd with
    | none => none
    | some k =>
      if s.released k = true then some { s with table := Function.update s.table fd none } else none

def machine : Machine State Op := ⟨.init, step⟩

/-! ## ownership -/

/-- the adoption that guard `g` owns -/
def held (s : State) (g : ℕ) : Option ℕ :=
  (s.guards g).bind fun x => if 0 ≤ x.fd_ then s.table x.fd_ else none

def ledger (s : State) : Ledger ℕ := ⟨held s, s.next, s.closed, s.released⟩

/-- what the ownership of descriptors means -/
structure Owned (s : State) : Prop where
  unique : ∀ g g' k, held s g = some k → held s g' = some k → g = g'
  once : ∀ k < s.next, s.released k = false →
    (s.closed k = 0 ∧ ∃ g, held s g = some k) ∨ (s.closed k = 1 ∧ ∀ g, held s g ≠ some k)
  never : ∀ k < s.next, s.released k = true → s.closed k = 0 ∧ ∀ g, held s g ≠ some k
  noBadClose : s.badClose = 0
  noLeak : (∀ g, s.guards g = none) → ∀ fd k, s.table fd = some k → s.released k = true

/-- a move-assignment does not overwrite a descriptor -/
def noOverwrite (s : State) : Op → Prop
  | .moveAssign g other => g = other ∨ (s.guards g).all (fun x => x.fd_ < 0) = true
  | _ => True

instance (s : State) (op : Op) : Decidable (noOverwrite s op) := by
  cases op <;> unfold noOverwrite <;> infer_instance

structure Inv (s : State) : Prop where
  ok : (ledger s).Ok
  isOpen : ∀ g x, s.guards g = some x → 0 ≤ x.fd_ → ∃ k, s.table x.fd_ = some k
  nonneg : ∀ fd k, s.table fd = some k → 0 ≤ fd
  known : ∀ fd k, s.table fd = some k → k < s.next ∧ s.closed k = 0
  inj : ∀ fd fd' k, s.table fd = some k → s.table fd' = some k → fd = fd'
  noBadClose : s.badClose = 0

theorem Inv.owned {s : State} (h : Inv s) : Owned s where
  unique := h.ok.unique
  once := by
    intro k hk hr
    have hle : s.closed k ≤ 1 := h.ok.once k
    rcases Nat.eq_zero_or_pos (s.closed k) with h0 | hpos
    · exact .inl ⟨h0, h.ok.kept k hk hr h0⟩
    · refine .inr ⟨by omega, fun g hg => ?_⟩
      have : s.closed k = 0 := (h.ok.owned g k hg).2.1
      omega
  never := by
    intro k _ hr
    refine ⟨h.ok.never k hr, fun g hg => ?_⟩
    have hf : s.released k = false := (h.ok.owned g k hg).2.2
    rw [hr] at hf
    cases hf
  noBadClose := h.noBadClose
  noLeak := by
    intro hnone fd k hfd
    by_contra hr
    obtain ⟨hk, hc⟩ := h.known fd k hfd
    obtain ⟨g, hg⟩ := h.ok.kept k hk (Bool.eq_false_iff.mpr hr) hc
    have hg : held s g = some k := hg
    rw [held, hnone g] at hg
    cases hg

theorem inv_init : Inv .init where
  ok := ⟨nofun, nofun, nofun, fun _ => Nat.zero_le 1, fun _ _ => rfl, fun _ _ => ⟨rfl, rfl⟩⟩
  isOpen := nofun
  nonneg := nofun
  known := nofun
  inj := nofun
  noBadClose := rfl

/-! ## the steps -/

/-- what the operations do, one constructor for each case -/
inductive Step (s : State) : Op → State → Prop
  | construct {g : ℕ} : s.guards g = none → Step s (.construct g) (s.set g (some .new))
  | destroy {g : ℕ} {x : fd_guard} : s.guards g = some x →
      Step s (.destroy g) ((s.close x.destroy).set g none)
  | resetNone {g : ℕ} {x : fd_guard} : s.guards g = some x →
      Step s (.reset g (-1)) ((s.close x.destroy).set g (some ⟨-1⟩))
  | reset {g : ℕ} {x : fd_guard} {fd : ℤ} : s.guards g = some x → 0 ≤ fd → s.table fd = none →
      Step s (.reset g fd) (((s.opened fd).close x.destroy).set g (some ⟨fd⟩))
  | releaseNone {g : ℕ} {x : fd_guard} : s.guards g = some x → s.table x.fd_ = none →
      Step s (.release g) (s.set g (some ⟨-1⟩))
  | release {g k : ℕ} {x : fd_guard} : s.guards g = some x → s.table x.fd_ = some k →
      Step s (.release g)
        { s.set g (some ⟨-1⟩) with released := Function.update s.released k true }
  | moveConstruct {g other : ℕ} {y : fd_guard} : s.guards g = none → s.guards other = some y →
      Step s (.moveConstruct g other) ((s.set g (some ⟨y.fd_⟩)).set other (some ⟨-1⟩))
  | moveSelf {g : ℕ} {x : fd_guard} : s.guards g = some x → Step s (.moveAssign g g) s
  | moveAssign {g other : ℕ} {x y : fd_guard} : s.guards g = some x → s.guards other = some y →
      g ≠ other → Step s (.moveAssign g other) ((s.set g (some ⟨y.fd_⟩)).set other (some ⟨-1⟩))
  | closeReleased {fd : ℤ} {k : ℕ} : s.table fd = some k → s.released k = true →
      Step s (.closeReleased fd) { s with table := Function.update s.table fd none }

theorem step_cases {s s' : State} {op : Op} (hst : step s op = some s') : Step s op s' := by
  unfold step at hst
  split at hst
  · split at hst
    · next hg =>
      rw [← Option.some.inj hst]
      exact .construct hg
    · cases hst
  · split at hst
    · cases hst
    · next x hg =>
      rw [← Option.some.inj hst]
      exact .destroy hg
  · split at hst
    · cases hst
    · next x hg =>
      split at hst
      · next hfd =>
        rw [← Option.some.inj hst, hfd]
        exact .resetNone hg
      · obtain ⟨⟨hfd, hfree⟩, hst⟩ := Option.ite_none_right_eq_some.mp hst
        rw [← Option.some.inj hst]
        exact .reset hg hfd hfree
  · split at hst
    · cases hst
    · next x hg =>
      split at hst
      · next hk =>
        rw [← Option.some.inj hst]
        exact .releaseNone hg hk
      · next k hk =>
        rw [← Option.some.inj hst]
        exact .release hg hk
  · split at hst
    · next y hg hy =>
      rw [← Option.some.inj hst]
      exact .moveConstruct hg hy
    · cases hst
  · split at hst
    · next x y hg hy =>
      split at hst
      · next he =>
        subst he
        rw [← Option.some.inj hst]
        exact .moveSelf hg
      · next hne =>
        rw [← Option.some.inj hst]
        exact .moveAssign hg hy hne
    · cases hst
  · split at hst
    · cases hst
    · next k hk =>
      obtain ⟨hr, hst⟩ := Option.ite_none_right_eq_some.mp hst
      rw [← Option.some.inj hst]
      exact .closeReleased hk hr

/-- no guard, or one that owns nothing -/
def Idle (y : Option fd_guard) : Prop := ∀ x, y = some x → x.fd_ < 0

theorem idle_none : Idle none := nofun

theorem idle_minus_one : Idle (some ⟨-1⟩) := by
  intro x hx
  rw [← Option.some.inj hx]
  decide

theorem held_of {s : State} {g : ℕ} {x : fd_guard} (hg : s.guards g = some x) (hx : 0 ≤ x.fd_) :
    held s g = s.table x.fd_ := by
  rw [held, hg, Option.bind_some, if_pos hx]

theorem held_idle {s : State} {g : ℕ} (h : Idle (s.guards g)) : held s g = none := by
  rw [held]
  cases hg : s.guards g with
  | none => rfl
  | some x =>
    have := h x hg
    rw [Option.bind_some, if_neg (by omega)]

@[simp] theorem guards_set_self (s : State) (g : ℕ) (y : Option fd_guard) :
    (s.set g y).guards g = y := Function.update_self ..

theorem guards_set_ne (s : State) {g a : ℕ} (y : Option fd_guard) (ha : a ≠ g) :
    (s.set g y).guards a = s.guards a := Function.update_of_ne ha ..

/-- what a guard owns depends on its number and the entry of that -/
theorem held_congr {s s' : State} {a : ℕ} (hg : s'.guards a = s.guards a)
    (ht : ∀ z, s.guards a = some z → 0 ≤ z.fd_ → s'.table z.fd_ = s.table z.fd_) :
    held s' a = held s a := by
  rw [held, held, hg]
  cases hz : s.guards a with
  | none => rfl
  | some z =>
    rw [Option.bind_some, Option.bind_some]
    split
    · exact ht z hz ‹_›
    · rfl

theorem held_move {s : State} {g other : ℕ} {y : fd_guard} (hy : s.guards other = some y) :
    held ((s.set g (some ⟨y.fd_⟩)).set other (some ⟨-1⟩)) =
      Function.update (Function.update (held s) g (held s other)) other none := by
  funext a
  rcases eq_or_ne a other with rfl | hao
  · rw [Function.update_self]
    exact held_idle (by rw [guards_set_self]; exact idle_minus_one)
  rw [Function.update_of_ne hao]
  rcases eq_or_ne a g with rfl | hag
  · rw [Function.update_self, held, guards_set_ne _ _ hao, guards_set_self, held, hy]
    rfl
  · rw [Function.update_of_ne hag]
    refine held_congr ?_ fun _ _ _ => rfl
    rw [guards_set_ne _ _ hao, guards_set_ne _ _ hag]

namespace Inv
variable {s : State}

theorem held_eq (h : Inv s) {g : ℕ} {x : fd_guard} (hg : s.guards g = some x) :
    held s g = s.table x.fd_ := by
  rcases Int.lt_or_le x.fd_ 0 with hneg | hpos
  · rw [held, hg, Option.bind_some, if_neg (by omega)]
    cases ht : s.table x.fd_ with
    | none => rfl
    | some k =>
      have := h.nonneg x.fd_ k ht
      omega
  · exact held_of hg hpos

theorem set_idle (h : Inv s) {g : ℕ} (hg : Idle (s.guards g)) {y : Option fd_guard} (hy : Idle y) :
    Inv (s.set g y) := by
  have hheld : held (s.set g y) = held s := by
    funext a
    rcases eq_or_ne a g with rfl | ha
    · rw [held_idle hg]
      exact held_idle (by rwa [guards_set_self])
    · exact held_congr (guards_set_ne s y ha) fun _ _ _ => rfl
  exact {
    ok := by
      have : ledger (s.set g y) = ledger s := by
        rw [ledger, hheld]
        rfl
      rw [this]
      exact h.ok
    isOpen := by
      intro a x ha hx
      rcases eq_or_ne a g with rfl | hne
      · rw [guards_set_self] at ha
        have := hy x ha
        omega
      · rw [guards_set_ne _ _ hne] at ha
        exact h.isOpen a x ha hx
    nonneg := h.nonneg
    known := h.known
    inj := h.inj
    noBadClose := h.noBadClose }

theorem close (h : Inv s) {g : ℕ} {x : fd_guard} (hg : s.guards g = some x) {y : Option fd_guard}
    (hy : Idle y) : Inv ((s.close x.destroy).set g y) := by
  rw [fd_guard.destroy]
  split
  · rename_i hpos
    obtain ⟨k, hk⟩ := h.isOpen g x hg hpos
    have hgk : held s g = some k := (held_of hg hpos).trans hk
    rw [State.close, hk]
    -- another guard has another number
    have hother : ∀ a z, a ≠ g → s.guards a = some z → 0 ≤ z.fd_ → z.fd_ ≠ x.fd_ := by
      intro a z ha hz hz0 e
      refine ha (h.ok.unique a g k ?_ hgk)
      exact (held_of hz hz0).trans (e ▸ hk)
    have hheld : held ({ s with
        table := Function.update s.table x.fd_ none
        closed := Function.update s.closed k (s.closed k + 1) }.set g y) =
        Function.update (held s) g none := by
      funext a
      rcases eq_or_ne a g with rfl | ha
      · rw [Function.update_self]
        exact held_idle (by rwa [guards_set_self])
      · rw [Function.update_of_ne ha]
        refine held_congr (guards_set_ne _ y ha) fun z hz hz0 => ?_
        exact Function.update_of_ne (hother a z ha hz hz0) ..
    have hne : ∀ fd m, Function.update s.table x.fd_ none fd = some m →
        s.table fd = some m ∧ m ≠ k := by
      intro fd m hm
      rcases eq_or_ne fd x.fd_ with rfl | hfd
      · rw [Function.update_self] at hm
        cases hm
      · rw [Function.update_of_ne hfd] at hm
        refine ⟨hm, ?_⟩
        rintro rfl
        exact hfd (h.inj fd x.fd_ m hm hk)
    exact {
      ok := by
        have := h.ok.close g
        rw [Ledger.close, show (ledger s).owner g = some k from hgk] at this
        rw [ledger, hheld]
        exact this
      isOpen := by
        intro a z ha hz
        rcases eq_or_ne a g with rfl | hag
        · rw [guards_set_self] at ha
          have := hy z ha
          omega
        · rw [guards_set_ne _ _ hag] at ha
          obtain ⟨m, hm⟩ := h.isOpen a z ha hz
          exact ⟨m, (Function.update_of_ne (hother a z hag ha hz) ..).trans hm⟩
      nonneg := fun fd m hm => h.nonneg fd m (hne fd m hm).1
      known := by
        intro fd m hm
        obtain ⟨h1, h2⟩ := hne fd m hm
        obtain ⟨h3, h4⟩ := h.known fd m h1
        exact ⟨h3, (Function.update_of_ne h2 ..).trans h4⟩
      inj := fun fd fd' m hm hm' => h.inj fd fd' m (hne fd m hm).1 (hne fd' m hm').1
      noBadClose := h.noBadClose }
  · rename_i hneg
    refine h.set_idle ?_ hy
    intro z hz
    rw [hg] at hz
    rw [← Option.some.inj hz]
    omega

theorem adopt (h : Inv s) {g : ℕ} (hg : Idle (s.guards g)) {fd : ℤ} (hfd : 0 ≤ fd)
    (hfree : s.table fd = none) : Inv ((s.opened fd).set g (some ⟨fd⟩)) := by
  have hold : ∀ fd' k, s.table fd' = some k → fd' ≠ fd := by
    rintro fd' k hk rfl
    rw [hfree] at hk
    cases hk
  have hheld : held ((s.opened fd).set g (some ⟨fd⟩)) =
      Function.update (held s) g (some s.next) := by
    funext a
    rcases eq_or_ne a g with rfl | ha
    · rw [Function.update_self, held_of (x := ⟨fd⟩) (Function.update_self ..) hfd]
      exact Function.update_self ..
    · rw [Function.update_of_ne ha]
      refine held_congr (guards_set_ne _ _ ha) fun z hz hz0 => ?_
      obtain ⟨k, hk⟩ := h.isOpen a z hz hz0
      exact Function.update_of_ne (hold z.fd_ k hk) ..
  have hcases : ∀ fd' k, Function.update s.table fd (some s.next) fd' = some k →
      (fd' = fd ∧ k = s.next) ∨ (s.table fd' = some k ∧ k < s.next) := by
    intro fd' k hk
    rcases eq_or_ne fd' fd with rfl | hne
    · rw [Function.update_self] at hk
      exact .inl ⟨rfl, (Option.some.inj hk).symm⟩
    · rw [Function.update_of_ne hne] at hk
      exact .inr ⟨hk, (h.known fd' k hk).1⟩
  exact {
    ok := by
      have := h.ok.adopt (i := g) (held_idle hg)
      rw [ledger, hheld]
      exact this
    isOpen := by
      intro a z ha hz
      rcases eq_or_ne a g with rfl | hag
      · rw [guards_set_self] at ha
        rw [← Option.some.inj ha]
        exact ⟨s.next, Function.update_self ..⟩
      · rw [guards_set_ne _ _ hag] at ha
        obtain ⟨k, hk⟩ := h.isOpen a z ha hz
        exact ⟨k, (Function.update_of_ne (hold z.fd_ k hk) ..).trans hk⟩
    nonneg := by
      intro fd' k hk
      rcases hcases fd' k hk with ⟨rfl, _⟩ | ⟨hk', _⟩
      · exact hfd
      · exact h.nonneg fd' k hk'
    known := by
      intro fd' k hk
      rcases hcases fd' k hk with ⟨_, rfl⟩ | ⟨hk', _⟩
      · exact ⟨Nat.lt_succ_self _, (h.ok.later _ (Nat.le_refl _)).1⟩
      · obtain ⟨h1, h2⟩ := h.known fd' k hk'
        exact ⟨Nat.lt_succ_of_lt h1, h2⟩
    inj := by
      intro fd1 fd2 k h1 h2
      rcases hcases fd1 k h1 with ⟨e1, hk1⟩ | ⟨h1', hlt1⟩ <;>
        rcases hcases fd2 k h2 with ⟨e2, hk2⟩ | ⟨h2', hlt2⟩
      · exact e1.trans e2.symm
      · omega
      · omega
      · exact h.inj fd1 fd2 k h1' h2'
    noBadClose := h.noBadClose }

theorem release (h : Inv s) {g : ℕ} {x : fd_guard} (hg : s.guards g = some x) {k : ℕ}
    (hk : s.table x.fd_ = some k) :
    Inv { s.set g (some ⟨-1⟩) with released := Function.update s.released k true } := by
  have hgk : held s g = some k := (h.held_eq hg).trans hk
  have hheld : held { s.set g (some ⟨-1⟩) with released := Function.update s.released k true } =
      Function.update (held s) g none := by
    funext a
    rcases eq_or_ne a g with rfl | ha
    · rw [Function.update_self]
      apply held_idle
      show Idle ((s.set a (some ⟨-1⟩)).guards a)
      rw [guards_set_self]
      exact idle_minus_one
    · rw [Function.update_of_ne ha]
      exact held_congr (guards_set_ne s _ ha) fun _ _ _ => rfl
  exact {
    ok := by
      have := h.ok.release g
      rw [Ledger.release, show (ledger s).owner g = some k from hgk] at this
      rw [ledger, hheld]
      exact this
    isOpen := by
      intro a z ha hz
      replace ha : (s.set g (some ⟨-1⟩)).guards a = some z := ha
      rcases eq_or_ne a g with rfl | hag
      · rw [guards_set_self] at ha
        have := idle_minus_one z ha
        omega
      · rw [guards_set_ne _ _ hag] at ha
        exact h.isOpen a z ha hz
    nonneg := h.nonneg
    known := h.known
    inj := h.inj
    noBadClose := h.noBadClose }

theorem move (h : Inv s) {g other : ℕ} {y : fd_guard} (hg : Idle (s.guards g))
    (hy : s.guards other = some y) :
    Inv ((s.set g (some ⟨y.fd_⟩)).set other (some ⟨-1⟩)) := by
  exact {
    ok := by
      have := h.ok.move (i := g) (j := other) (held_idle hg)
      rw [ledger, held_move hy]
      exact this
    isOpen := by
      intro a z ha hz
      rcases eq_or_ne a other with rfl | hao
      · rw [guards_set_self] at ha
        have := idle_minus_one z ha
        omega
      rw [guards_set_ne _ _ hao] at ha
      rcases eq_or_ne a g with rfl | hag
      · rw [guards_set_self] at ha
        rw [← Option.some.inj ha] at hz ⊢
        exact h.isOpen other y hy hz
      · rw [guards_set_ne _ _ hag] at ha
        exact h.isOpen a z ha hz
    nonneg := h.nonneg
    known := h.known
    inj := h.inj
    noBadClose := h.noBadClose }

theorem closeReleased (h : Inv s) {fd : ℤ} {k : ℕ} (hk : s.table fd = some k)
    (hr : s.released k = true) : Inv { s with table := Function.update s.table fd none } := by
  have hother : ∀ a z, s.guards a = some z → z.fd_ ≠ fd := by
    rintro a z hz rfl
    have hf : s.released k = false := (h.ok.owned a k ((h.held_eq hz).trans hk)).2.2
    rw [hr] at hf
    cases hf
  have hheld : held { s with table := Function.update s.table fd none } = held s := by
    funext a
    exact held_congr rfl fun z hz _ => Function.update_of_ne (hother a z hz) ..
  have hold : ∀ fd' m, Function.update s.table fd none fd' = some m → s.table fd' = some m := by
    intro fd' m hm
    rcases eq_or_ne fd' fd with rfl | hne
    · rw [Function.update_self] at hm
      cases hm
    · rwa [Function.update_of_ne hne] at hm
  exact {
    ok := by
      rw [ledger, hheld]
      exact h.ok
    isOpen := by
      intro a z ha hz
      obtain ⟨m, hm⟩ := h.isOpen a z ha hz
      exact ⟨m, (Function.update_of_ne (hother a z ha) ..).trans hm⟩
    nonneg := fun fd' m hm => h.nonneg fd' m (hold fd' m hm)
    known := fun fd' m hm => h.known fd' m (hold fd' m hm)
    inj := fun fd1 fd2 m h1 h2 => h.inj fd1 fd2 m (hold fd1 m h1) (hold fd2 m h2)
    noBadClose := h.noBadClose }

end Inv

/-- opening a descriptor and closing another commute -/
theorem opened_close {s : State} {x : fd_guard} (h : Inv s) {g : ℕ} (hg : s.guards g = some x)
    {fd : ℤ} (hfree : s.table fd = none) :
    (s.opened fd).close x.destroy = (s.close x.destroy).opened fd := by
  rw [fd_guard.destroy]
  split
  · rename_i hpos
    obtain ⟨k, hk⟩ := h.isOpen g x hg hpos
    have hne : x.fd_ ≠ fd := by
      intro e
      rw [e, hfree] at hk
      cases hk
    have hk' : (s.opened fd).table x.fd_ = some k := (Function.update_of_ne hne ..).trans hk
    rw [State.close, hk', State.close, hk]
    simp only [State.opened]
    rw [Function.update_comm hne]
  · rfl

theorem close_free {s : State} {g : ℕ} {y : Option fd_guard} {x : fd_guard} {fd : ℤ}
    (hfree : s.table fd = none) : ((s.close x.destroy).set g y).table fd = none := by
  show (s.close x.destroy).table fd = none
  rw [fd_guard.destroy]
  split
  · rw [State.close]
    split
    · exact hfree
    · show Function.update s.table x.fd_ none fd = none
      rcases eq_or_ne fd x.fd_ with rfl | hne
      · exact Function.update_self ..
      · exact (Function.update_of_ne hne ..).trans hfree
  · exact hfree

theorem Inv.reset {s : State} (h : Inv s) {g : ℕ} {x : fd_guard} {fd : ℤ}
    (hg : s.guards g = some x) (hfd : 0 ≤ fd) (hfree : s.table fd = none) :
    Inv (((s.opened fd).close x.destroy).set g (some ⟨fd⟩)) := by
  have hc := h.close hg (y := some ⟨-1⟩) idle_minus_one
  have ha := hc.adopt (g := g) (by rw [guards_set_self]; exact idle_minus_one) hfd
    (close_free hfree)
  rw [opened_close h hg hfree]
  simp only [State.set, State.opened, Function.update_idem] at ha
  exact ha

/-- the number in a guard is negative, if it is not open -/
theorem Inv.idle_of_none {s : State} (h : Inv s) {g : ℕ} {x : fd_guard} (hg : s.guards g = some x)
    (hk : s.table x.fd_ = none) : Idle (s.guards g) := by
  intro z hz
  rw [hg] at hz
  rw [← Option.some.inj hz]
  by_contra hneg
  obtain ⟨k, hk'⟩ := h.isOpen g x hg (by omega)
  rw [hk] at hk'
  cases hk'

theorem inv_step {s s' : State} {op : Op} (h : Inv s) (hop : noOverwrite s op)
    (hst : step s op = some s') : Inv s' := by
  cases step_cases hst with
  | construct hg => exact h.set_idle (hg ▸ idle_none) idle_minus_one
  | destroy hg => exact h.close hg idle_none
  | resetNone hg => exact h.close hg idle_minus_one
  | reset hg hfd hfree => exact h.reset hg hfd hfree
  | releaseNone hg hk => exact h.set_idle (h.idle_of_none hg hk) idle_minus_one
  | release hg hk => exact h.release hg hk
  | moveConstruct hg hy => exact h.move (hg ▸ idle_none) hy
  | moveSelf => exact h
  | @moveAssign g other x y hg hy hne =>
    refine h.move (fun z hz => ?_) hy
    have hneg := hop.resolve_left hne
    rw [hz] at hneg
    simpa using hneg
  | closeReleased hk hr => exact h.closeReleased hk hr

/-- **While no move-assignment overwrites a descriptor, every adoption is owned by one guard, or was
closed once, or was released.** -/
theorem owned_or_closed {s : State} (h : machine.Reach noOverwrite s) : Owned s :=
  (h.inv inv_init fun _ _ _ hi hop hst => inv_step hi hop hst).owned

/-- construct, adopt, move, assign to itself, destroy -/
theorem owned_or_closed_run : ∃ s, machine.Reach noOverwrite s ∧ Owned s ∧ s.closed 0 = 1 := by
  have h : (machine.execIf noOverwrite machine.init
      [.construct 0, .reset 0 3, .moveConstruct 1 0, .moveAssign 1 1, .destroy 1]).map
      (fun s => s.closed 0) = some 1 := by decide
  obtain ⟨s, hs, e⟩ := Option.map_eq_some_iff.mp h
  have hr : machine.Reach noOverwrite s := .of_execIf _ .init hs
  exact ⟨s, hr, owned_or_closed hr, e⟩

/-! ## the move-assignment that overwrites a descriptor -/

/-- **What it overwrites is left open, and nobody owns it.** -/
theorem overwrite_leaks {s s' : State} {op : Op} (h : Inv s) (hop : ¬ noOverwrite s op)
    (hst : step s op = some s') : ¬ Owned s' := by
  cases step_cases hst with
  | @moveAssign g other x y hg hy hne =>
    have hpos : 0 ≤ x.fd_ := by
      by_contra hneg
      refine hop (.inr ?_)
      rw [hg]
      simpa using hneg
    obtain ⟨k, hk⟩ := h.isOpen g x hg hpos
    have hgk : held s g = some k := (held_of hg hpos).trans hk
    obtain ⟨hlt, hc, hr⟩ := h.ok.owned g k hgk
    intro ho
    rcases ho.once k hlt hr with ⟨_, a, ha⟩ | ⟨h1, _⟩
    · have ha := (congrFun (held_move hy) a).symm.trans ha
      rcases eq_or_ne a other with rfl | hao
      · rw [Function.update_self] at ha
        cases ha
      rw [Function.update_of_ne hao] at ha
      rcases eq_or_ne a g with rfl | hag
      · rw [Function.update_self] at ha
        exact hne (h.ok.unique a other k hgk ha)
      · rw [Function.update_of_ne hag] at ha
        exact hag (h.ok.unique a g k ha hgk)
    · have h1 : s.closed k = 1 := h1
      have hc : s.closed k = 0 := hc
      omega
  | moveSelf => exact absurd (.inl rfl) hop
  | _ => exact absurd trivial hop

/-- two guards with a descriptor each, and an assignment of one to the other -/
theorem not_owned_or_closed : ¬ ∀ s, machine.Reachable s → Owned s := by
  intro hall
  have h : (machine.execIf noOverwrite machine.init
      [.construct 0, .construct 1, .reset 0 3, .reset 1 4]).map (fun s =>
        (decide (noOverwrite s (.moveAssign 0 1)), (step s (.moveAssign 0 1)).isSome)) =
      some (false, true) := by decide
  obtain ⟨s, hs, e⟩ := Option.map_eq_some_iff.mp h
  obtain ⟨hop, hsome⟩ := Prod.mk.inj e
  obtain ⟨s', hst⟩ := Option.isSome_iff_exists.mp hsome
  have hr : machine.Reach noOverwrite s := .of_execIf _ .init hs
  have hi : Inv s := hr.inv inv_init fun _ _ _ hi hop hst => inv_step hi hop hst
  have hm : machine.step s (.moveAssign 0 1) = some s' := hst
  exact overwrite_leaks hi (of_decide_eq_false hop) hst (hall s' (hr.reachable.step trivial hm))

end FdGuard
end CppCores
