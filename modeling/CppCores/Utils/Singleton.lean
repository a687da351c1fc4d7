import Mathlib.Data.List.Basic
import Mathlib.Logic.Function.Basic
import Mathlib.Tactic.Common
import CppCores.Lib.Machine

/-!
# SingletonBase: `utils/singleton.h`

Any number of threads call `GetInstance` of one `SingletonBase<T>`, with arguments of their own, and
`IsAlive`; the program destroys the static `Holder` at its end, while threads may still run.  Taking the
once flag, a constructor, an access to `s_holder_` or to `is_alive` is one step.  A holder is the number
of the construction it comes from, and `std::call_once` lets one thread at a time construct, waits for
it, and lets the next one try when the constructor throws.

No step reads `got` and `told`, the answers of the two functions so far.

* `Inv`           where the construction is, by the once flag;
* `Next.inv`      a step keeps it;
* `single`        **one object is constructed, every call that returns an object returns that one, none
                  of them once its destructor has begun, and the wait for the once flag is a wait for a
                  thread that can go on.**
-/

set_option linter.unusedSectionVars false

namespace CppCores
namespace Singleton
open Machine

/-- `std::once_flag` -/
inductive OnceFlag (Id : Type*) where
  | fresh
  | running (t : Id)
  | done
  deriving DecidableEq, Repr

/-- the place of a thread -/
inductive Pc (Args : Type*) where
  | idle
  /-- in `GetInstance`, before `std::call_once` -/
  | entering (args : Args)
  /-- before the constructor of `value` -/
  | building (args : Args)
  /-- before `is_alive{true}` -/
  | marking (k : ℕ)
  /-- before `*holder = this` -/
  | publishing (k : ℕ)
  /-- at the end of `std::call_once` -/
  | finishing
  /-- before the last line of `GetInstance` -/
  | loading
  /-- in `IsAlive`, which has found `s_holder_` set -/
  | checking
  deriving DecidableEq, Repr

/-- a thread that is in neither function -/
def Pc.isIdle {Args : Type*} : Pc Args → Bool
  | .idle => true
  | _ => false

/-- a thread that has the once flag -/
def Pc.inside {Args : Type*} : Pc Args → Bool
  | .building _ | .marking _ | .publishing _ | .finishing => true
  | .idle | .entering _ | .loading | .checking => false

structure State (Id Args : Type*) where
  s_once_flag_ : OnceFlag Id
  s_holder_ : Option ℕ
  built : List Args
  is_alive : ℕ → Bool
  /-- the holders whose destructor is due at the end of the program -/
  registered : ℕ → Bool
  pc : Id → Pc Args
  /-- a call has used `s_holder_` when it was null -/
  nullHolder : Bool
  got : List (Id × Option ℕ)
  told : List (Id × Bool)

inductive Act (Id Args : Type*) where
  | GetInstance (t : Id) (args : Args)
  | IsAlive (t : Id)
  /-- a thread goes on; a constructor may throw -/
  | go (t : Id) (throws : Bool)
  /-- `~Holder` -/
  | exit (k : ℕ)

section
variable {Id Args : Type*} [DecidableEq Id]

namespace State

def goto (s : State Id Args) (t : Id) (pc : Pc Args) : State Id Args :=
  { s with pc := Function.update s.pc t pc }

def setFlag (s : State Id Args) (f : OnceFlag Id) : State Id Args := { s with s_once_flag_ := f }

/-- `T` is constructed -/
def build (s : State Id Args) (args : Args) : State Id Args := { s with built := s.built ++ [args] }

def mark (s : State Id Args) (k : ℕ) (b : Bool) : State Id Args :=
  { s with is_alive := Function.update s.is_alive k b }

/-- `*holder = this`, the end of the initialization of the static `holder` -/
def publish (s : State Id Args) (k : ℕ) : State Id Args :=
  { s with s_holder_ := some k, registered := Function.update s.registered k true }

/-- `s_holder_->is_alive ? &s_holder_->value : nullptr` -/
def load (s : State Id Args) (t : Id) : State Id Args :=
  match s.s_holder_ with
  | none => { s with nullHolder := true }
  | some k => { s with got := s.got ++ [(t, if s.is_alive k then some k else none)] }

def tell (s : State Id Args) (t : Id) (b : Bool) : State Id Args := { s with told := s.told ++ [(t, b)] }

end State

/-- the thread `t` goes on -/
def stepGo (s : State Id Args) (t : Id) (throws : Bool) : Option (State Id Args) :=
  match s.pc t with
  | .idle => none
  | .entering args =>
    match s.s_once_flag_ with
    | .fresh => some ((s.setFlag (.running t)).goto t (.building args))
    | .running _ => none
    | .done => some (s.goto t .loading)
  | .building args =>
    if throws then some ((s.setFlag .fresh).goto t .idle)
    else some ((s.build args).goto t (.marking s.built.length))
  | .marking k => some ((s.mark k true).goto t (.publishing k))
  | .publishing k => some ((s.publish k).goto t .finishing)
  | .finishing => some ((s.setFlag .done).goto t .loading)
  | .loading => some ((s.load t).goto t .idle)
  | .checking =>
    match s.s_holder_ with
    | none => some { s with nullHolder := true }
    | some k => some ((s.tell t (s.is_alive k)).goto t .idle)

def step (s : State Id Args) (a : Act Id Args) : Option (State Id Args) :=
  if s.nullHolder then none
  else
    match a with
    | .GetInstance t args => if (s.pc t).isIdle then some (s.goto t (.entering args)) else none
    | .IsAlive t =>
      if (s.pc t).isIdle then
        some (if s.s_holder_.isSome then s.goto t .checking else s.tell t false)
      else none
    | .go t throws => stepGo s t throws
    | .exit k => if s.registered k && s.is_alive k then some (s.mark k false) else none

/-- before the first call -/
def start : State Id Args where
  s_once_flag_ := .fresh
  s_holder_ := none
  built := []
  is_alive := fun _ => false
  registered := fun _ => false
  pc := fun _ => .idle
  nullHolder := false
  got := []
  told := []

def singleton : Machine (State Id Args) (Act Id Args) := ⟨start, step⟩

variable {s s' : State Id Args} {a : Act Id Args} {t u : Id} {throws : Bool}

/-! ## what a step does -/

/-- what a thread does next, and where it is then -/
inductive Next (s : State Id Args) (t : Id) : Pc Args → State Id Args → Pc Args → Prop
  | enter {args : Args} : s.s_once_flag_ = .fresh →
      Next s t (.entering args) (s.setFlag (.running t)) (.building args)
  | pass {args : Args} : s.s_once_flag_ = .done → Next s t (.entering args) s .loading
  | fail {args : Args} : Next s t (.building args) (s.setFlag .fresh) .idle
  | build {args : Args} : Next s t (.building args) (s.build args) (.marking s.built.length)
  | mark {k : ℕ} : Next s t (.marking k) (s.mark k true) (.publishing k)
  | publish {k : ℕ} : Next s t (.publishing k) (s.publish k) .finishing
  | finish : Next s t .finishing (s.setFlag .done) .loading
  | load : Next s t .loading (s.load t) .idle
  | check {k : ℕ} : s.s_holder_ = some k → Next s t .checking (s.tell t (s.is_alive k)) .idle

/-- the steps, as long as no thread in `IsAlive` finds `s_holder_` null again -/
inductive Step (s : State Id Args) : Act Id Args → State Id Args → Prop
  | call {t : Id} {args : Args} : (s.pc t).isIdle = true →
      Step s (.GetInstance t args) (s.goto t (.entering args))
  | ask {t : Id} : (s.pc t).isIdle = true → s.s_holder_ ≠ none →
      Step s (.IsAlive t) (s.goto t .checking)
  | never {t : Id} : Step s (.IsAlive t) (s.tell t false)
  | go {t : Id} {throws : Bool} {r : State Id Args} {pc : Pc Args} : Next s t (s.pc t) r pc →
      Step s (.go t throws) (r.goto t pc)
  | exit {k : ℕ} : s.registered k = true → Step s (.exit k) (s.mark k false)

theorem Step.of_next {pc pc' : Pc Args} {r : State Id Args} (hp : s.pc t = pc)
    (h : Next s t pc r pc') : Step s (.go t throws) (r.goto t pc') := .go (hp ▸ h)

theorem stepGo_cases (hc : s.pc t = .checking → s.s_holder_ ≠ none)
    (h : stepGo s t throws = some s') : Step s (.go t throws) s' := by
  unfold stepGo at h
  split at h
  · cases h
  · next args hp =>
    split at h
    · next hf =>
      obtain rfl := Option.some.inj h
      exact .of_next hp (.enter hf)
    · cases h
    · next hf =>
      obtain rfl := Option.some.inj h
      exact .of_next hp (.pass hf)
  · next args hp =>
    split at h
    · obtain rfl := Option.some.inj h
      exact .of_next hp .fail
    · obtain rfl := Option.some.inj h
      exact .of_next hp .build
  · next k hp =>
    obtain rfl := Option.some.inj h
    exact .of_next hp .mark
  · next k hp =>
    obtain rfl := Option.some.inj h
    exact .of_next hp .publish
  · next hp =>
    obtain rfl := Option.some.inj h
    exact .of_next hp .finish
  · next hp =>
    obtain rfl := Option.some.inj h
    exact .of_next hp .load
  · next hp =>
    split at h
    · next hn => exact absurd hn (hc hp)
    · next k hk =>
      obtain rfl := Option.some.inj h
      exact .of_next hp (.check hk)

theorem step_cases (hc : ∀ t, s.pc t = .checking → s.s_holder_ ≠ none)
    (h : step s a = some s') : Step s a s' := by
  obtain ⟨-, h⟩ := Option.ite_none_left_eq_some.mp h
  cases a with
  | GetInstance t args =>
    obtain ⟨hp, h⟩ := Option.ite_none_right_eq_some.mp h
    obtain rfl := Option.some.inj h
    exact .call hp
  | IsAlive t =>
    obtain ⟨hp, h⟩ := Option.ite_none_right_eq_some.mp h
    obtain rfl := Option.some.inj h
    split
    · next hs => exact .ask hp (Option.isSome_iff_ne_none.mp hs)
    · exact .never
  | go t throws => exact stepGo_cases (hc t) h
  | exit k =>
    obtain ⟨hk, h⟩ := Option.ite_none_right_eq_some.mp h
    obtain rfl := Option.some.inj h
    exact .exit (Bool.and_eq_true_iff.mp hk).1

/-! ## where the construction is -/

/-- the object, by the place of the thread that has the once flag -/
def Stage (s : State Id Args) : Pc Args → Prop
  | .building _ => s.built = [] ∧ s.s_holder_ = none
  | .marking k | .publishing k => k = 0 ∧ s.built.length = 1 ∧ s.s_holder_ = none
  | .finishing => s.built.length = 1 ∧ s.s_holder_ = some 0
  | .idle | .entering _ | .loading | .checking => False

/-- the object, by the once flag -/
def Phase (s : State Id Args) : OnceFlag Id → Prop
  | .fresh => s.built = [] ∧ s.s_holder_ = none ∧ ∀ t, (s.pc t).inside = false
  | .running t => Stage s (s.pc t) ∧ ∀ u, u ≠ t → (s.pc u).inside = false
  | .done => s.built.length = 1 ∧ s.s_holder_ = some 0 ∧ ∀ t, (s.pc t).inside = false

structure Inv (s : State Id Args) : Prop where
  phase : Phase s s.s_once_flag_
  loading : ∀ t, s.pc t = .loading → s.s_once_flag_ = .done
  checking : ∀ t, s.pc t = .checking → s.s_holder_ ≠ none
  registered : ∀ k, s.registered k = true ↔ s.s_holder_ = some k
  never : s.nullHolder = false
  got : ∀ t k, (t, some k) ∈ s.got → k = 0 ∧ s.built.length = 1
  told : ∀ t, (t, true) ∈ s.told → s.built.length = 1

theorem inv_start : Inv (start : State Id Args) where
  phase := ⟨rfl, rfl, fun _ => rfl⟩
  loading _ := nofun
  checking _ := nofun
  registered _ := ⟨nofun, nofun⟩
  never := rfl
  got _ _ := nofun
  told _ := nofun

theorem goto_pc (s : State Id Args) (t u : Id) (pc : Pc Args) :
    (s.goto t pc).pc u = if u = t then pc else s.pc u := Function.update_apply ..

theorem Stage.inside {pc : Pc Args} (h : Stage s pc) : pc.inside = true := by
  cases pc with
  | building | marking | publishing | finishing => rfl
  | idle | entering | loading | checking => exact h.elim

theorem outside_goto {pc : Pc Args} (hp : pc.inside = false)
    (ho : ∀ u, u ≠ t → (s.pc u).inside = false) (u : Id) : ((s.goto t pc).pc u).inside = false := by
  rw [goto_pc]
  split
  · exact hp
  · next hu => exact ho u hu

theorem Phase.goto {f : OnceFlag Id} {pc : Pc Args} (h : Phase s f) (ht : (s.pc t).inside = false)
    (hp : pc.inside = false) : Phase (s.goto t pc) f := by
  cases f with
  | fresh => exact ⟨h.1, h.2.1, outside_goto hp fun u _ => h.2.2 u⟩
  | done => exact ⟨h.1, h.2.1, outside_goto hp fun u _ => h.2.2 u⟩
  | running v =>
    have hvt : v ≠ t := by
      rintro rfl
      exact absurd (h.1.inside.symm.trans ht) (by decide)
    refine ⟨?_, fun u hu => ?_⟩
    · rw [goto_pc, if_neg hvt]
      exact h.1
    · rw [goto_pc]
      split
      · exact hp
      · exact h.2 u hu

namespace Inv

theorem running {q : Pc Args} (hi : Inv s) (hq : s.pc t = q) (h : q.inside = true) :
    s.s_once_flag_ = .running t ∧ Stage s q ∧ ∀ u, u ≠ t → (s.pc u).inside = false := by
  have hp := hi.phase
  rw [← hq] at h ⊢
  cases hf : s.s_once_flag_ with
  | fresh =>
    rw [hf] at hp
    exact absurd (h.symm.trans (hp.2.2 t)) (by decide)
  | done =>
    rw [hf] at hp
    exact absurd (h.symm.trans (hp.2.2 t)) (by decide)
  | running v =>
    rw [hf] at hp
    by_cases hv : t = v
    · subst hv
      exact ⟨rfl, hp⟩
    · exact absurd (h.symm.trans (hp.2 t hv)) (by decide)

theorem holder (hi : Inv s) (h : s.s_holder_ ≠ none) :
    s.built.length = 1 ∧ s.s_holder_ = some 0 := by
  have hp := hi.phase
  cases hf : s.s_once_flag_ with
  | fresh =>
    rw [hf] at hp
    exact absurd hp.2.1 h
  | done =>
    rw [hf] at hp
    exact ⟨hp.1, hp.2.1⟩
  | running v =>
    rw [hf] at hp
    have hst := hp.1
    unfold Stage at hst
    split at hst
    · exact absurd hst.2 h
    · exact absurd hst.2.2 h
    · exact absurd hst.2.2 h
    · exact hst
    all_goals exact hst.elim

/-- no thread is past the once flag before it is done -/
theorem not_loading (hi : Inv s) (hf : s.s_once_flag_ ≠ .done) (t : Id) : s.pc t ≠ .loading :=
  fun h => hf (hi.loading t h)

end Inv

theorem loading_goto {pc : Pc Args} {P : Prop} (hp : pc = .loading → P)
    (ho : ∀ u, u ≠ t → s.pc u = .loading → P) (u : Id) (h : (s.goto t pc).pc u = .loading) : P := by
  rw [goto_pc] at h
  split at h
  · exact hp h
  · next hu => exact ho u hu h

theorem checking_goto {pc : Pc Args} {P : Prop} (hp : pc = .checking → P)
    (ho : ∀ u, s.pc u = .checking → P) (u : Id) (h : (s.goto t pc).pc u = .checking) : P := by
  rw [goto_pc] at h
  split at h
  · exact hp h
  · exact ho u h

/-- **A step of a thread keeps the invariant.** -/
theorem Next.inv {r : State Id Args} {pc : Pc Args} (h : Next s t (s.pc t) r pc) (hi : Inv s) :
    Inv (r.goto t pc) := by
  have hph := hi.phase
  generalize hq : s.pc t = q at h
  cases h with
  | @enter args hf =>
    rw [hf] at hph
    have hnl := hi.not_loading (hf ▸ nofun)
    refine { hi with phase := ⟨?_, fun u hu => ?_⟩, loading := ?_, checking := ?_ }
    · rw [goto_pc, if_pos rfl]
      exact ⟨hph.1, hph.2.1⟩
    · rw [goto_pc, if_neg hu]
      exact hph.2.2 u
    · exact loading_goto nofun fun u _ hu => absurd hu (hnl u)
    · exact checking_goto nofun hi.checking
  | pass hf =>
    refine { hi with phase := ?_, loading := ?_, checking := ?_ }
    · exact hph.goto (hq ▸ rfl) rfl
    · exact loading_goto (fun _ => hf) fun u _ => hi.loading u
    · exact checking_goto nofun hi.checking
  | fail =>
    obtain ⟨hf, hst, ho⟩ := hi.running hq rfl
    have hnl := hi.not_loading (hf ▸ nofun)
    refine { hi with phase := ⟨hst.1, hst.2, outside_goto rfl ho⟩, loading := ?_, checking := ?_ }
    · exact loading_goto nofun fun u _ hu => absurd hu (hnl u)
    · exact checking_goto nofun hi.checking
  | @build args =>
    obtain ⟨hf, hst, ho⟩ := hi.running hq rfl
    have hnl := hi.not_loading (hf ▸ nofun)
    have hlen : (s.built ++ [args]).length = 1 := by
      rw [hst.1]
      rfl
    refine ⟨?_, ?_, ?_, hi.registered, hi.never, ?_, ?_⟩
    · show Phase _ s.s_once_flag_
      rw [hf]
      refine ⟨?_, fun u hu => ?_⟩
      · rw [goto_pc, if_pos rfl]
        exact ⟨by rw [hst.1]; rfl, hlen, hst.2⟩
      · rw [goto_pc, if_neg hu]
        exact ho u hu
    · exact loading_goto nofun fun u _ hu => absurd hu (hnl u)
    · exact checking_goto nofun hi.checking
    · exact fun u k hk => ⟨(hi.got u k hk).1, hlen⟩
    · exact fun _ _ => hlen
  | @mark k =>
    obtain ⟨hf, hst, ho⟩ := hi.running hq rfl
    have hnl := hi.not_loading (hf ▸ nofun)
    refine { hi with phase := ?_, loading := ?_, checking := ?_ }
    · show Phase _ s.s_once_flag_
      rw [hf]
      refine ⟨?_, fun u hu => ?_⟩
      · rw [goto_pc, if_pos rfl]
        exact hst
      · rw [goto_pc, if_neg hu]
        exact ho u hu
    · exact loading_goto nofun fun u _ hu => absurd hu (hnl u)
    · exact checking_goto nofun hi.checking
  | @publish k =>
    obtain ⟨hf, hst, ho⟩ := hi.running hq rfl
    obtain ⟨rfl, hlen, hnone⟩ := hst
    have hnl := hi.not_loading (hf ▸ nofun)
    refine { hi with phase := ?_, loading := ?_, checking := fun _ _ => nofun, registered := ?_ }
    · show Phase _ s.s_once_flag_
      rw [hf]
      refine ⟨?_, fun u hu => ?_⟩
      · rw [goto_pc, if_pos rfl]
        exact ⟨hlen, rfl⟩
      · rw [goto_pc, if_neg hu]
        exact ho u hu
    · exact loading_goto nofun fun u _ hu => absurd hu (hnl u)
    · intro k
      show Function.update s.registered 0 true k = true ↔ some 0 = some k
      by_cases hk : k = 0
      · rw [hk, Function.update_self]
        exact ⟨fun _ => rfl, fun _ => rfl⟩
      · rw [Function.update_of_ne hk, hi.registered k, hnone]
        exact ⟨nofun, fun h => absurd (Option.some.inj h).symm hk⟩
  | finish =>
    obtain ⟨hf, hst, ho⟩ := hi.running hq rfl
    refine { hi with phase := ⟨hst.1, hst.2, outside_goto rfl ho⟩, loading := fun _ _ => rfl, checking := ?_ }
    exact checking_goto nofun hi.checking
  | load =>
    have hf := hi.loading t hq
    rw [hf] at hph
    obtain ⟨hlen, hh, ho⟩ := hph
    have hl : s.load t = { s with got := s.got ++ [(t, if s.is_alive 0 then some 0 else none)] } := by
      rw [State.load, hh]
    rw [hl]
    refine { hi with phase := ?_, loading := ?_, checking := ?_, got := ?_ }
    · show Phase _ s.s_once_flag_
      rw [hf]
      exact ⟨hlen, hh, outside_goto rfl fun u _ => ho u⟩
    · exact loading_goto nofun fun u _ => hi.loading u
    · exact checking_goto nofun hi.checking
    · intro u k hk
      rcases List.mem_append.mp hk with hk | hk
      · exact hi.got u k hk
      · have hk := congrArg Prod.snd (List.mem_singleton.mp hk)
        refine ⟨?_, hlen⟩
        by_cases ha : s.is_alive 0
        · exact Option.some.inj (hk.trans (if_pos ha))
        · exact absurd (hk.trans (if_neg ha)) nofun
  | @check k hk =>
    have hlen := (hi.holder (hk ▸ nofun)).1
    refine { hi with phase := ?_, loading := ?_, checking := ?_, told := fun _ _ => hlen }
    · exact hph.goto (hq ▸ rfl) rfl
    · exact loading_goto nofun fun u _ => hi.loading u
    · exact checking_goto nofun hi.checking

theorem Step.inv (hst : Step s a s') (hi : Inv s) : Inv s' := by
  cases hst with
  | go h => exact h.inv hi
  | exit => exact { hi with }
  | never =>
    refine { hi with told := fun u hu => ?_ }
    rcases List.mem_append.mp hu with hu | hu
    · exact hi.told u hu
    · have hb : true = false := congrArg Prod.snd (List.mem_singleton.mp hu)
      cases hb
  | @call t args hp =>
    have hout : (s.pc t).inside = false := by
      cases hq : s.pc t with
      | idle => rfl
      | _ =>
        rw [hq] at hp
        cases hp
    refine { hi with phase := hi.phase.goto hout rfl, loading := ?_, checking := ?_ }
    · exact loading_goto nofun fun u _ => hi.loading u
    · exact checking_goto nofun hi.checking
  | @ask t hp hh =>
    have hout : (s.pc t).inside = false := by
      cases hq : s.pc t with
      | idle => rfl
      | _ =>
        rw [hq] at hp
        cases hp
    refine { hi with phase := hi.phase.goto hout rfl, loading := ?_, checking := ?_ }
    · exact loading_goto nofun fun u _ => hi.loading u
    · exact checking_goto (fun _ => hh) hi.checking

theorem inv_reach (h : singleton.Reachable s) : Inv s :=
  h.inv inv_start fun _ _ _ hi _ hst => (step_cases hi.checking hst).inv hi

/-! ## what the threads find -/

/-- the destructor of the holder has begun -/
def Exited (s : State Id Args) : Prop := s.registered 0 = true ∧ s.is_alive 0 = false

structure Single (s : State Id Args) : Prop where
  one : s.built.length ≤ 1
  never : s.nullHolder = false
  exclusive : ∀ t u, (s.pc t).inside = true → (s.pc u).inside = true → t = u
  got : ∀ t k, (t, some k) ∈ s.got → k = 0 ∧ s.built.length = 1
  told : ∀ t, (t, true) ∈ s.told → s.built.length = 1
  /-- a call that loads gets the object, or nothing when the destructor has begun -/
  load : ∀ t throws, s.pc t = .loading → ∃ s', step s (.go t throws) = some s' ∧
    (Exited s → s'.got = s.got ++ [(t, none)]) ∧ (¬ Exited s → s'.got = s.got ++ [(t, some 0)])
  /-- and it does not come back -/
  final : Exited s → ∀ a s', step s a = some s' → Exited s'
  /-- a call that waits for the once flag waits for a thread that goes on -/
  waits : ∀ t args, s.pc t = .entering args → (∃ s', step s (.go t false) = some s') ∨
    ∃ u, (s.pc u).inside = true ∧ ∀ throws, ∃ s', step s (.go u throws) = some s'

theorem step_go (hn : s.nullHolder = false) : step s (.go t throws) = stepGo s t throws := by
  rw [step, if_neg (by rw [hn]; decide)]

theorem Stage.goes (hn : s.nullHolder = false) (h : Stage s (s.pc t)) (throws : Bool) :
    ∃ s', step s (.go t throws) = some s' := by
  rw [step_go hn, stepGo]
  cases hq : s.pc t with
  | building args =>
    cases throws with
    | true => exact ⟨_, rfl⟩
    | false => exact ⟨_, rfl⟩
  | marking | publishing | finishing => exact ⟨_, rfl⟩
  | idle | entering | loading | checking =>
    rw [hq] at h
    exact h.elim

/-- a destructor that has begun is not undone -/
theorem Step.exited (hst : Step s a s') (hi : Inv s) (he : Exited s) : Exited s' := by
  obtain ⟨hreg, hal⟩ := he
  have hh := (hi.registered 0).mp hreg
  cases hst with
  | call | ask | never => exact ⟨hreg, hal⟩
  | @exit k hk =>
    refine ⟨hreg, ?_⟩
    show Function.update s.is_alive k false 0 = false
    rw [Function.update_apply]
    split
    · rfl
    · exact hal
  | @go t throws r pc h =>
    generalize hq : s.pc t = q at h
    cases h with
    | enter | pass | fail | build | finish | check => exact ⟨hreg, hal⟩
    | @mark k =>
      obtain ⟨-, hst, -⟩ := hi.running hq rfl
      exact absurd (hst.2.2.symm.trans hh) nofun
    | @publish k =>
      obtain ⟨-, hst, -⟩ := hi.running hq rfl
      exact absurd (hst.2.2.symm.trans hh) nofun
    | load =>
      rw [State.load, hh]
      exact ⟨hreg, hal⟩

/-- **There is one object, and every call answers with it until its destructor begins.** -/
theorem single (h : singleton.Reachable s) : Single s := by
  have hi := inv_reach h
  refine ⟨?_, hi.never, ?_, hi.got, hi.told, ?_, ?_, ?_⟩
  · have hp := hi.phase
    cases hf : s.s_once_flag_ with
    | fresh =>
      rw [hf] at hp
      rw [hp.1]
      exact Nat.zero_le 1
    | done =>
      rw [hf] at hp
      exact Nat.le_of_eq hp.1
    | running t =>
      rw [hf] at hp
      have hst := hp.1
      unfold Stage at hst
      split at hst
      · rw [hst.1]
        exact Nat.zero_le 1
      · exact Nat.le_of_eq hst.2.1
      · exact Nat.le_of_eq hst.2.1
      · exact Nat.le_of_eq hst.1
      all_goals exact hst.elim
  · intro t u ht hu
    have h1 := (hi.running rfl ht).1
    have h2 := (hi.running rfl hu).1
    exact OnceFlag.running.inj (h1.symm.trans h2)
  · intro t throws hq
    have hp := hi.phase
    rw [hi.loading t hq] at hp
    have hreg := (hi.registered 0).mpr hp.2.1
    refine ⟨(s.load t).goto t .idle, ?_, ?_, ?_⟩
    · rw [step_go hi.never, stepGo, hq]
    · intro he
      show (s.load t).got = _
      rw [State.load, hp.2.1]
      simp [he.2]
    · intro he
      have ha : s.is_alive 0 = true := by
        by_contra ha
        exact he ⟨hreg, eq_false_of_ne_true ha⟩
      show (s.load t).got = _
      rw [State.load, hp.2.1]
      simp [ha]
  · exact fun he a s' hst => (step_cases hi.checking hst).exited hi he
  · intro t args hq
    have hp := hi.phase
    cases hf : s.s_once_flag_ with
    | fresh =>
      left
      rw [step_go hi.never, stepGo, hq, hf]
      exact ⟨_, rfl⟩
    | done =>
      left
      rw [step_go hi.never, stepGo, hq, hf]
      exact ⟨_, rfl⟩
    | running u =>
      rw [hf] at hp
      exact .inr ⟨u, hp.1.inside, hp.1.goes hi.never⟩

/-- the first constructor throws, two calls get the object and a third one comes after its end -/
theorem single_run : ∃ s : State ℕ ℕ, singleton.Reachable s ∧ Single s ∧ s.built = [8] ∧
    s.got = [(0, some 0), (1, some 0), (2, none)] := by
  have h : ((singleton : Machine (State ℕ ℕ) (Act ℕ ℕ)).exec singleton.init
      [.GetInstance 0 7, .GetInstance 1 8, .go 0 false, .go 0 true, .go 1 false, .go 1 false,
        .GetInstance 0 9, .go 1 false, .go 1 false, .go 1 false, .go 0 false, .go 0 false, .go 1 false,
        .GetInstance 2 5, .exit 0, .go 2 false, .go 2 false]).map (fun s => (s.built, s.got)) =
      some ([8], [(0, some 0), (1, some 0), (2, none)]) := by decide
  obtain ⟨s, hs, hv⟩ := Option.map_eq_some_iff.mp h
  simp only [Prod.mk.injEq] at hv
  have hr := Reach.of_exec _ .init hs
  exact ⟨s, hr, single hr, hv⟩

end
end Singleton
end CppCores
