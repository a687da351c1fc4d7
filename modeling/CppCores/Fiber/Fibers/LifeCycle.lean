import CppCores.Fiber.Fibers.Model

/-!
# Fibers: the assertions of the life cycle

`swapOut` is empty, so an entry function goes on to the assertion after it as soon as its callback has
returned or thrown; and the main fiber, which has no stack and no callback, does not meet the first
assertion of its destructor.

* `Inv`              what holds of the thread as long as no assertion has failed;
* `step_ok`          a step is free of failures and keeps it, unless
* `step_fails`       a callback has come to its end, or the main fiber is destroyed: **these always fail**;
* `no_failure_iff`   so **no assertion has failed iff no callback has returned or thrown and the main
                     fiber was not destroyed.**
-/

namespace CppCores
namespace Fibers
open Machine
variable {t t' : Thread} {sys : Sys} {p : ℕ} {f : Fiber}

/-- no callback is at its end, and the main fiber is not destroyed -/
def Safe (t : Thread) : Act → Prop
  | .run => match t.control with
    | .callback _ _ .returns => False
    | .callback _ _ .throws_exception => False
    | .callback _ _ .throws_other => False
    | _ => True
  | .destroy p => t.t_threadFiber ≠ some p
  | _ => True

/-- the runs in which no callback returns or throws and the main fiber is not destroyed -/
def Unfinished : Except Assertion Thread → Act × Sys → Prop
  | .error _, _ => False
  | .ok t, l => Safe t l.1

/-! ## the invariant -/

/-- a context of the fiber at `p` -/
def Of (p : ℕ) (c : Context) : Prop := (∃ e, c = .entry e) ∨ ∃ e rest, c = .callback e p rest

theorem Of.ne_main {c : Context} (h : Of p c) : c ≠ .main := by
  rcases h with ⟨e, rfl⟩ | ⟨e, rest, rfl⟩
  · exact nofun
  · exact nofun

structure MainFiber (f : Fiber) : Prop where
  stack : f.m_stack = none
  cb : f.m_cb = none
  state : f.m_state = .EXEC
  ctx : f.m_ctx = .main

structure WorkerFiber (p : ℕ) (f : Fiber) : Prop where
  stack : f.m_stack ≠ none
  state : f.m_state = .INIT ∨ f.m_state = .EXEC
  ctx : Of p f.m_ctx

structure Inv (t : Thread) : Prop where
  fresh : ∀ p, t.allocated ≤ p → t.fibers p = none
  main : ∀ m, t.t_threadFiber = some m → ∃ f, t.fibers m = some f ∧ MainFiber f
  worker : ∀ p f, t.fibers p = some f → t.t_threadFiber ≠ some p → WorkerFiber p f
  outside : t.control = .main → t.t_fiber = t.t_threadFiber
  inside : t.control ≠ .main → ∃ p m, t.t_fiber = some p ∧ t.t_threadFiber = some m ∧ p ≠ m ∧
    t.fibers p ≠ none ∧ Of p t.control

theorem inv_start : Inv start where
  fresh _ _ := rfl
  main _ h := nomatch h
  worker _ _ h := nomatch h
  outside _ := rfl
  inside h := absurd rfl h

theorem Inv.put (h : Inv t) (hp : t.fibers p ≠ none) (hne : t.t_threadFiber ≠ some p)
    (hf : WorkerFiber p f) : Inv (t.put p (some f)) where
  fresh q hq := by
    have hqp : q ≠ p := fun e => hp (h.fresh p (e ▸ hq))
    rw [t.put_of_ne hqp]
    exact h.fresh q hq
  main m hm := by
    have hmp : m ≠ p := fun e => hne (e ▸ hm)
    rw [t.put_of_ne hmp]
    exact h.main m hm
  worker q g hq hnq := by
    by_cases he : q = p
    · subst he
      rw [t.put_self] at hq
      obtain rfl := Option.some.inj hq
      exact hf
    · rw [t.put_of_ne he] at hq
      exact h.worker q g hq hnq
  outside := h.outside
  inside hc := by
    obtain ⟨q, m, hq, hm, hqm, hlive, hof⟩ := h.inside hc
    refine ⟨q, m, hq, hm, hqm, ?_, hof⟩
    by_cases he : q = p
    · subst he
      rw [t.put_self]
      exact nofun
    · rw [t.put_of_ne he]
      exact hlive

theorem Inv.put_main (h : Inv t) {m : ℕ} (hm : t.t_threadFiber = some m) (hf : MainFiber f) :
    Inv (t.put m (some f)) where
  fresh q hq := by
    have hqm : q ≠ m := by
      rintro rfl
      obtain ⟨g, hg, -⟩ := h.main q hm
      rw [h.fresh q hq] at hg
      cases hg
    rw [t.put_of_ne hqm]
    exact h.fresh q hq
  main q hq := by
    obtain rfl := Option.some.inj (hm.symm.trans hq)
    exact ⟨f, t.put_self m _, hf⟩
  worker q g hq hn := by
    have hqm : q ≠ m := fun e => hn (e ▸ hm)
    rw [t.put_of_ne hqm] at hq
    exact h.worker q g hq hn
  outside := h.outside
  inside hc := by
    obtain ⟨q, m', hq, hm', hqm, hlive, hof⟩ := h.inside hc
    obtain rfl := Option.some.inj (hm.symm.trans hm')
    refine ⟨q, m, hq, hm, hqm, ?_, hof⟩
    rw [t.put_of_ne hqm]
    exact hlive

theorem Inv.erase (h : Inv t) (hc : t.control = .main) (hne : t.t_threadFiber ≠ some p) :
    Inv (t.put p none) where
  fresh q hq := by
    by_cases he : q = p
    · rw [he]
      exact t.put_self p none
    · rw [t.put_of_ne he]
      exact h.fresh q hq
  main m hm := by
    have he : m ≠ p := fun e => hne (e ▸ hm)
    rw [t.put_of_ne he]
    exact h.main m hm
  worker q g hq hn := by
    have he : q ≠ p := by
      rintro rfl
      rw [t.put_self] at hq
      cases hq
    rw [t.put_of_ne he] at hq
    exact h.worker q g hq hn
  outside := h.outside
  inside hn := absurd hc hn

theorem Inv.fresh_put (h : Inv t) (f : Option Fiber) (q : ℕ) (hq : t.allocated + 1 ≤ q) :
    (t.put t.allocated f).fibers q = none := by
  rw [t.put_of_ne (Nat.ne_of_gt hq)]
  exact h.fresh q (Nat.le_of_succ_le hq)

theorem Inv.counted (h : Inv t) (c : ℕ) : Inv { t with s_fiber_count := c } :=
  ⟨h.fresh, h.main, h.worker, h.outside, h.inside⟩

/-! ## the functions -/

theorem getThis_main (h : Inv t) (hc : t.control = .main) (hs : sys.Succeeds) :
    ∃ t', GetThis sys t = .ok t' ∧ Inv t' := by
  by_cases ht : t.t_fiber = none
  · rw [GetThis, if_pos ht, Fiber_main, FIBER_ASSERT_MSG_of hs.2.1]
    have hnone : t.t_threadFiber = none := (h.outside hc).symm.trans ht
    refine ⟨_, rfl, h.fresh_put _, ?_, ?_, fun _ => rfl, fun hn => absurd hc hn⟩
    · intro m hm
      obtain rfl := Option.some.inj hm
      exact ⟨_, t.put_self _ _, rfl, rfl, rfl, hc⟩
    · intro q g hq hn
      have he : q ≠ t.allocated := fun e => hn (congrArg some e.symm)
      refine h.worker q g ((t.put_of_ne he _).symm.trans hq) ?_
      rw [hnone]
      exact nofun
  · rw [GetThis, if_neg ht]
    exact ⟨t, rfl, h⟩

theorem getThis_inside (h : Inv t) (hc : t.control ≠ .main) : GetThis sys t = .ok t := by
  obtain ⟨q, m, hq, -⟩ := h.inside hc
  rw [GetThis, if_neg (by rw [hq]; exact nofun)]

theorem fiber_worker_spec (h : Inv t) (hc : t.control = .main)
    (hs : sys.Succeeds) (cb : Option Callback) (use_caller : Bool) :
    ∃ t', Fiber_worker sys t cb use_caller = .ok t' ∧ Inv t' := by
  obtain ⟨hmal, hget, -⟩ := hs
  rw [Fiber_worker, FIBER_ASSERT_MSG_of hmal, FIBER_ASSERT_MSG_of hget]
  refine ⟨_, rfl, h.fresh_put _, ?_, ?_, h.outside, fun hn => absurd hc hn⟩
  · intro m hm
    obtain ⟨f, hf, hmain⟩ := h.main m hm
    have he : m ≠ t.allocated := by
      rintro rfl
      rw [h.fresh _ (Nat.le_refl _)] at hf
      cases hf
    exact ⟨f, (t.put_of_ne he _).trans hf, hmain⟩
  · intro q g hq hn
    by_cases he : q = t.allocated
    · subst he
      obtain rfl := Option.some.inj ((t.put_self _ _).symm.trans hq)
      exact ⟨hmal, .inl rfl, .inl ⟨_, rfl⟩⟩
    · exact h.worker q g ((t.put_of_ne he _).symm.trans hq) hn

/-- **The destructor of a worker fiber that is settled.** -/
theorem destructor_worker (h : Inv t) (hc : t.control = .main) (hf : t.fibers p = some f)
    (hne : t.t_threadFiber ≠ some p) (hset : settled f.m_state = true) :
    ∃ t', destructor t p f = .ok t' ∧ Inv t' := by
  have hw := h.worker p f hf hne
  have hstate : f.m_state = .TERM ∨ f.m_state = .EXCEPT ∨ f.m_state = .INIT := by
    rw [settled_iff] at hset
    tauto
  rw [destructor, if_pos hw.stack, FIBER_ASSERT_of hstate]
  exact ⟨_, rfl, (h.counted _).erase hc hne⟩

/-- **The destructor of the main fiber fails**: it has no callback. -/
theorem destructor_main (hf : MainFiber f) :
    destructor t p f = .error ⟨"m_cb != nullptr", ""⟩ := by
  rw [destructor, if_neg (not_not.mpr hf.stack), FIBER_ASSERT_of_not (not_not.mpr hf.cb)]

theorem reset_spec (h : Inv t) (hs : sys.Succeeds) (hf : t.fibers p = some f)
    (hne : t.t_threadFiber ≠ some p) (hset : settled f.m_state = true) (cb : Option Callback) :
    ∃ t', reset sys t p f cb = .ok t' ∧ Inv t' := by
  have hw := h.worker p f hf hne
  have hstate : f.m_state = .TERM ∨ f.m_state = .INIT ∨ f.m_state = .EXCEPT := by
    rw [settled_iff] at hset
    tauto
  rw [reset, FIBER_ASSERT_of hw.stack, FIBER_ASSERT_of hstate, FIBER_ASSERT_MSG_of hs.2.1]
  refine ⟨_, rfl, h.put (by rw [hf]; exact nofun) hne ?_⟩
  exact ⟨hw.stack, .inl rfl, .inl ⟨_, rfl⟩⟩

theorem swapcontext_spec (hs : sys.Succeeds) {oucp ucp : ℕ} {g : Fiber}
    (hf : t.fibers oucp = some f) (hg : t.fibers ucp = some g) (hne : ucp ≠ oucp) :
    swapcontext sys t oucp ucp = some (.ok
      { t.put oucp (some { f with m_ctx := t.control }) with control := g.m_ctx }) := by
  simp only [swapcontext, hf, hg, FIBER_ASSERT_MSG_of hs.2.2, if_neg hne]

/-- **`call` goes on in the fiber.** -/
theorem call_spec (h : Inv t) (hc : t.control = .main) (hs : sys.Succeeds) {m : ℕ}
    (hm : t.t_threadFiber = some m) (hf : t.fibers p = some f) (hne : p ≠ m) :
    ∃ t', call sys t p f = some (.ok t') ∧ Inv t' ∧ t'.t_fiber = some p ∧ t'.control = f.m_ctx := by
  have hnm : t.t_threadFiber ≠ some p := fun e => hne (Option.some.inj (e.symm.trans hm))
  have hw := h.worker p f hf hnm
  obtain ⟨g, hg, hmain⟩ := h.main m hm
  -- `f` is written, then the main fiber
  have h1 : Inv (t.put p (some { f with m_state := .EXEC })) :=
    h.put (by rw [hf]; exact nofun) hnm ⟨hw.stack, .inr rfl, hw.ctx⟩
  have h2 : Inv ((t.put p (some { f with m_state := .EXEC })).put m
      (some { g with m_ctx := t.control })) :=
    h1.put_main hm ⟨hmain.stack, hmain.cb, hmain.state, hc⟩
  have hsw := swapcontext_spec (t := { t.put p (some { f with m_state := .EXEC }) with
    t_fiber := some p }) hs ((t.put_of_ne hne.symm _).trans hg) (t.put_self p _) hne
  refine ⟨_, Option.bind_eq_some_iff.mpr ⟨m, hm, hsw⟩, ?_, rfl, rfl⟩
  refine ⟨h2.fresh, h2.main, h2.worker, fun hmc => absurd hmc hw.ctx.ne_main, fun _ => ?_⟩
  refine ⟨p, m, rfl, hm, hne, ?_, hw.ctx⟩
  intro hnone
  have hput := (Thread.put_of_ne (t.put p (some { f with m_state := .EXEC })) hne
    (some { g with m_ctx := t.control })).symm.trans hnone
  cases (t.put_self p _).symm.trans hput

/-- **`back` goes on in the code of the thread.** -/
theorem back_spec (h : Inv t) (hs : sys.Succeeds) (hc : t.control ≠ .main)
    (hp : t.t_fiber = some p) : ∃ t', back sys t p = some (.ok t') ∧ Inv t' ∧ t'.control = .main := by
  obtain ⟨q, m, hq, hm, hqm, hlive, hof⟩ := h.inside hc
  obtain rfl := Option.some.inj (hq.symm.trans hp)
  have hnm : t.t_threadFiber ≠ some q := fun e => hqm (Option.some.inj (e.symm.trans hm))
  obtain ⟨f, hf⟩ := Option.ne_none_iff_exists'.mp hlive
  obtain ⟨g, hg, hmain⟩ := h.main m hm
  have hw := h.worker q f hf hnm
  have h1 : Inv (t.put q (some { f with m_ctx := t.control })) :=
    h.put hlive hnm ⟨hw.stack, hw.state, hof⟩
  have hsw := swapcontext_spec (t := { t with t_fiber := some m }) hs hf hg hqm.symm
  refine ⟨_, Option.bind_eq_some_iff.mpr ⟨m, hm, hsw⟩, ?_, hmain.ctx⟩
  exact ⟨h1.fresh, h1.main, h1.worker, fun _ => hm.symm, fun hn => absurd hmain.ctx hn⟩

theorem Inv.goes_on (h : Inv t) (hc : t.control ≠ .main) (hp : t.t_fiber = some p) {c : Context}
    (hof : Of p c) : Inv { t with control := c } := by
  obtain ⟨q, m, hq, hm, hqm, hlive, -⟩ := h.inside hc
  obtain rfl := Option.some.inj (hq.symm.trans hp)
  exact ⟨h.fresh, h.main, h.worker, fun hmc => absurd hmc hof.ne_main,
    fun _ => ⟨q, m, hq, hm, hqm, hlive, hof⟩⟩

theorem enter_spec (h : Inv t) (hc : t.control ≠ .main) (e : Entry) :
    ∃ t', enter e sys t = some (.ok t') ∧ Inv t' := by
  obtain ⟨q, m, hq, hm, hqm, hlive, hof⟩ := h.inside hc
  obtain ⟨f, hf⟩ := Option.ne_none_iff_exists'.mp hlive
  refine ⟨{ t with control := .callback e q (f.m_cb.getD .throws_exception) }, ?_, ?_⟩
  · simp only [enter, getThis_inside h hc, hq, hf, Option.map_some]
  · exact h.goes_on hc hq (.inr ⟨_, _, rfl⟩)

/-- **An entry function fails when its callback has returned or thrown.** -/
theorem leave_fails (hf : t.fibers p = some f) (returned : Bool) :
    leave t p returned = some (.error ⟨"false", "never reach fiber_id=" ++ toString f.m_id⟩) := by
  rw [leave, hf]
  rfl

/-! ## the steps -/

theorem Worker.elim {P : State → Bool} (h : Worker t p P) :
    ∃ m f, t.t_threadFiber = some m ∧ p ≠ m ∧ t.fibers p = some f ∧ P f.m_state = true := by
  obtain ⟨hm, hne, hany⟩ := h
  obtain ⟨m, hm⟩ := Option.ne_none_iff_exists'.mp hm
  obtain ⟨f, hf, hP⟩ := (Option.any_eq_true _ _).mp hany
  exact ⟨m, f, hm, fun e => hne (e ▸ hm), hf, hP⟩

theorem runMain_ok (h : Inv t) (hc : t.control = .main) {a : Act} (ha : Called t a)
    (hs : sys.Succeeds) (hsafe : Safe t a) {r : Except Assertion Thread}
    (hr : runMain sys t a = some r) : ∃ t', r = .ok t' ∧ Inv t' := by
  cases a with
  | GetThis =>
    obtain ⟨t', ht, hi⟩ := getThis_main h hc hs
    exact ⟨t', (Option.some.inj hr).symm.trans ht, hi⟩
  | create cb use_caller =>
    obtain ⟨t', ht, hi⟩ := fiber_worker_spec h hc hs cb use_caller
    exact ⟨t', (Option.some.inj hr).symm.trans ht, hi⟩
  | call p =>
    have ha : Worker t p fun _ => true := ha
    obtain ⟨m, f, hm, hne, hf, -⟩ := ha.elim
    obtain ⟨t', ht, hi, -⟩ := call_spec h hc hs hm hf hne
    rw [runMain, hf] at hr
    exact ⟨t', Option.some.inj (hr.symm.trans ht), hi⟩
  | reset p cb =>
    have ha : Worker t p settled := ha
    obtain ⟨m, f, hm, hne, hf, hset⟩ := ha.elim
    have hnm : t.t_threadFiber ≠ some p := fun e => hne (Option.some.inj (e.symm.trans hm))
    obtain ⟨t', ht, hi⟩ := reset_spec h hs hf hnm hset cb
    rw [runMain, hf] at hr
    exact ⟨t', (Option.some.inj hr).symm.trans ht, hi⟩
  | destroy p =>
    have ha : Worker t p settled := ha.resolve_right fun hn => hsafe hn.1
    obtain ⟨m, f, hm, hne, hf, hset⟩ := ha.elim
    obtain ⟨t', ht, hi⟩ := destructor_worker h hc hf hsafe hset
    rw [runMain, hf] at hr
    exact ⟨t', (Option.some.inj hr).symm.trans ht, hi⟩
  | run => cases hr

theorem runFiber_ok (h : Inv t) (hc : t.control ≠ .main) (hs : sys.Succeeds)
    (hsafe : Safe t .run) {r : Except Assertion Thread} (hr : runFiber sys t t.control = some r) :
    ∃ t', r = .ok t' ∧ Inv t' := by
  obtain ⟨q, m, hq, -, -, -, hof⟩ := h.inside hc
  cases hctl : t.control with
  | main => exact absurd hctl hc
  | entry e =>
    obtain ⟨t', ht, hi⟩ : ∃ t', enter e sys t = some (.ok t') ∧ Inv t' := enter_spec h hc e
    rw [hctl] at hr
    cases e with
    | MainFunc => exact ⟨t', Option.some.inj (hr.symm.trans ht), hi⟩
    | CallerMainFunc => exact ⟨t', Option.some.inj (hr.symm.trans ht), hi⟩
  | callback e cur rest =>
    rw [hctl] at hr hof
    obtain ⟨e', rest', he⟩ := hof.resolve_left nofun
    cases he
    rw [Safe, hctl] at hsafe
    cases rest with
    | back rest =>
      have h1 := h.goes_on hc hq (c := .callback e q rest) (.inr ⟨_, _, rfl⟩)
      obtain ⟨t', ht, hi, -⟩ := back_spec h1 hs nofun hq
      rw [runFiber, hq] at hr
      exact ⟨t', Option.some.inj (hr.symm.trans ht), hi⟩
    | returns => exact hsafe.elim
    | throws_exception => exact hsafe.elim
    | throws_other => exact hsafe.elim

/-- **A step of a run in which nothing has failed does not fail**, unless a callback is at its end or
the main fiber is destroyed. -/
theorem step_ok (h : Inv t) {l : Act × Sys} (ha : Allowed (.ok t) l) (hsafe : Safe t l.1)
    {r : Except Assertion Thread} (hst : step (.ok t) l = some r) : ∃ t', r = .ok t' ∧ Inv t' := by
  obtain ⟨a, sys⟩ := l
  obtain ⟨hcall, hs⟩ := ha
  rw [step] at hst
  split at hst
  · rename_i hc
    exact runMain_ok h hc hcall hs hsafe hst
  · rename_i hc
    split at hst
    · rename_i hrun
      have hrun : a = .run := hrun
      subst hrun
      exact runFiber_ok h hc hs hsafe hst
    · cases hst

/-- **These steps always fail.** -/
theorem step_fails (h : Inv t) {l : Act × Sys} (hsafe : ¬ Safe t l.1)
    {r : Except Assertion Thread} (hst : step (.ok t) l = some r) : ∃ x, r = .error x := by
  obtain ⟨a, sys⟩ := l
  rw [step] at hst
  cases a with
  | destroy p =>
    have hm : t.t_threadFiber = some p := not_not.mp hsafe
    obtain ⟨f, hf, hmain⟩ := h.main p hm
    split at hst
    · rw [runMain, hf, Option.map_some, destructor_main hmain] at hst
      exact ⟨_, (Option.some.inj hst).symm⟩
    · rw [if_neg nofun] at hst
      cases hst
  | run =>
    by_cases hc : t.control = .main
    · rw [if_pos hc] at hst
      cases hst
    · rw [if_neg hc, if_pos rfl] at hst
      obtain ⟨q, m, -, -, -, hlive, hof⟩ := h.inside hc
      obtain ⟨f, hf⟩ := Option.ne_none_iff_exists'.mp hlive
      have hsafe : ¬ Safe t .run := hsafe
      rw [Safe] at hsafe
      rcases hof with ⟨e, he⟩ | ⟨e, rest, he⟩
      · rw [he] at hsafe
        exact absurd trivial hsafe
      · rw [he] at hsafe hst
        have hleave : ∀ returned, leave t q returned = some r → ∃ x, r = .error x := by
          intro returned hl
          exact ⟨_, Option.some.inj (hl.symm.trans (leave_fails hf returned))⟩
        cases rest with
        | back rest => exact absurd trivial hsafe
        | returns => exact hleave true hst
        | throws_exception => exact hleave false hst
        | throws_other => exact hleave false hst
  | GetThis => exact absurd trivial hsafe
  | create cb use_caller => exact absurd trivial hsafe
  | call p => exact absurd trivial hsafe
  | reset p cb => exact absurd trivial hsafe

/-! ## the runs -/

/-- no assertion has failed, in every run in which nothing comes to its end -/
theorem unfinished_ok {s : Except Assertion Thread}
    (h : machine.Reach (fun s l => Allowed s l ∧ Unfinished s l) s) : ∃ t, s = .ok t ∧ Inv t := by
  refine h.inv (I := fun s => ∃ t, s = .ok t ∧ Inv t) ⟨start, rfl, inv_start⟩ ?_
  intro s l s' hi hok hst
  obtain ⟨t, rfl, hi⟩ := hi
  exact step_ok hi hok.1 hok.2 hst

/-- **No assertion has failed iff no callback has returned or thrown and the main fiber was not
destroyed.** -/
theorem no_failure_iff {s : Except Assertion Thread} (h : machine.Reach Allowed s) :
    (∀ x, s ≠ .error x) ↔ machine.Reach (fun s l => Allowed s l ∧ Unfinished s l) s := by
  constructor
  · intro hne
    induction h with
    | init => exact .init
    | @step s s' l hr hok hst ih =>
      cases s with
      | error x => exact absurd hok id
      | ok t =>
        have hu := ih fun x => nofun
        obtain ⟨t', ht, hi⟩ := unfinished_ok hu
        cases ht
        refine hu.step ⟨hok, ?_⟩ hst
        by_contra hsafe
        obtain ⟨x, hx⟩ := step_fails hi hsafe hst
        exact hne x hx
  · intro hu x hx
    obtain ⟨t, ht, -⟩ := unfinished_ok hu
    rw [hx] at ht
    cases ht

/-- system calls that succeed -/
def done : Sys := ⟨some 1, 0, 0⟩

/-- two worker fibers have called `back`, one is entered again and one is destroyed before it is
entered -/
theorem no_failure_iff_run : ∃ s, machine.Reach Allowed s ∧
    machine.Reach (fun s l => Allowed s l ∧ Unfinished s l) s := by
  have h : (machine.execIf Allowed (.ok start) [(.GetThis, done),
      (.create (some (.back (.back .returns))) false, done), (.create (some (.back .returns)) true, done),
      (.create none false, done), (.call 1, done), (.run, done), (.run, done), (.call 2, done),
      (.run, done), (.run, done), (.destroy 3, done), (.call 1, done), (.run, done)]).map failed =
      some none := by decide
  obtain ⟨s, hs, hf⟩ := Option.map_eq_some_iff.mp h
  have hr := Reach.of_execIf _ .init hs
  refine ⟨s, hr, (no_failure_iff hr).mp fun x hx => ?_⟩
  rw [hx] at hf
  cases hf

/-- a callback returns, which is all it does -/
theorem not_no_failure : ¬ ∀ s, machine.Reach Allowed s → ∀ x, s ≠ .error x := by
  intro hall
  have h : (machine.execIf Allowed (.ok start) [(.GetThis, done), (.create (some .returns) false, done),
      (.call 1, done), (.run, done), (.run, done)]).map failed =
      some (some ⟨"false", "never reach fiber_id=1"⟩) := by decide
  obtain ⟨s, hs, hf⟩ := Option.map_eq_some_iff.mp h
  cases s with
  | error x => exact hall _ (.of_execIf _ .init hs) x rfl
  | ok t => cases hf

end Fibers
end CppCores
