import CppCores.Coroutine.Uthread.Model

/-!
# The uthread scheduler: the switching discipline

`Disciplined s`: control is in uthread `i` iff `running_thread = i`, in the main context iff it is -1,
and a yield suspends the uthread, goes to the main context, and the next resume of it goes on right
after the yield.

* `Inv`                  of every run: a uthread in control that was never suspended is
                         `running_thread`, one that was resumed is not: `uthread_resume` writes no field;
* `Suspended.exec`       a suspended uthread keeps what is left of it until it is resumed;
* `disciplined_reach`    **the discipline holds as long as no resume switches**;
* `resume_breaks`        every resume that switches breaks it;
* `yield_suspends_iff`   in every run a yield suspends iff the uthread was never suspended before.
-/

namespace CppCores
namespace Uthread
open Machine
variable {α : Type*} {s s' : State α}

/-- the next resume of `i` goes on at `rest` -/
def Continues (s : State α) (i : ℕ) (rest : List (Instr α)) : Prop :=
  ∀ acts s', Act.resume (i : ℤ) ∉ acts → (machine α).exec s acts = some s' → s'.control = .main →
    ∃ s'', (machine α).step s' (.resume i) = some s'' ∧ s''.control = .uthread i rest

structure Disciplined (s : State α) : Prop where
  inside : ∀ i : ℕ, (∃ rest, s.control = .uthread i rest) ↔ s.running_thread = i
  outside : s.control = .main ↔ s.running_thread = -1
  yields : ∀ i rest, s.control = .uthread i (.yield :: rest) →
    ∃ s', (machine α).step s .run = some s' ∧ s'.control = .main ∧
      (s'.threads i).state = .SUSPEND ∧ Continues s' i rest

/-- no resume switches -/
def NoSwitch (s : State α) : Act α → Prop
  | .resume id => ¬ Switches s id
  | _ => True

instance (s : State α) : (a : Act α) → Decidable (NoSwitch s a)
  | .resume id => (instDecidableNot : Decidable (¬ Switches s id))
  | .create _ => .isTrue trivial
  | .run => .isTrue trivial

/-! ## what a step does -/

inductive Step (s : State α) : Act α → State α → Prop where
  | create (func : List (Instr α)) : s.control = .main → Step s (.create func) (uthread_create s func)
  | switch (id : ℕ) : s.control = .main → id < s.max_index → (s.threads id).state = .SUSPEND →
      Step s (.resume id) { s with control := .uthread id (s.threads id).ctx }
  | ignored (id : ℤ) : s.control = .main → ¬ Switches s id → Step s (.resume id) s
  | ended (id : ℕ) : s.control = .uthread id [] → Step s .run (uthread_body_end s id)
  | stepped (id : ℕ) (a : α) (rest : List (Instr α)) : s.control = .uthread id (.step a :: rest) →
      Step s .run { s with control := .uthread id rest }
  | yielded (id : ℕ) (rest : List (Instr α)) : s.control = .uthread id (.yield :: rest) →
      Step s .run (uthread_yield { s with control := .uthread id rest })

theorem resume_cases (hc : s.control = .main) (id : ℤ) : Step s (.resume id) (uthread_resume s id) := by
  rw [uthread_resume]
  split
  · rename_i hsw
    obtain ⟨h0, hmax, hst⟩ := hsw
    obtain ⟨n, rfl⟩ := Int.eq_ofNat_of_zero_le h0
    exact .switch n hc (Int.ofNat_lt.mp hmax) hst
  · rename_i hsw
    exact .ignored id hc hsw

theorem step_cases {a : Act α} (h : step s a = some s') : Step s a s' := by
  unfold step at h
  split at h
  · rename_i func hc
    rw [← Option.some.inj h]
    exact .create func hc
  · rename_i id hc
    rw [← Option.some.inj h]
    exact resume_cases hc id
  · rename_i id hc
    rw [← Option.some.inj h]
    exact .ended id hc
  · rename_i id a rest hc
    rw [← Option.some.inj h]
    exact .stepped id a rest hc
  · rename_i id rest hc
    rw [← Option.some.inj h]
    exact .yielded id rest hc
  · cases h

theorem step_resume (hc : s.control = .main) (id : ℤ) :
    (machine α).step s (.resume id) = some (uthread_resume s id) := by
  show step s (.resume id) = _
  simp only [step, hc]

theorem step_yield {i : ℕ} {rest : List (Instr α)} (hc : s.control = .uthread i (.yield :: rest)) :
    (machine α).step s .run = some (uthread_yield { s with control := .uthread i rest }) := by
  show step s .run = _
  simp only [step, hc]

theorem uthread_create_spec (s : State α) (func : List (Instr α)) :
    uthread_create s func = { s.setThread (selected s) ⟨[], func, .RUNNABLE⟩ with
      max_index := if selected s = s.max_index then s.max_index + 1 else s.max_index
      running_thread := selected s
      control := .uthread (selected s) func } := by
  have hne : ((selected s : ℕ) : ℤ) ≠ -1 := by omega
  rw [uthread_create, uthread_body, if_pos hne]
  simp only [Int.toNat_natCast, State.setThread, Function.update_self]

theorem selected_lt_max (s : State α) :
    selected s < if selected s = s.max_index then s.max_index + 1 else s.max_index := by
  have := selected_le s
  split <;> omega

/-! ## every run -/

/-- the uthread in control was never suspended and is `running_thread`, or was resumed and is not -/
structure Inv (s : State α) : Prop where
  inside : ∀ i rest, s.control = .uthread i rest → i < s.max_index ∧
    (s.running_thread = i ∧ (s.threads i).state = .RUNNABLE ∨
      s.running_thread = -1 ∧ (s.threads i).state = .SUSPEND)
  outside : s.control = .main → s.running_thread = -1

theorem inv_start : Inv (start : State α) := ⟨nofun, fun _ => rfl⟩

/-- `uthread_yield` in a uthread: suspended if it is `running_thread`, and else nothing happens -/
theorem uthread_yield_spec (h : Inv s) {i : ℕ} {instr : Instr α} {rest : List (Instr α)}
    (hc : s.control = .uthread i (instr :: rest)) :
    s.running_thread = i ∧ uthread_yield { s with control := .uthread i rest } =
        { s.setThread i { s.threads i with state := .SUSPEND, ctx := rest } with
          running_thread := -1, control := .main } ∨
      s.running_thread = -1 ∧ uthread_yield { s with control := .uthread i rest } =
        { s with control := .uthread i rest } := by
  rcases (h.inside i _ hc).2 with ⟨hr, -⟩ | ⟨hr, -⟩
  · refine .inl ⟨hr, ?_⟩
    have hne : s.running_thread ≠ -1 := by omega
    have hid : s.running_thread.toNat = i := by omega
    rw [uthread_yield, if_pos hne]
    simp only [hid]
    rfl
  · refine .inr ⟨hr, ?_⟩
    rw [uthread_yield, if_neg (not_not.mpr hr)]

theorem inv_step {a : Act α} (h : Inv s) (hst : step s a = some s') : Inv s' := by
  cases step_cases hst with
  | create func hc =>
    rw [uthread_create_spec]
    refine ⟨fun i rest hi => ?_, nofun⟩
    obtain ⟨rfl, rfl⟩ := Control.uthread.inj hi
    refine ⟨selected_lt_max s, .inl ⟨rfl, ?_⟩⟩
    exact congrArg uthread_t.state (s.setThread_self _ _)
  | switch id hc hmax hsus =>
    refine ⟨fun i rest hi => ?_, nofun⟩
    obtain ⟨rfl, rfl⟩ := Control.uthread.inj hi
    exact ⟨hmax, .inr ⟨h.outside hc, hsus⟩⟩
  | ignored id hc hsw => exact h
  | ended id hc => exact ⟨nofun, fun _ => rfl⟩
  | stepped id a rest hc =>
    refine ⟨fun i rest' hi => ?_, nofun⟩
    obtain ⟨rfl, rfl⟩ := Control.uthread.inj hi
    exact h.inside _ _ hc
  | yielded id rest hc =>
    rcases uthread_yield_spec h hc with ⟨-, he⟩ | ⟨-, he⟩
    · rw [he]
      exact ⟨nofun, fun _ => rfl⟩
    · rw [he]
      refine ⟨fun i rest' hi => ?_, nofun⟩
      obtain ⟨rfl, rfl⟩ := Control.uthread.inj hi
      exact h.inside _ _ hc

theorem inv_reach {ok : State α → Act α → Prop} (h : (machine α).Reach ok s) : Inv s :=
  h.inv inv_start fun _ _ _ hi _ hst => inv_step hi hst

/-! ## a suspended uthread -/

structure Suspended (s : State α) (i : ℕ) (rest : List (Instr α)) : Prop where
  lt : i < s.max_index
  state : (s.threads i).state = .SUSPEND
  ctx : (s.threads i).ctx = rest
  out : ∀ r, s.control ≠ .uthread i r

theorem Suspended.of_eq {i : ℕ} {rest : List (Instr α)} (h : Suspended s i rest)
    (hmax : s.max_index ≤ s'.max_index) (ht : s'.threads i = s.threads i)
    (hout : ∀ r, s'.control ≠ .uthread i r) : Suspended s' i rest where
  lt := Nat.lt_of_lt_of_le h.lt hmax
  state := (congrArg uthread_t.state ht).trans h.state
  ctx := (congrArg uthread_t.ctx ht).trans h.ctx
  out := hout

/-- **A step that does not resume it leaves a suspended uthread alone.** -/
theorem Suspended.step {i : ℕ} {rest : List (Instr α)} {a : Act α} (h : Suspended s i rest)
    (hi : Inv s) (ha : a ≠ .resume (i : ℤ)) (hst : step s a = some s') : Suspended s' i rest := by
  cases step_cases hst with
  | create func hc =>
    rw [uthread_create_spec]
    have hne : i ≠ selected s := by
      rintro rfl
      have hfree := selected_free s h.lt
      rw [h.state] at hfree
      cases hfree
    refine h.of_eq ?_ (s.setThread_of_ne hne _) fun r hr => hne (Control.uthread.inj hr).1.symm
    show s.max_index ≤ if selected s = s.max_index then s.max_index + 1 else s.max_index
    split <;> omega
  | switch id hc hmax hsus =>
    refine h.of_eq (Nat.le_refl _) rfl fun r hr => ?_
    exact ha (congrArg (fun n : ℕ => Act.resume (n : ℤ)) (Control.uthread.inj hr).1)
  | ignored id hc hsw => exact h
  | ended id hc =>
    have hne : i ≠ id := fun he => h.out [] (he ▸ hc)
    exact h.of_eq (Nat.le_refl _) (s.setThread_of_ne hne _) nofun
  | stepped id a rest' hc =>
    have hne : id ≠ i := fun he => h.out _ (he ▸ hc)
    exact h.of_eq (Nat.le_refl _) rfl fun r hr => hne (Control.uthread.inj hr).1
  | yielded id rest' hc =>
    have hne : i ≠ id := fun he => h.out _ (he ▸ hc)
    rcases uthread_yield_spec hi hc with ⟨-, he⟩ | ⟨-, he⟩
    · rw [he]
      exact h.of_eq (Nat.le_refl _) (s.setThread_of_ne hne _) nofun
    · rw [he]
      exact h.of_eq (Nat.le_refl _) rfl fun r hr => hne (Control.uthread.inj hr).1.symm

theorem Suspended.exec {i : ℕ} {rest : List (Instr α)} (acts : List (Act α))
    (h : Suspended s i rest) (hi : Inv s) (ha : Act.resume (i : ℤ) ∉ acts)
    (he : (machine α).exec s acts = some s') : Suspended s' i rest := by
  induction acts generalizing s with
  | nil => exact Option.some.inj he ▸ h
  | cons a acts ih =>
    obtain ⟨s1, h1, h2⟩ := Option.bind_eq_some_iff.mp he
    have hne : a ≠ .resume (i : ℤ) := fun e => ha (e ▸ List.mem_cons_self)
    exact ih (h.step hi hne h1) (inv_step hi h1) (fun hm => ha (List.mem_cons_of_mem a hm)) h2

/-- **A suspended uthread goes on where it was suspended.** -/
theorem Suspended.continues {i : ℕ} {rest : List (Instr α)} (h : Suspended s i rest) (hi : Inv s) :
    Continues s i rest := by
  intro acts s' ha he hmain
  have h' := h.exec acts hi ha he
  have hsw : Switches s' i := ⟨Int.natCast_nonneg i, Int.ofNat_lt.mpr h'.lt, h'.state⟩
  refine ⟨uthread_resume s' i, step_resume hmain i, ?_⟩
  rw [uthread_resume, if_pos hsw]
  show Control.uthread i (s'.threads i).ctx = .uthread i rest
  rw [h'.ctx]

/-- **A yield of `running_thread` suspends it and goes to the main context.** -/
theorem yield_suspends (h : Inv s) {i : ℕ} {rest : List (Instr α)}
    (hc : s.control = .uthread i (.yield :: rest)) (hr : s.running_thread = i) :
    ∃ s', (machine α).step s .run = some s' ∧ s'.control = .main ∧ Suspended s' i rest := by
  refine ⟨_, step_yield hc, ?_⟩
  obtain ⟨-, he⟩ := (uthread_yield_spec h hc).resolve_right fun hn => by omega
  rw [he]
  have ht : (s.setThread i { s.threads i with state := .SUSPEND, ctx := rest }).threads i =
      { s.threads i with state := .SUSPEND, ctx := rest } := s.setThread_self i _
  exact ⟨rfl, (h.inside i _ hc).1, congrArg uthread_t.state ht, congrArg uthread_t.ctx ht, nofun⟩

/-! ## the discipline -/

/-- it is kept iff the uthread in control, if there is one, is `running_thread` -/
theorem disciplined_iff (h : Inv s) :
    Disciplined s ↔ ∀ i rest, s.control = .uthread i rest → s.running_thread = i := by
  constructor
  · intro hd i rest hc
    exact (hd.inside i).mp ⟨rest, hc⟩
  · intro hr
    refine ⟨fun i => ⟨fun ⟨rest, hc⟩ => hr i rest hc, fun hi => ?_⟩, ⟨h.outside, fun hi => ?_⟩, ?_⟩
    · cases hc : s.control with
      | main =>
        have := h.outside hc
        omega
      | uthread j rest =>
        have := hr j rest hc
        obtain rfl : i = j := by omega
        exact ⟨rest, rfl⟩
    · cases hc : s.control with
      | main => rfl
      | uthread j rest =>
        have := hr j rest hc
        omega
    · intro i rest hc
      obtain ⟨s', hst, hmain, hs⟩ := yield_suspends h hc (hr i _ hc)
      exact ⟨s', hst, hmain, hs.state, hs.continues (inv_step h hst)⟩

theorem running_step {a : Act α} (h : Inv s)
    (hr : ∀ i rest, s.control = .uthread i rest → s.running_thread = i) (ha : NoSwitch s a)
    (hst : step s a = some s') : ∀ i rest, s'.control = .uthread i rest → s'.running_thread = i := by
  intro i rest' hi
  cases step_cases hst with
  | create func hc =>
    rw [uthread_create_spec] at hi ⊢
    rw [(Control.uthread.inj hi).1]
  | switch id hc hmax hsus =>
    exact absurd ⟨Int.natCast_nonneg id, Int.ofNat_lt.mpr hmax, hsus⟩ ha
  | ignored id hc hsw => exact hr i rest' hi
  | ended id hc => cases hi
  | stepped id a rest hc =>
    obtain ⟨rfl, rfl⟩ := Control.uthread.inj hi
    exact hr _ _ hc
  | yielded id rest hc =>
    rcases uthread_yield_spec h hc with ⟨-, he⟩ | ⟨-, he⟩
    · rw [he] at hi
      cases hi
    · rw [he] at hi ⊢
      obtain ⟨rfl, rfl⟩ := Control.uthread.inj hi
      exact hr _ _ hc

/-- **The switching discipline holds in every state of every run in which no resume switches.** -/
theorem disciplined_reach (h : (machine α).Reach (fun s a => Called s a ∧ NoSwitch s a) s) :
    Disciplined s := by
  refine (disciplined_iff (inv_reach h)).mpr ?_
  exact h.inv_with (fun _ hs => inv_reach hs) nofun fun _ _ _ hi hr ha hst =>
    running_step hi hr ha.2 hst

/-- uthread 0 yields, a resume of an index that does not exist does nothing, uthread 1 is at a yield -/
theorem disciplined_reach_run : ∃ s : State ℕ,
    (machine ℕ).Reach (fun s a => Called s a ∧ NoSwitch s a) s ∧ Disciplined s ∧
      s.control = .uthread 1 [.yield, .step 9] ∧ s.running_thread = 1 := by
  have h : ((machine ℕ).execIf (fun s a => Called s a ∧ NoSwitch s a) start
      [.create [.step 7, .yield, .step 8], .run, .run, .resume 5, .create [.yield, .step 9]]).map
      (fun s => (s.control, s.running_thread)) = some (.uthread 1 [.yield, .step 9], 1) := by decide
  obtain ⟨s, hs, he⟩ := Option.map_eq_some_iff.mp h
  have hr := Reach.of_execIf _ .init hs
  exact ⟨s, hr, disciplined_reach hr, congrArg Prod.fst he, congrArg Prod.snd he⟩

/-- **Every resume that switches breaks it at once.** -/
theorem resume_breaks {id : ℤ} (h : Inv s) (hsw : Switches s id)
    (hst : (machine α).step s (.resume id) = some s') : ¬ Disciplined s' := by
  intro hd
  have hm : step s (.resume id) = some s' := hst
  cases step_cases hm with
  | switch id hc hmax hsus =>
    have hr := (hd.inside id).mp ⟨_, rfl⟩
    have := h.outside hc
    have hr : s.running_thread = id := hr
    omega
  | ignored id hc hn => exact absurd hsw hn

/-- it does not hold in every run: a uthread at its second yield -/
theorem not_disciplined : ¬ ∀ s : State ℕ, (machine ℕ).Reach Called s → Disciplined s := by
  intro hall
  have h : ((machine ℕ).execIf Called start
      [.create [.yield, .yield, .step 1], .run, .resume 0]).map
      (fun s => (s.control, s.running_thread)) = some (.uthread 0 [.yield, .step 1], -1) := by decide
  obtain ⟨s, hs, he⟩ := Option.map_eq_some_iff.mp h
  have hr : s.running_thread = ((0 : ℕ) : ℤ) :=
    ((hall s (.of_execIf _ .init hs)).inside 0).mp ⟨_, congrArg Prod.fst he⟩
  rw [show s.running_thread = -1 from congrArg Prod.snd he] at hr
  exact absurd hr (by decide)

/-- **In every run, a yield suspends iff the uthread was never suspended before.** -/
theorem yield_suspends_iff {ok : State α → Act α → Prop} (h : (machine α).Reach ok s) {i : ℕ}
    {rest : List (Instr α)} (hc : s.control = .uthread i (.yield :: rest))
    (hst : (machine α).step s .run = some s') :
    s'.control = .main ↔ (s.threads i).state = .RUNNABLE := by
  have hi := inv_reach h
  obtain rfl := Option.some.inj ((step_yield hc).symm.trans hst)
  have hin := (hi.inside i _ hc).2
  rcases uthread_yield_spec hi hc with ⟨hr, he⟩ | ⟨hr, he⟩
  · rw [he]
    exact ⟨fun _ => (hin.resolve_right fun hn => by omega).2, fun _ => rfl⟩
  · rw [he]
    refine ⟨nofun, fun hrun => ?_⟩
    have := (hin.resolve_left fun hn => by omega).2
    rw [hrun] at this
    cases this

/-! ## the array -/

/-- **The indices in use are those of the array**, as long as fewer uthreads are live when another is
created. -/
theorem max_index_le (h : (machine α).Reach Called s) : s.max_index ≤ MAX_UTHREAD_SIZE := by
  refine h.inv (I := fun s => s.max_index ≤ MAX_UTHREAD_SIZE) (Nat.zero_le _) ?_
  intro s a s' hmax ha hst
  cases step_cases hst with
  | create func hc =>
    rw [uthread_create_spec]
    have hlt : selected s < MAX_UTHREAD_SIZE := firstFree_lt hmax ha
    show (if selected s = s.max_index then s.max_index + 1 else s.max_index) ≤ MAX_UTHREAD_SIZE
    split <;> omega
  | switch id hc hmax' hsus => exact hmax
  | ignored id hc hsw => exact hmax
  | ended id hc => exact hmax
  | stepped id a rest hc => exact hmax
  | yielded id rest hc =>
    rw [uthread_yield]
    split <;> exact hmax

end Uthread
end CppCores
