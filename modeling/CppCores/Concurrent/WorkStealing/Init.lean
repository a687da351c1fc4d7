import CppCores.Concurrent.WorkStealing.Linear

/-!
# WorkStealingQueue: `init`, and the queue that it leaves

`init` may be called any number of times, with any capacity.  It succeeds at most once, and what it
leaves then is a power of two; a queue on which it never succeeded has `_capacity` 0, and there `push`
always finds `b >= t + _capacity`.

* `inits_cases`          the return codes, and the `_capacity` in the end;
* `Shut`                 the states of a queue without `_buffer`;
* `inits_dequeRun`       **whatever calls of `init` were made, every run is a history of a bounded
                         double-ended queue of the `_capacity` that they left.**
-/

set_option linter.unusedSectionVars false

namespace CppCores
namespace WorkStealing
variable {Tid T : Type*}

/-! ## calls of `init` -/

/-- calls of `init`, each with its capacity and whether there is memory: the `_capacity` in the end,
and the return codes -/
def inits : UInt64 → List (UInt64 × Bool) → UInt64 × List Int
  | capacity_, [] => (capacity_, [])
  | capacity_, (capacity, alloc) :: calls =>
    let (capacity_, code) := init capacity_ capacity alloc
    let (capacity_, codes) := inits capacity_ calls
    (capacity_, code :: codes)

/-- a call that a new queue accepts -/
def Accepts (call : UInt64 × Bool) : Prop := call.1.toNat.isPowerOfTwo ∧ call.2 = true

theorem init_again {old : UInt64} (h : old ≠ 0) (cap : UInt64) (alloc : Bool) :
    init old cap alloc = (old, -1) := by
  unfold init
  rw [if_pos h]

theorem init_accepts {call : UInt64 × Bool} (h : Accepts call) : init 0 call.1 call.2 = (call.1, 0) := by
  obtain ⟨hpow, halloc⟩ := h
  have h0 : call.1 ≠ 0 := by
    intro he
    rw [he] at hpow
    exact Nat.not_isPowerOfTwo_zero hpow
  have h1 : (1 : UInt64) ≤ call.1 := by
    rw [UInt64.le_iff_toNat_le]
    exact Nat.pos_of_isPowerOfTwo hpow
  have hand : call.1 &&& (call.1 - 1) = 0 := by
    apply UInt64.toNat_inj.mp
    rw [UInt64.toNat_and, UInt64.toNat_sub_of_le _ _ h1]
    exact (Nat.ne_zero_and_sub_one_eq_zero_iff_isPowerOfTwo.mpr hpow).2
  unfold init
  rw [if_neg (not_not.mpr rfl), if_neg h0, if_neg (not_not.mpr hand), halloc, if_neg (by decide)]

theorem init_refuses {call : UInt64 × Bool} (h : ¬ Accepts call) : init 0 call.1 call.2 = (0, -1) := by
  have hno : (init 0 call.1 call.2).2 = 0 → ¬ call.2 = false → False := fun hcode halloc =>
    h ⟨(init_ok 0 call.1 call.2 hcode).2.2, eq_true_of_ne_false halloc⟩
  unfold init at hno ⊢
  split_ifs at hno ⊢ with h1 h2 h3 h4
  · rfl
  · rfl
  · rfl
  · rfl
  · exact (hno rfl h4).elim

theorem inits_again {old : UInt64} (h : old ≠ 0) (calls : List (UInt64 × Bool)) :
    inits old calls = (old, calls.map fun _ => -1) := by
  induction calls with
  | nil => rfl
  | cons call calls ih =>
    obtain ⟨cap, alloc⟩ := call
    simp only [inits, init_again h, ih, List.map_cons]

/-- **`init` succeeds with the first call that a new queue accepts, and with no other.** -/
theorem inits_cases (calls : List (UInt64 × Bool)) :
    ((∀ call ∈ calls, ¬ Accepts call) ∧ inits 0 calls = (0, calls.map fun _ => -1)) ∨
      ∃ pre call post, calls = pre ++ call :: post ∧ (∀ call ∈ pre, ¬ Accepts call) ∧ Accepts call ∧
        inits 0 calls = (call.1, (pre.map fun _ => -1) ++ 0 :: post.map fun _ => -1) := by
  induction calls with
  | nil => exact .inl ⟨nofun, rfl⟩
  | cons call calls ih =>
    by_cases hacc : Accepts call
    · right
      have hne : call.1 ≠ 0 := by
        intro he
        have hpow := hacc.1
        rw [he] at hpow
        exact Nat.not_isPowerOfTwo_zero hpow
      refine ⟨[], call, calls, rfl, nofun, hacc, ?_⟩
      simp only [inits, init_accepts hacc, inits_again hne, List.map_nil, List.nil_append]
    · have hinit : inits 0 (call :: calls) = ((inits 0 calls).1, -1 :: (inits 0 calls).2) := by
        simp only [inits, init_refuses hacc]
      rw [hinit]
      rcases ih with ⟨hno, he⟩ | ⟨pre, c, post, rfl, hno, hc, he⟩
      · left
        refine ⟨?_, by rw [he, List.map_cons]⟩
        intro c hc
        rcases List.mem_cons.mp hc with rfl | hc
        · exact hacc
        · exact hno c hc
      · right
        refine ⟨call :: pre, c, post, rfl, ?_, hc, by rw [he, List.map_cons]; rfl⟩
        intro d hd
        rcases List.mem_cons.mp hd with rfl | hd
        · exact hacc
        · exact hno d hd

/-! ## a queue without `_buffer` -/

/-- an answer that takes nothing and brings nothing -/
def Refusal : DequeOp (Elem T) → Prop
  | .full | .empty => True
  | _ => False

/-- the places of a `push` or a `pop` that can only be refused -/
def Owner.Shut : Owner T → Prop
  | .idle => True
  | .pushTop _ b | .popTop b => b = 1
  | _ => False

def Thief.Shut : Thief T → Prop
  | .idle => True
  | .bottom t => t = 1
  | _ => False

structure Shut (junk : ℕ → Elem T) (s : State Tid T) : Prop where
  bottom : s.bottom = 1
  top : s.top = 1
  buffer : s.buffer = junk
  owner : s.owner.Shut
  thief : ∀ tid, (s.thief tid).Shut
  log : ∀ op ∈ s.log, Refusal op

section
variable [DecidableEq Tid] {junk : ℕ → Elem T} {s s' : State Tid T} {a : Act Tid T}

theorem Shut.ret (h : Shut junk s) {op : DequeOp (Elem T)} (hop : Refusal op) :
    Shut junk ((s.effect op).ret op) := by
  refine ⟨h.bottom, h.top, h.buffer, trivial, h.thief, ?_⟩
  intro x hx
  rcases List.mem_append.mp hx with hx | hx
  · exact h.log x hx
  · rw [List.mem_singleton.mp hx]
    exact hop

theorem Shut.thiefGoto (h : Shut junk s) (tid : Tid) {pc : Thief T} (hpc : pc.Shut) :
    Shut junk (s.thiefGoto tid pc) := by
  refine ⟨h.bottom, h.top, h.buffer, h.owner, ?_, h.log⟩
  intro u
  by_cases hu : u = tid
  · subst hu
    simpa [State.thiefGoto] using hpc
  · simpa [State.thiefGoto, Function.update_of_ne hu] using h.thief u

theorem shut_owner (h : Shut junk s) (hst : stepOwner 0 s = some s') : Shut junk s' := by
  have hsum : s.top + 0 = 1 := by rw [h.top]; rfl
  have hown := h.owner
  cases ho : s.owner with
  | idle =>
    simp only [stepOwner, ho] at hst
    cases hst
  | pushTop value b =>
    rw [ho] at hown
    obtain rfl : b = 1 := hown
    simp only [stepOwner, ho, hsum, ge_iff_le, UInt64.le_refl, if_true] at hst
    obtain rfl := Option.some.inj hst
    exact h.ret trivial
  | popTop b =>
    rw [ho] at hown
    obtain rfl : b = 1 := hown
    simp only [stepOwner, ho, h.top, ge_iff_le, UInt64.le_refl, if_true] at hst
    obtain rfl := Option.some.inj hst
    exact h.ret trivial
  | _ =>
    rw [ho] at hown
    exact hown.elim

theorem shut_thief {tid : Tid} (h : Shut junk s) (hst : stepThief 0 s tid = some s') :
    Shut junk s' := by
  have hthief := h.thief tid
  cases hp : s.thief tid with
  | idle =>
    simp only [stepThief, hp] at hst
    cases hst
  | bottom t =>
    rw [hp] at hthief
    obtain rfl : t = 1 := hthief
    simp only [stepThief, hp, h.bottom, ge_iff_le, UInt64.le_refl, if_true] at hst
    obtain rfl := Option.some.inj hst
    exact h.thiefGoto tid trivial
  | _ =>
    rw [hp] at hthief
    exact hthief.elim

theorem shut_step (h : Shut junk s) (hst : Step 0 s a s') : Shut junk s' := by
  cases hst with
  | push _ ho => exact ⟨h.bottom, h.top, h.buffer, h.bottom, h.thief, h.log⟩
  | pop ho => exact ⟨h.bottom, h.top, h.buffer, h.bottom, h.thief, h.log⟩
  | owner hst => exact shut_owner h hst
  | steal hp => exact h.thiefGoto _ h.top
  | thief hst => exact shut_thief h hst

theorem Shut.reach (h : (queue 0 junk : Machine (State Tid T) _).Reachable s) : Shut junk s :=
  h.inv ⟨rfl, rfl, rfl, trivial, fun _ => trivial, nofun⟩
    fun _ _ _ ih _ hst => shut_step ih (step_cases hst)

theorem pushed_refusals {l : List (DequeOp (Elem T))} (h : ∀ op ∈ l, Refusal op) :
    pushed l = [] ∧ taken l = [] := by
  constructor
  · apply List.filterMap_eq_nil_iff.mpr
    intro op hop
    have hr := h op hop
    cases op with
    | full | empty => rfl
    | _ => exact hr.elim
  · apply List.filterMap_eq_nil_iff.mpr
    intro op hop
    have hr := h op hop
    cases op with
    | full | empty => rfl
    | _ => exact hr.elim

/-- a queue without `_buffer` is a queue of capacity 0 -/
theorem Shut.dequeRun (h : Shut junk s) (hans : Answered s) : DequeRun 0 s := by
  have hlog := pushed_refusals h.log
  have hrets : ∀ op ∈ s.rets, Refusal op := fun op hop =>
    h.log op (hans.perm.mem_iff.mpr (List.mem_append_left _ hop))
  have hr := pushed_refusals hrets
  refine ⟨?_, ?_, hans.perm, ?_⟩
  · rw [hr.2]
    exact List.nodup_nil
  · intro pre op post he
    have hpre := pushed_refusals fun x hx => h.log x (he ▸ List.mem_append_left _ hx)
    have hop := h.log op (he ▸ List.mem_append_right _ List.mem_cons_self)
    rw [held, hpre.1, List.filter_nil]
    cases op with
    | full | empty => rfl
    | _ => exact hop.elim
  · intro _
    rw [held, hr.1, List.filter_nil, slots, h.bottom, h.top]
    rfl

/-! ## the object -/

/-- **Whatever calls of `init` were made, every run is a history of a bounded double-ended queue of the
`_capacity` that they left**; `_capacity` is 0, where all were refused, or the power of two that the
one successful call had. -/
theorem inits_dequeRun (calls : List (UInt64 × Bool)) :
    ((inits 0 calls).1 = 0 ∧ (inits 0 calls).2 = (calls.map fun _ => -1) ∨
      (inits 0 calls).1.toNat.isPowerOfTwo ∧ ∃ pre call post, calls = pre ++ call :: post ∧
        (inits 0 calls).1 = call.1 ∧
        (inits 0 calls).2 = (pre.map fun _ => -1) ++ 0 :: post.map fun _ => -1) ∧
    ∀ (junk : ℕ → Elem T) (s : State Tid T),
      (queue (inits 0 calls).1 junk).Reach (Room (inits 0 calls).1) s →
        DequeRun (inits 0 calls).1 s ∧ ((inits 0 calls).1 = 0 → s.buffer = junk) := by
  rcases inits_cases calls with ⟨-, he⟩ | ⟨pre, call, post, hcalls, -, hacc, he⟩
  · rw [he]
    refine ⟨.inl ⟨rfl, rfl⟩, fun junk s hs => ?_⟩
    have hshut := Shut.reach hs.reachable
    exact ⟨hshut.dequeRun (Answered.reach junk hs.reachable), fun _ => hshut.buffer⟩
  · rw [he]
    refine ⟨.inr ⟨hacc.1, pre, call, post, hcalls, rfl, rfl⟩, fun junk s hs => ?_⟩
    refine ⟨dequeRun_reach hacc.1 junk hs, fun h0 => ?_⟩
    have hpow := hacc.1
    have hz : call.1 = 0 := h0
    rw [hz] at hpow
    exact absurd hpow Nat.not_isPowerOfTwo_zero

end

end WorkStealing
end CppCores
