import Mathlib.Data.List.Basic
import Mathlib.Tactic.Common

/-!
# Sequences of calls

`step s c` is the state after the call `c` in the state `s`, or nothing if the call does not come
back.  `Along step Q P s cs` says that `Q` holds in every state that the calls `cs` go through, and
`P` of every call in the state in which it is made.

* `Along.iff`      an invariant that a call keeps under its condition `C`: `Q` and `P` hold along the
                   calls **iff every call meets its condition**, if a call that does not meet it breaks
                   `P` or leaves a state without `Q`.
-/

namespace CppCores

section
variable {σ ι : Type*} {step : σ → ι → Option σ} {Q I : σ → Prop} {P C : σ → ι → Prop}

/-- `Q` in every state on the way, `P` of every call -/
def Along (step : σ → ι → Option σ) (Q : σ → Prop) (P : σ → ι → Prop) : σ → List ι → Prop
  | s, [] => Q s
  | s, c :: cs => Q s ∧ P s c ∧ ∀ s', step s c = some s' → Along step Q P s' cs

/-- every call meets its condition -/
def Each (step : σ → ι → Option σ) (C : σ → ι → Prop) : σ → List ι → Prop :=
  Along step (fun _ => True) C

instance Along.decidable [∀ s, Decidable (Q s)] [∀ s c, Decidable (P s c)] :
    ∀ s cs, Decidable (Along step Q P s cs)
  | s, [] => inferInstanceAs (Decidable (Q s))
  | s, c :: cs =>
    match h : step s c with
    | none => decidable_of_iff (Q s ∧ P s c) <| by
        rw [Along, h]
        exact ⟨fun hp => ⟨hp.1, hp.2, nofun⟩, fun hp => ⟨hp.1, hp.2.1⟩⟩
    | some s' =>
      have := Along.decidable s' cs
      decidable_of_iff (Q s ∧ P s c ∧ Along step Q P s' cs) <| by
        rw [Along, h]
        simp only [Option.some.injEq, forall_eq']

instance Each.decidable [∀ s c, Decidable (C s c)] (s : σ) (cs : List ι) :
    Decidable (Each step C s cs) :=
  inferInstanceAs (Decidable (Along step (fun _ => True) C s cs))

theorem Along.here {s : σ} {cs : List ι} (h : Along step Q P s cs) : Q s := by
  cases cs with
  | nil => exact h
  | cons c cs => exact h.1

theorem Along.of_append {s s' : σ} (cs : List ι) {ds : List ι} (h : Along step Q P s (cs ++ ds))
    (hs : cs.foldlM step s = some s') : Along step Q P s' ds := by
  induction cs generalizing s with
  | nil =>
    obtain rfl := Option.some.inj hs
    exact h
  | cons c cs ih =>
    rw [List.foldlM_cons, Option.bind_eq_bind, Option.bind_eq_some_iff] at hs
    obtain ⟨s1, h1, h2⟩ := hs
    exact ih (h.2.2 s1 h1) h2

/-- **The calls go right iff each of them meets its condition.** -/
theorem Along.iff (hQ : ∀ s, I s → Q s)
    (hkeep : ∀ s c, I s → C s c → P s c ∧ ∀ s', step s c = some s' → I s')
    (hfail : ∀ s c, I s → ¬ C s c → P s c → ∃ s', step s c = some s' ∧ ¬ Q s')
    {s : σ} (h : I s) (cs : List ι) : Along step Q P s cs ↔ Each step C s cs := by
  induction cs generalizing s with
  | nil => exact ⟨fun _ => trivial, fun _ => hQ s h⟩
  | cons c cs ih =>
    constructor
    · intro ha
      obtain ⟨-, hp, hrest⟩ := ha
      have hc : C s c := by
        by_contra hc
        obtain ⟨s', hs', hq⟩ := hfail s c h hc hp
        exact hq (hrest s' hs').here
      exact ⟨trivial, hc, fun s' hs' => (ih ((hkeep s c h hc).2 s' hs')).mp (hrest s' hs')⟩
    · intro he
      obtain ⟨-, hc, hrest⟩ := he
      obtain ⟨hp, hnext⟩ := hkeep s c h hc
      exact ⟨hQ s h, hp, fun s' hs' => (ih (hnext s' hs')).mpr (hrest s' hs')⟩

end
end CppCores
