import Mathlib.Tactic.Common

/-!
# Loops that may throw, or never end

`body s` is one turn of a loop in the state `s`: another turn from a new state, out of the loop with a
result, or an exception.  `turns body fuel s` makes at most `fuel` turns.

* `Ends body s r`     the loop ends with `r`, which may be an exception;
* `Ends.det`          it ends in one way only;
* `Ends.of_counted`   a loop whose states are known from their number;
* `Ends.of_variant`   **total correctness**: a relation between the state and the result that is due is
                      kept while a number goes down;
* `Gives.bind`        calls that contain loops, one after the other;
* `not_ends`          an invariant under which every turn asks for another one: the loop never ends;
* `turns_congr`       an invariant under which the turns of two loops are the same.
-/

namespace CppCores

/-- out of the loop with `r`, or once more from the state `s` -/
inductive Turn (σ ρ : Type) where
  | leave (r : ρ)
  | again (s : σ)
  deriving DecidableEq, Repr

section
variable {σ ρ ε : Type} {body : σ → Except ε (Turn σ ρ)} {s s' : σ} {r r' : Except ε ρ}

/-- at most `fuel` turns -/
def turns (body : σ → Except ε (Turn σ ρ)) : ℕ → σ → Option (Except ε ρ)
  | 0, _ => none
  | fuel + 1, s =>
    match body s with
    | .error e => some (.error e)
    | .ok (.leave r) => some (.ok r)
    | .ok (.again s') => turns body fuel s'

/-- the loop ends with `r` -/
def Ends (body : σ → Except ε (Turn σ ρ)) (s : σ) (r : Except ε ρ) : Prop :=
  ∃ fuel, turns body fuel s = some r

theorem turns_leave {fuel : ℕ} {x : ρ} (h : body s = .ok (.leave x)) :
    turns body (fuel + 1) s = some (.ok x) := by
  rw [turns, h]

theorem turns_again {fuel : ℕ} (h : body s = .ok (.again s')) :
    turns body (fuel + 1) s = turns body fuel s' := by
  rw [turns, h]

theorem turns_succ {fuel : ℕ} (h : turns body fuel s = some r) :
    turns body (fuel + 1) s = some r := by
  induction fuel generalizing s with
  | zero => exact absurd h (by simp [turns])
  | succ fuel ih =>
    rw [turns] at h ⊢
    split at h
    · exact h
    · exact h
    · exact ih h

theorem turns_mono {fuel fuel' : ℕ} (hle : fuel ≤ fuel') (h : turns body fuel s = some r) :
    turns body fuel' s = some r := by
  induction hle with
  | refl => exact h
  | step _ ih => exact turns_succ ih

/-- **Two loops whose turns agree under an invariant do the same.** -/
theorem turns_congr {body' : σ → Except ε (Turn σ ρ)} {I : σ → Prop}
    (heq : ∀ s, I s → body s = body' s)
    (hI : ∀ s s', I s → body s = .ok (.again s') → I s') (fuel : ℕ) (h : I s) :
    turns body fuel s = turns body' fuel s := by
  induction fuel generalizing s with
  | zero => rfl
  | succ fuel ih =>
    rw [turns, turns, ← heq s h]
    split
    · rfl
    · rfl
    · rename_i s' hs'
      exact ih (hI s s' h hs')

namespace Ends

theorem leave {x : ρ} (h : body s = .ok (.leave x)) : Ends body s (.ok x) := ⟨1, turns_leave h⟩

theorem again (h : body s = .ok (.again s')) (hr : Ends body s' r) : Ends body s r := by
  obtain ⟨fuel, hf⟩ := hr
  exact ⟨fuel + 1, (turns_again h).trans hf⟩

/-- **A loop ends in one way only.** -/
theorem det (h : Ends body s r) (h' : Ends body s r') : r = r' := by
  obtain ⟨m, hm⟩ := h
  obtain ⟨n, hn⟩ := h'
  have hm' := turns_mono (Nat.le_max_left m n) hm
  have hn' := turns_mono (Nat.le_max_right m n) hn
  exact Option.some.inj (hm'.symm.trans hn')

/-- a loop whose turns go through the states `f 0`, `f 1`, .. `f m`, and that is left there -/
theorem of_counted {f : ℕ → σ} {m : ℕ} (hagain : ∀ k < m, body (f k) = .ok (.again (f (k + 1)))) {x : ρ}
    (hleave : body (f m) = .ok (.leave x)) : Ends body (f 0) (.ok x) := by
  induction m generalizing f with
  | zero => exact leave hleave
  | succ m ih =>
    have hrest := ih (f := fun k => f (k + 1)) (fun k hk => hagain (k + 1) (Nat.succ_lt_succ hk)) hleave
    exact again (hagain 0 (Nat.succ_pos m)) hrest

/-- **Total correctness.**  `R n s x`: the result that is due in the state `s` is `x`, after at most
`n` turns. -/
theorem of_variant {R : ℕ → σ → ρ → Prop}
    (hstep : ∀ n s x, R n s x → body s = .ok (.leave x) ∨
      ∃ m s', m < n ∧ body s = .ok (.again s') ∧ R m s' x)
    {n : ℕ} {x : ρ} (h : R n s x) : Ends body s (.ok x) := by
  induction n using Nat.strongRecOn generalizing s with
  | ind n ih =>
    rcases hstep n s x h with hl | hs
    · exact leave hl
    · obtain ⟨m, s', hlt, hb, hr⟩ := hs
      exact again hb (ih m hlt hr)

end Ends

/-! ## calls that contain loops -/

/-- `f fuel` is a call whose loops make at most `fuel` turns each: it is over with `r` as soon as these
are enough, and never with anything else -/
structure Gives {α : Type} (f : ℕ → Option α) (r : α) : Prop where
  enough : ∃ n, ∀ fuel, n ≤ fuel → f fuel = some r
  only : ∀ fuel r', f fuel = some r' → r' = r

namespace Gives
variable {α β : Type} {f : ℕ → Option α} {g : ℕ → α → Option β} {x : α} {y : β}

theorem of_ends (h : Ends body s r) : Gives (fun fuel => turns body fuel s) r where
  enough := by
    obtain ⟨n, hn⟩ := h
    exact ⟨n, fun fuel hle => turns_mono hle hn⟩
  only := fun fuel _ h' => Ends.det ⟨fuel, h'⟩ h

theorem pure (x : α) : Gives (fun _ => some x) x :=
  ⟨⟨0, fun _ _ => rfl⟩, fun _ _ h => (Option.some.inj h).symm⟩

theorem bind (hf : Gives f x) (hg : Gives (fun fuel => g fuel x) y) :
    Gives (fun fuel => (f fuel).bind (g fuel)) y where
  enough := by
    obtain ⟨m, hm⟩ := hf.enough
    obtain ⟨n, hn⟩ := hg.enough
    refine ⟨max m n, fun fuel hle => ?_⟩
    have hle' := Nat.max_le.mp hle
    show (f fuel).bind (g fuel) = some y
    rw [hm fuel hle'.1, Option.bind_some]
    exact hn fuel hle'.2
  only := by
    intro fuel y' h
    obtain ⟨x', hx', hy'⟩ := Option.bind_eq_some_iff.mp h
    obtain rfl := hf.only fuel x' hx'
    exact hg.only fuel y' hy'

end Gives

/-- **A loop whose every turn asks for another one does not end.** -/
theorem not_ends {I : σ → Prop} (hI : ∀ s, I s → ∃ s', body s = .ok (.again s') ∧ I s') (h : I s) :
    ¬ Ends body s r := by
  intro he
  obtain ⟨fuel, hf⟩ := he
  induction fuel generalizing s with
  | zero => exact absurd hf (by simp [turns])
  | succ fuel ih =>
    obtain ⟨s', hb, hs'⟩ := hI s h
    rw [turns_again hb] at hf
    exact ih hs' hf

end
end CppCores
