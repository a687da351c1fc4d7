import CppCores.Lib.Machine

/-!
# Machines with a ghost

`M.withGhost g note` is the machine `M` with a second component that every step writes and no step
reads, to say in a statement what has happened over a run.

* `withGhost_step_iff`   a step of it is a step of `M`;
* `Reach.fst`            so its runs are runs of `M`;
* `Reach.exists_ghost`   and every run of `M` is one of its runs.
-/

namespace CppCores
namespace Machine
variable {σ ℓ γ : Type*} {M : Machine σ ℓ} {g0 : γ} {note : σ → ℓ → γ → γ}

/-- `M` with the ghost `g0` at the start, to which a step `l` from `s` does `note s l` -/
def withGhost (M : Machine σ ℓ) (g0 : γ) (note : σ → ℓ → γ → γ) : Machine (σ × γ) ℓ where
  init := (M.init, g0)
  step p l := (M.step p.1 l).map fun s => (s, note p.1 l p.2)

theorem withGhost_step_iff {p q : σ × γ} {l : ℓ} :
    (M.withGhost g0 note).step p l = some q ↔ M.step p.1 l = some q.1 ∧ note p.1 l p.2 = q.2 := by
  show Option.map _ _ = _ ↔ _
  rw [Option.map_eq_some_iff]
  constructor
  · intro h
    obtain ⟨s, hs, rfl⟩ := h
    exact ⟨hs, rfl⟩
  · intro h
    exact ⟨q.1, h.1, Prod.ext rfl h.2⟩

/-- what holds at the start and is kept by every step, with an invariant `J` of the runs of `M` at
hand -/
theorem Reach.inv_ghost {ok : σ → ℓ → Prop} {I : σ → γ → Prop} {J : σ → Prop} {p : σ × γ}
    (h : (M.withGhost g0 note).Reach (fun p l => ok p.1 l) p) (hJ : ∀ s, M.Reach ok s → J s)
    (h0 : I M.init g0)
    (hs : ∀ s g l s', J s → I s g → ok s l → M.step s l = some s' → I s' (note s l g)) :
    M.Reach ok p.1 ∧ I p.1 p.2 := by
  induction h with
  | init => exact ⟨.init, h0⟩
  | step hr hok hst ih =>
    obtain ⟨hr1, hi⟩ := ih
    obtain ⟨hst1, hg⟩ := withGhost_step_iff.mp hst
    refine ⟨hr1.step hok hst1, ?_⟩
    rw [← hg]
    exact hs _ _ _ _ (hJ _ hr1) hi hok hst1

theorem Reach.fst {ok : σ → ℓ → Prop} {p : σ × γ}
    (h : (M.withGhost g0 note).Reach (fun p l => ok p.1 l) p) : M.Reach ok p.1 :=
  (h.inv_ghost (I := fun _ _ => True) (J := fun _ => True) (fun _ _ => trivial) trivial
    fun _ _ _ _ _ _ _ _ => trivial).1

/-- **A ghost excludes no run.** -/
theorem Reach.exists_ghost {ok : σ → ℓ → Prop} {s : σ} (h : M.Reach ok s) (g0 : γ)
    (note : σ → ℓ → γ → γ) :
    ∃ g, (M.withGhost g0 note).Reach (fun p l => ok p.1 l) (s, g) := by
  induction h with
  | init => exact ⟨g0, .init⟩
  | step hr hok hst ih =>
    obtain ⟨g, hg⟩ := ih
    exact ⟨_, hg.step hok (withGhost_step_iff.mpr ⟨hst, rfl⟩)⟩

end Machine
end CppCores
