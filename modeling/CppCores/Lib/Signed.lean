import Mathlib.Algebra.Group.Int.Defs
import Mathlib.Data.Int.Notation

/-!
# Signed arithmetic that has no value where it overflows

A signed integer type of `w` bits is `BitVec w` under `BitVec.toInt`.  An operation on such numbers
has the integers' result where the type can hold it and none where it overflows (`checked_eq_some`,
`checked_of_fits`).
-/

namespace CppCores
namespace Signed

/-- the type of `w` bits can hold `n` -/
def Fits (w : ℕ) (n : ℤ) : Prop := -2 ^ (w - 1) ≤ n ∧ n < 2 ^ (w - 1)

instance instDecidableFits (w : ℕ) (n : ℤ) : Decidable (Fits w n) :=
  inferInstanceAs (Decidable (_ ∧ _))

/-- `n` as a number of `w` bits, nothing where it overflows -/
def checked (w : ℕ) (n : ℤ) : Option (BitVec w) :=
  if Fits w n then some (BitVec.ofInt w n) else none

def checkedAdd {w : ℕ} (x y : BitVec w) : Option (BitVec w) := checked w (x.toInt + y.toInt)

def checkedMul {w : ℕ} (x y : BitVec w) : Option (BitVec w) := checked w (x.toInt * y.toInt)

section
variable {w : ℕ} (hw : 0 < w)
include hw

theorem fits_toInt (x : BitVec w) : Fits w x.toInt := by
  obtain ⟨v, rfl⟩ : ∃ v, w = v + 1 := ⟨w - 1, by omega⟩
  have hlo := BitVec.le_toInt x
  have hhi := BitVec.toInt_lt (x := x)
  exact ⟨hlo, hhi⟩

theorem toInt_ofInt {n : ℤ} (h : Fits w n) : (BitVec.ofInt w n).toInt = n := by
  obtain ⟨v, rfl⟩ : ∃ v, w = v + 1 := ⟨w - 1, by omega⟩
  obtain ⟨hlo, hhi⟩ := h
  exact BitVec.toInt_ofInt_eq_self hw hlo hhi

theorem checked_eq_some {n : ℤ} (z : BitVec w) : checked w n = some z ↔ z.toInt = n := by
  rw [checked]
  by_cases h : Fits w n
  · rw [if_pos h, Option.some.injEq, ← BitVec.toInt_inj, toInt_ofInt hw h]
    exact eq_comm
  · rw [if_neg h]
    refine ⟨nofun, fun hz => ?_⟩
    rw [← hz] at h
    exact absurd (fits_toInt hw z) h

end

theorem checked_of_fits {w : ℕ} {n : ℤ} (h : Fits w n) : checked w n = some (BitVec.ofInt w n) :=
  if_pos h

end Signed
end CppCores
