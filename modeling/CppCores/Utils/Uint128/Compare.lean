import CppCores.Utils.Uint128

/-!
# The comparison operators of uint_t<128>

* `orders_spec`        `<`, `<=`, `>` and `>=` are the order of the numbers;
* `equality_spec`     **`==` and `!=` are the wrong way round**;
* `compares_never`    so for no two values all six are right.
-/

namespace CppCores
namespace Uint128
namespace uint128

/-- `operator==` -/
def eq (x y : uint128) : Bool := (x.lo != y.lo) || (x.hi != y.hi)

/-- `operator!=` -/
def ne (x y : uint128) : Bool := !(eq x y)

/-- `operator<` -/
def lt (x y : uint128) : Bool := decide (x.hi < y.hi) || (x.hi == y.hi && decide (x.lo < y.lo))

/-- `operator<=` -/
def le (x y : uint128) : Bool := decide (x.hi < y.hi) || ((x.hi == y.hi) && decide (x.lo ≤ y.lo))

/-- `operator>` -/
def gt (x y : uint128) : Bool := !(le x y)

/-- `operator>=` -/
def ge (x y : uint128) : Bool := !(lt x y)

end uint128

open uint128

/-- what is asked of the four operators of the order -/
structure Orders (x y : uint128) : Prop where
  lt : lt x y = true ↔ N x < N y
  le : le x y = true ↔ N x ≤ N y
  gt : gt x y = true ↔ N x > N y
  ge : ge x y = true ↔ N x ≥ N y

/-- what is asked of all six operators -/
structure Compares (x y : uint128) : Prop extends Orders x y where
  eq : eq x y = true ↔ N x = N y
  ne : ne x y = true ↔ N x ≠ N y

theorem N_lt_iff (x y : uint128) :
    N x < N y ↔ x.hi.toNat < y.hi.toNat ∨ x.hi.toNat = y.hi.toNat ∧ x.lo.toNat < y.lo.toNat := by
  have hx := x.lo.toNat_lt
  have hy := y.lo.toNat_lt
  unfold N
  omega

theorem lt_iff (x y : uint128) : lt x y = true ↔ N x < N y := by
  rw [N_lt_iff, uint128.lt, Bool.or_eq_true, Bool.and_eq_true, decide_eq_true_iff, beq_iff_eq,
    decide_eq_true_iff, UInt64.lt_iff_toNat_lt, UInt64.lt_iff_toNat_lt, UInt64.toNat_inj]

theorem le_iff (x y : uint128) : le x y = true ↔ N x ≤ N y := by
  have hle : N x ≤ N y ↔
      x.hi.toNat < y.hi.toNat ∨ x.hi.toNat = y.hi.toNat ∧ x.lo.toNat ≤ y.lo.toNat := by
    rw [← Nat.not_lt, N_lt_iff]
    omega
  rw [hle, uint128.le, Bool.or_eq_true, Bool.and_eq_true, decide_eq_true_iff, beq_iff_eq,
    decide_eq_true_iff, UInt64.lt_iff_toNat_lt, UInt64.le_iff_toNat_le, UInt64.toNat_inj]

/-- **The operators of the order are the order of the numbers.** -/
theorem orders_spec (x y : uint128) : Orders x y where
  lt := lt_iff x y
  le := le_iff x y
  gt := by rw [uint128.gt, Bool.not_eq_true', Bool.eq_false_iff, ne_eq, le_iff, Nat.not_le]
  ge := by rw [uint128.ge, Bool.not_eq_true', Bool.eq_false_iff, ne_eq, lt_iff, Nat.not_lt]

/-- **`==` says that the numbers differ, `!=` that they are the same.** -/
theorem equality_spec (x y : uint128) :
    (eq x y = true ↔ N x ≠ N y) ∧ (ne x y = true ↔ N x = N y) := by
  have heq : eq x y = true ↔ N x ≠ N y := by
    rw [uint128.eq, Bool.or_eq_true, bne_iff_ne, bne_iff_ne, ne_eq (N x), N_inj]
    constructor
    · intro h he
      subst he
      exact h.elim (fun hlo => hlo rfl) fun hhi => hhi rfl
    · intro h
      by_contra hboth
      rw [not_or, not_not, not_not] at hboth
      exact h (by
        cases x
        cases y
        obtain ⟨rfl, rfl⟩ := hboth
        rfl)
  refine ⟨heq, ?_⟩
  rw [uint128.ne, Bool.not_eq_true', Bool.eq_false_iff, ne_eq, heq, not_not]

/-- **For no two values all operators are right**: the order is, equality is not. -/
theorem compares_never (x y : uint128) : ¬ Compares x y ∧ Orders x y := by
  refine ⟨fun h => ?_, orders_spec x y⟩
  have hne : N x = N y ↔ N x ≠ N y := h.eq.symm.trans (equality_spec x y).1
  exact iff_not_self hne

/-- 0 is not equal to 0 -/
theorem not_compares : ¬ ∀ x y : uint128, Compares x y := by
  intro hall
  have h : eq ⟨0, 0⟩ ⟨0, 0⟩ = true := (hall ⟨0, 0⟩ ⟨0, 0⟩).eq.mpr rfl
  exact absurd h (by decide)

end Uint128
end CppCores
