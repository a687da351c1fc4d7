import Mathlib.Data.BitVec
import Mathlib.Tactic.Common

/-!
# Words that are written under a mask

`merge m a b` has the bits of `b` where the mask `m` is set, and those of `a` elsewhere: what is left of
`a` when `b` is written through the window `m`.

* `merge_and_not`     what is outside the window stays;
* `merge_merge_narrow`  a field that is written through a wider window is there;
* `merge_narrow_iff`  **read, modify, write.**  A field `n` of a word that was read as `b` is changed, and
                      the word is written back through the wider window `m` over `a`: just the field has
                      changed iff `a` and `b` agree on the rest of the window.
-/

namespace CppCores
namespace Masks
variable {w : ℕ}

/-- `b` written over `a` through the window `m` -/
def merge (m a b : BitVec w) : BitVec w := (a &&& ~~~m) ||| (b &&& m)

theorem getLsbD_merge (m a b : BitVec w) {i : ℕ} (hi : i < w) :
    (merge m a b).getLsbD i = bif m.getLsbD i then b.getLsbD i else a.getLsbD i := by
  rw [merge, BitVec.getLsbD_or, BitVec.getLsbD_and, BitVec.getLsbD_and, BitVec.getLsbD_not,
    decide_eq_true hi]
  cases m.getLsbD i <;> simp

theorem msb_merge (m a b : BitVec w) :
    (merge m a b).msb = ((a.msb && (~~~m).msb) || (b.msb && m.msb)) := by
  rw [merge, BitVec.msb_or, BitVec.msb_and, BitVec.msb_and]

theorem or_eq_merge (n a : BitVec w) : a ||| n = merge n a (BitVec.allOnes w) := by
  apply BitVec.eq_of_getLsbD_eq
  intro i hi
  rw [getLsbD_merge n a _ hi, BitVec.getLsbD_or, BitVec.getLsbD_allOnes, decide_eq_true hi]
  cases n.getLsbD i <;> simp

theorem and_not_eq_merge (n a : BitVec w) : a &&& ~~~n = merge n a 0 := by
  apply BitVec.eq_of_getLsbD_eq
  intro i hi
  rw [getLsbD_merge n a _ hi, BitVec.getLsbD_and, BitVec.getLsbD_not, decide_eq_true hi]
  cases n.getLsbD i <;> simp

theorem merge_and_not (n a v : BitVec w) : merge n a v &&& ~~~n = a &&& ~~~n := by
  apply BitVec.eq_of_getLsbD_eq
  intro i hi
  rw [BitVec.getLsbD_and, BitVec.getLsbD_and, getLsbD_merge n a v hi, BitVec.getLsbD_not,
    decide_eq_true hi]
  cases n.getLsbD i <;> simp

theorem and_twoPow_cases (a : BitVec w) (i : ℕ) :
    a &&& BitVec.twoPow w i = 0 ∨ a ||| BitVec.twoPow w i = a := by
  rw [BitVec.and_twoPow]
  cases hi : a.getLsbD i with
  | false => exact .inl (if_neg Bool.false_ne_true)
  | true =>
    refine .inr (BitVec.eq_of_getLsbD_eq fun j hj => ?_)
    rw [BitVec.getLsbD_or, BitVec.getLsbD_twoPow]
    by_cases hij : i = j
    · rw [← hij, hi, Bool.true_or]
    · rw [decide_eq_false hij, Bool.and_false, Bool.or_false]

theorem and_not_of_and {n a : BitVec w} (h : a &&& n = 0) : a &&& ~~~n = a := by
  have hsplit : (a &&& ~~~n) ||| (a &&& n) = a := by
    rw [← BitVec.and_or_distrib_left, BitVec.or_comm, BitVec.or_not_self, BitVec.and_allOnes]
  rw [h] at hsplit
  exact BitVec.or_zero.symm.trans hsplit

theorem and_eq_and_iff (m a b : BitVec w) :
    b &&& m = a &&& m ↔ ∀ i < w, m.getLsbD i = true → b.getLsbD i = a.getLsbD i := by
  constructor
  · intro h i _ hm
    have hbit := congrArg (fun x : BitVec w => x.getLsbD i) h
    simpa only [BitVec.getLsbD_and, hm, Bool.and_true] using hbit
  · intro h
    apply BitVec.eq_of_getLsbD_eq
    intro i hi
    rw [BitVec.getLsbD_and, BitVec.getLsbD_and]
    cases hm : m.getLsbD i with
    | false => simp
    | true => rw [h i hi hm]

theorem getLsbD_of_and_eq {m n : BitVec w} (h : n &&& m = n) {i : ℕ} (hn : n.getLsbD i = true) :
    m.getLsbD i = true := by
  have hbit := congrArg (fun x : BitVec w => x.getLsbD i) h
  rw [BitVec.getLsbD_and, hn, Bool.true_and] at hbit
  exact hbit

theorem merge_merge_narrow {m n : BitVec w} (h : n &&& m = n) (a b v : BitVec w) :
    merge n (merge m a (merge n b v)) v = merge m a (merge n b v) := by
  apply BitVec.eq_of_getLsbD_eq
  intro i hi
  rw [getLsbD_merge n _ v hi, getLsbD_merge m a _ hi, getLsbD_merge n b v hi]
  cases hn : n.getLsbD i with
  | true =>
    rw [getLsbD_of_and_eq h hn]
    rfl
  | false => rfl

/-- **Read, modify, write.** -/
theorem merge_narrow_iff {m n : BitVec w} (h : n &&& m = n) (a b v : BitVec w) :
    merge m a (merge n b v) = merge n a v ↔ b &&& (m &&& ~~~n) = a &&& (m &&& ~~~n) := by
  rw [and_eq_and_iff]
  have hbit : ∀ i (hi : i < w), ((merge m a (merge n b v)).getLsbD i = (merge n a v).getLsbD i ↔
      ((m &&& ~~~n).getLsbD i = true → b.getLsbD i = a.getLsbD i)) := by
    intro i hi
    rw [getLsbD_merge m _ _ hi, getLsbD_merge n b v hi, getLsbD_merge n a v hi, BitVec.getLsbD_and,
      BitVec.getLsbD_not, decide_eq_true hi]
    cases hn : n.getLsbD i with
    | true => simp [getLsbD_of_and_eq h hn]
    | false => cases m.getLsbD i <;> simp
  constructor
  · intro heq i hi
    exact (hbit i hi).mp (congrArg (fun x : BitVec w => x.getLsbD i) heq)
  · intro hagree
    apply BitVec.eq_of_getLsbD_eq
    intro i hi
    exact (hbit i hi).mpr (hagree i hi)

end Masks
end CppCores
