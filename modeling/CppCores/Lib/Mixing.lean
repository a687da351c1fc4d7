import Mathlib.Data.Fintype.EquivFin
import Mathlib.Tactic.Common

/-!
# Mixing: steps on words that lose nothing

A hash function goes through its input word by word and mixes each word into a state.  It keeps
apart what differs in one word if every step is injective, in the state and in the word.

* `xorShift_injective`, `rotate_injective`, `mul_injective`   the usual steps on words;
* `Mixes f`              the step `f` is injective in the state and in the word it absorbs;
* `Mixes.foldl_inj`      a run over any words is injective in the state it starts from;
* `Mixes.foldl_ne`       **two runs over words that differ in one place end in different states.**
-/

namespace CppCores
open Function (Injective)

section
variable {w k r : ℕ}

/-- the bits from the top down: the shifted word is known there -/
theorem xorShift_injective (hk : 0 < k) : Injective fun x : BitVec w => x ^^^ (x >>> k) := by
  intro x y h
  have hbits : ∀ n i, w ≤ i + n → x.getLsbD i = y.getLsbD i := by
    intro n
    induction n with
    | zero =>
      intro i hi
      rw [BitVec.getLsbD_of_ge x i hi, BitVec.getLsbD_of_ge y i hi]
    | succ n ih =>
      intro i hi
      have habove := ih (k + i) (by omega)
      have hbit : (x ^^^ (x >>> k)).getLsbD i = (y ^^^ (y >>> k)).getLsbD i :=
        congrArg (fun z => BitVec.getLsbD z i) h
      rw [BitVec.getLsbD_xor, BitVec.getLsbD_xor, BitVec.getLsbD_ushiftRight,
        BitVec.getLsbD_ushiftRight, habove] at hbit
      exact Bool.xor_left_inj.mp hbit
  exact BitVec.eq_of_getLsbD_eq fun i _ => hbits w i (Nat.le_add_left w i)

theorem getLsbD_rotate (hr : r ≤ w) (x : BitVec w) {i : ℕ} (hi : i < w) :
    (x <<< r ||| x >>> (w - r)).getLsbD (if i + r < w then i + r else i + r - w) = x.getLsbD i := by
  rw [BitVec.getLsbD_or, BitVec.getLsbD_shiftLeft, BitVec.getLsbD_ushiftRight]
  split
  · next h =>
    have hout : x.getLsbD (w - r + (i + r)) = false := BitVec.getLsbD_of_ge x _ (by omega)
    simp [hout, h]
  · next h =>
    have hlow : i + r - w < r := by omega
    have hback : w - r + (i + r - w) = i := by omega
    simp [hlow, hback]

theorem rotate_injective (hr : r ≤ w) :
    Injective fun x : BitVec w => x <<< r ||| x >>> (w - r) := by
  intro x y h
  refine BitVec.eq_of_getLsbD_eq fun i hi => ?_
  have h : (x <<< r ||| x >>> (w - r)) = y <<< r ||| y >>> (w - r) := h
  rw [← getLsbD_rotate hr x hi, ← getLsbD_rotate hr y hi, h]

theorem mul_injective {m m' : BitVec w} (hm : m * m' = 1#w) : Injective fun x => x * m := by
  intro x y h
  have hmul : x * m * m' = y * m * m' := congrArg (· * m') h
  rwa [BitVec.mul_assoc, BitVec.mul_assoc, hm, BitVec.mul_one, BitVec.mul_one] at hmul

end

section
variable {σ α : Type*} {f : σ → α → σ}

/-- a step that loses neither the state nor the word -/
structure Mixes (f : σ → α → σ) : Prop where
  state : ∀ a, Injective fun s => f s a
  word : ∀ s, Injective (f s)

namespace Mixes

theorem foldl_inj (hf : Mixes f) (l : List α) : Injective fun s => l.foldl f s := by
  induction l with
  | nil => exact fun _ _ h => h
  | cons a l ih => exact ih.comp (hf.state a)

theorem foldl_surj [Finite σ] (hf : Mixes f) (l : List α) :
    Function.Surjective fun s => l.foldl f s :=
  Finite.injective_iff_surjective.mp (hf.foldl_inj l)

/-- **A difference in one word is a difference in the state.** -/
theorem foldl_ne (hf : Mixes f) {l m : List α} {i : ℕ} (hi : l[i]? ≠ m[i]?)
    (hlen : l.length = m.length) (hrest : ∀ j, j ≠ i → l[j]? = m[j]?) (s : σ) :
    l.foldl f s ≠ m.foldl f s := by
  induction l generalizing m i s with
  | nil =>
    obtain rfl := List.eq_nil_of_length_eq_zero hlen.symm
    exact absurd rfl hi
  | cons a l ih =>
    cases m with
    | nil => exact absurd hlen (Nat.succ_ne_zero _)
    | cons b m =>
      cases i with
      | zero =>
        have htail : l = m := List.ext_getElem? fun j => hrest (j + 1) (Nat.succ_ne_zero j)
        subst htail
        intro h
        have hab : f s a = f s b := hf.foldl_inj l h
        exact hi (congrArg some (hf.word s hab))
      | succ i =>
        obtain rfl : a = b := Option.some.inj (hrest 0 (Nat.succ_ne_zero i).symm)
        refine ih hi (Nat.succ.inj hlen) (fun j hj => ?_) (f s a)
        exact hrest (j + 1) fun h => hj (Nat.succ.inj h)

end Mixes
end
end CppCores
