import CppCores.Lib.Mixing
import CppCores.Utils.Hash.Words

/-!
# Hash: no collisions in one block

Every step of `murmur3_hash` and of `Hash` is injective in the state and in the word that it absorbs
(`mixBlock_mixes`, `addBlock_mixes`), and so are the last steps (`murmur_absorbs`, `hash_absorbs`).

* `Absorbs.ne`     two byte strings that differ in one block have different hashes;
* `Absorbs.inj`    so have two seeds;
* `murmur3_hash_and_Hash_ne`   **the same of the two functions on strings shorter than `2 ^ 31`.**
-/

namespace CppCores
namespace HashUtils
open Function (Injective)

/-! ## steps on 32-bit words -/

section
variable {k r m w : UInt32}

theorem toBitVec_shiftRight_nat (x k : UInt32) :
    (x >>> k).toBitVec = x.toBitVec >>> (k.toNat % 32) := by
  rw [UInt32.toBitVec_shiftRight, BitVec.ushiftRight_eq', BitVec.toNat_umod]
  rfl

theorem toBitVec_shiftLeft_nat (x k : UInt32) :
    (x <<< k).toBitVec = x.toBitVec <<< (k.toNat % 32) := by
  rw [UInt32.toBitVec_shiftLeft, BitVec.shiftLeft_eq', BitVec.toNat_umod]
  rfl

theorem xorShift_inj (hk : 0 < k.toNat % 32) : Injective fun x : UInt32 => x ^^^ (x >>> k) := by
  intro x y h
  have hb : x.toBitVec ^^^ (x.toBitVec >>> (k.toNat % 32)) =
      y.toBitVec ^^^ (y.toBitVec >>> (k.toNat % 32)) := by
    rw [← toBitVec_shiftRight_nat, ← toBitVec_shiftRight_nat, ← UInt32.toBitVec_xor,
      ← UInt32.toBitVec_xor]
    exact congrArg UInt32.toBitVec h
  exact UInt32.toBitVec_inj.mp (xorShift_injective hk hb)

theorem ROTL_inj (hr : r.toNat % 32 + (32 - r).toNat % 32 = 32) : Injective fun x => ROTL x r := by
  intro x y h
  have hs : (32 - r).toNat % 32 = 32 - r.toNat % 32 := by omega
  have hbits : ∀ z : UInt32, (ROTL z r).toBitVec =
      z.toBitVec <<< (r.toNat % 32) ||| z.toBitVec >>> (32 - r.toNat % 32) := fun z => by
    rw [ROTL, UInt32.toBitVec_or, toBitVec_shiftLeft_nat, toBitVec_shiftRight_nat, hs]
  have hb := congrArg UInt32.toBitVec h
  simp only [hbits] at hb
  exact UInt32.toBitVec_inj.mp (rotate_injective (by omega) hb)

theorem mul_inj (hm : m * w = 1) : Injective fun x => x * m := by
  intro x y h
  have hb : x.toBitVec * m.toBitVec = y.toBitVec * m.toBitVec := congrArg UInt32.toBitVec h
  have hmw : m.toBitVec * w.toBitVec = 1#32 := congrArg UInt32.toBitVec hm
  exact UInt32.toBitVec_inj.mp (mul_injective hmw hb)

theorem xor_left_inj (s : UInt32) : Injective fun x => s ^^^ x := fun _ _ h =>
  (UInt32.xor_right_inj s).mp h

theorem xor_right_inj (s : UInt32) : Injective fun x => x ^^^ s := fun _ _ h =>
  (UInt32.xor_left_inj s).mp h

theorem add_left_inj (s : UInt32) : Injective fun x => s + x := fun _ _ h =>
  (UInt32.add_right_inj s).mp h

theorem add_right_inj (s : UInt32) : Injective fun x => x + s := fun _ _ h =>
  (UInt32.add_left_inj s).mp h

end

theorem fmix32_inj : Injective fmix32 :=
  (xorShift_inj (k := 16) (by decide)).comp <|
    (mul_inj (m := 0xc2b2ae35) (w := 0x7ed1b41d) (by decide)).comp <|
      (xorShift_inj (k := 13) (by decide)).comp <|
        (mul_inj (m := 0x85ebca6b) (w := 0xa5cb9243) (by decide)).comp
          (xorShift_inj (k := 16) (by decide))

theorem scramble_inj : Injective scramble :=
  (mul_inj (m := 0x1b873593) (w := 0x56ed309b) (by decide)).comp <|
    (ROTL_inj (r := 15) (by decide)).comp
      (mul_inj (m := 0xcc9e2d51) (w := 0xdee13bb1) (by decide))

/-- the block that the loop of `murmur3` mixes in loses nothing -/
theorem mixBlock_mixes : Mixes mixBlock := by
  have hlast : Injective fun x => ROTL x 13 * 5 + 0xe6546b64 :=
    (add_right_inj 0xe6546b64).comp <|
      (mul_inj (m := 5) (w := 0xcccccccd) (by decide)).comp (ROTL_inj (r := 13) (by decide))
  exact
    { state := fun s => hlast.comp (xor_right_inj (scramble s))
      word := fun h => hlast.comp ((xor_left_inj h).comp scramble_inj) }

theorem addBlock_mixes : Mixes addBlock := by
  have hlast : Injective fun x : UInt32 => (x * 0xc6a4a793) ^^^ ((x * 0xc6a4a793) >>> (16 : UInt32)) :=
    (xorShift_inj (k := 16) (by decide)).comp
      (mul_inj (m := 0xc6a4a793) (w := 0xd8198e9b) (by decide))
  exact
    { state := fun w => hlast.comp (add_right_inj w)
      word := fun h => hlast.comp (add_left_inj h) }

/-! ## one block -/

/-- as many bytes, different, and only inside one block of 4 or inside the last bytes -/
structure OneBlock (a b : List UInt8) : Prop where
  length : a.length = b.length
  ne : a ≠ b
  inside : ∃ i, ∀ j, a[j]? ≠ b[j]? → j / 4 = i

section
variable {a b : List UInt8} {i k : ℕ}

theorem getElem?_block {j : ℕ} (hj : j < 4) : (block a i)[j]? = a[4 * i + j]? := by
  rw [block, List.getElem?_take, if_pos hj, List.getElem?_drop]

theorem block_eq_of_inside (h : ∀ j, a[j]? ≠ b[j]? → j / 4 = i) (hk : k ≠ i) :
    block a k = block b k := by
  apply List.ext_getElem?
  intro j
  rcases Nat.lt_or_ge j 4 with hj | hj
  · rw [getElem?_block hj, getElem?_block hj]
    by_contra hne
    have := h _ hne
    omega
  · rw [List.getElem?_eq_none (by rw [length_block]; omega),
      List.getElem?_eq_none (by rw [length_block]; omega)]

theorem block_ne_of_inside (hne : a ≠ b) (h : ∀ j, a[j]? ≠ b[j]? → j / 4 = i) :
    block a i ≠ block b i := by
  intro he
  apply hne
  apply List.ext_getElem?
  intro j
  by_contra hj
  have hi := h j hj
  apply hj
  have hpos : 4 * i + j % 4 = j := by omega
  rw [← hpos, ← getElem?_block (Nat.mod_lt j (by decide)), he,
    getElem?_block (Nat.mod_lt j (by decide))]

/-- a hash function: blocks are absorbed by `step`, and the rest by `finish` -/
structure Absorbs (step : UInt32 → UInt32 → UInt32) (finish : UInt32 → List UInt8 → UInt32) :
    Prop where
  step : Mixes step
  state : ∀ l, Injective fun h => finish h l
  rest : ∀ h l m, l.length = m.length → l.length ≤ 4 → finish h l = finish h m → l = m

theorem length_words : (words b).length = b.length / 4 := by
  rw [words, List.length_map, List.length_range]

theorem getElem?_words : (words b)[k]? = if k < b.length / 4 then some (word (block b k)) else none := by
  rw [words, List.getElem?_map]
  split
  · next h => rw [List.getElem?_range h]; rfl
  · next h => rw [List.getElem?_eq_none (by rw [List.length_range]; omega)]; rfl

namespace Absorbs
variable {step : UInt32 → UInt32 → UInt32} {finish : UInt32 → List UInt8 → UInt32}

/-- **A difference in one block is a difference of the hashes.** -/
theorem ne (h : Absorbs step finish) (hab : OneBlock a b) (s : UInt32) :
    finish ((words a).foldl step s) (tail a) ≠ finish ((words b).foldl step s) (tail b) := by
  obtain ⟨hlen, hne, i, hin⟩ := hab
  have hdiff : block a i ≠ block b i := block_ne_of_inside hne hin
  have hlenb : ∀ k, (block a k).length = (block b k).length := fun k => by
    rw [length_block, length_block, hlen]
  have hle : ∀ k, (block a k).length ≤ 4 := fun k => by
    rw [length_block]
    exact Nat.min_le_left _ _
  by_cases hi : i < a.length / 4
  · -- a word in the middle: the tails agree
    have htail : tail a = tail b := by
      rw [tail, tail, hlen]
      exact block_eq_of_inside hin (by omega)
    have hwords : (words a).foldl step s ≠ (words b).foldl step s := by
      apply h.step.foldl_ne (i := i)
      · rw [getElem?_words, getElem?_words, if_pos hi, if_pos (hlen ▸ hi)]
        intro he
        exact hdiff (word_inj (hlenb i) (hle i) (Option.some.inj he))
      · rw [length_words, length_words, hlen]
      · intro j hj
        rw [getElem?_words, getElem?_words, hlen, block_eq_of_inside hin hj]
    rw [htail]
    exact fun he => hwords (h.state _ he)
  · -- the words agree, and the tails do not
    have hwords : words a = words b := by
      apply List.ext_getElem?
      intro j
      rw [getElem?_words, getElem?_words, hlen]
      split
      · next hj => rw [block_eq_of_inside hin (by omega)]
      · rfl
    have hlast : i = a.length / 4 := by
      by_contra hgt
      apply hdiff
      rw [List.eq_nil_of_length_eq_zero (by rw [length_block]; omega : (block a i).length = 0),
        List.eq_nil_of_length_eq_zero (by rw [length_block]; omega : (block b i).length = 0)]
    subst hlast
    have htail : tail a ≠ tail b := by
      rw [tail, tail, ← hlen]
      exact hdiff
    rw [hwords]
    refine fun he => htail (h.rest _ _ _ ?_ ?_ he)
    · rw [length_tail, length_tail, hlen]
    · rw [length_tail]
      omega

/-- **A difference of the seeds is a difference of the hashes.** -/
theorem inj (h : Absorbs step finish) (a : List UInt8) :
    Injective fun s => finish ((words a).foldl step s) (tail a) :=
  (h.state (tail a)).comp (h.step.foldl_inj (words a))

end Absorbs

/-! ## the two functions -/

theorem eq_of_empty (hlen : a.length = b.length) (h0 : a.length = 0) : a = b := by
  have ha : a = [] := List.eq_nil_of_length_eq_zero h0
  have hb : b = [] := List.eq_nil_of_length_eq_zero (hlen.symm.trans h0)
  rw [ha, hb]

theorem murmur_absorbs (n : UInt32) :
    Absorbs mixBlock fun h l => fmix32 (mixTail h l ^^^ n) where
  step := mixBlock_mixes
  state l := by
    refine fmix32_inj.comp ((xor_right_inj n).comp ?_)
    show Injective fun h => if l.length = 0 then h else h ^^^ scramble (word l)
    split
    · exact fun _ _ h => h
    · exact xor_right_inj _
  rest h l m hlen h4 he := by
    have hmix : mixTail h l = mixTail h m := xor_right_inj n (fmix32_inj he)
    unfold mixTail at hmix
    rw [← hlen] at hmix
    split at hmix
    · next h0 => exact eq_of_empty hlen h0
    · exact word_inj hlen h4 (scramble_inj (xor_left_inj h hmix))

theorem hash_absorbs : Absorbs addBlock finishTail := by
  have hlast : Injective fun x : UInt32 => (x * 0xc6a4a793) ^^^ ((x * 0xc6a4a793) >>> (24 : UInt32)) :=
    (xorShift_inj (k := 24) (by decide)).comp
      (mul_inj (m := 0xc6a4a793) (w := 0xd8198e9b) (by decide))
  refine ⟨addBlock_mixes, fun l => ?_, fun h l m hlen h4 he => ?_⟩
  · unfold finishTail
    split
    · exact fun _ _ h => h
    · exact hlast.comp (add_right_inj (word l))
  · unfold finishTail at he
    rw [← hlen] at he
    split at he
    · next h0 => exact eq_of_empty hlen h0
    · exact word_inj hlen h4 (add_left_inj h (hlast he))

theorem murmur_ne (h : OneBlock a b) (seed : UInt32) : murmur a seed ≠ murmur b seed := by
  unfold murmur
  rw [h.length]
  exact (murmur_absorbs _).ne h seed

theorem murmur_inj (a : List UInt8) : Injective (murmur a) := (murmur_absorbs _).inj a

theorem hash_ne (h : OneBlock a b) (seed : UInt32) : hash a seed ≠ hash b seed := by
  unfold hash
  rw [h.length]
  exact hash_absorbs.ne h _

theorem hash_inj (a : List UInt8) : Injective (hash a) :=
  (hash_absorbs.inj a).comp (xor_right_inj _)

/-- both calls return, with different values -/
def Distinct (x y : Option UInt32) : Prop := ∃ v w, x = some v ∧ y = some w ∧ v ≠ w

theorem murmur3_hash_eq (hn : a.length < 2 ^ 31) (seed : UInt32) :
    murmur3_hash (some a) (UInt32.ofNat a.length) seed = some (murmur a seed) := by
  have hm := murmur3_eq a [] seed
  rw [List.append_nil] at hm
  rw [murmur3_hash, UInt32.toNat_ofNat_of_lt' (Nat.lt_trans hn (by decide)), toInt_of_lt hn, hm]

theorem Hash_eq_hash (hn : a.length < 2 ^ 31) (seed : UInt32) :
    Hash a (UInt64.ofNat a.length) seed = some (hash a seed) := by
  have hm := Hash_eq (Nat.lt_trans hn (by decide)) [] seed
  rwa [List.append_nil] at hm

/-- **Strings that differ inside one block, and seeds that differ, have different hashes.** -/
theorem murmur3_hash_and_Hash_ne {n : ℕ} (hn : n < 2 ^ 31) :
    (∀ (a b : List UInt8) (seed : UInt32), a.length = n → OneBlock a b →
      Distinct (murmur3_hash (some a) (UInt32.ofNat n) seed)
          (murmur3_hash (some b) (UInt32.ofNat n) seed) ∧
        Distinct (Hash a (UInt64.ofNat n) seed) (Hash b (UInt64.ofNat n) seed)) ∧
    ∀ (a : List UInt8) (seed seed' : UInt32), a.length = n → seed ≠ seed' →
      Distinct (murmur3_hash (some a) (UInt32.ofNat n) seed)
          (murmur3_hash (some a) (UInt32.ofNat n) seed') ∧
        Distinct (Hash a (UInt64.ofNat n) seed) (Hash a (UInt64.ofNat n) seed') := by
  constructor
  · intro a b seed ha hab
    subst ha
    have hb : b.length < 2 ^ 31 := hab.length ▸ hn
    have hmb := murmur3_hash_eq hb seed
    have hhb := Hash_eq_hash hb seed
    rw [← hab.length] at hmb hhb
    exact ⟨⟨_, _, murmur3_hash_eq hn seed, hmb, murmur_ne hab seed⟩,
      ⟨_, _, Hash_eq_hash hn seed, hhb, hash_ne hab seed⟩⟩
  · intro a seed seed' ha hne
    subst ha
    exact ⟨⟨_, _, murmur3_hash_eq hn seed, murmur3_hash_eq hn seed', (murmur_inj a).ne hne⟩,
      ⟨_, _, Hash_eq_hash hn seed, Hash_eq_hash hn seed', (hash_inj a).ne hne⟩⟩

/-- two bytes behind the last block, the second with its top bit set -/
theorem murmur3_hash_and_Hash_ne_six : Distinct
    (murmur3_hash (some [1, 2, 3, 4, 5, 6]) 6 7) (murmur3_hash (some [1, 2, 3, 4, 5, 134]) 6 7) := by
  have hab : OneBlock [1, 2, 3, 4, 5, 6] [1, 2, 3, 4, 5, 134] := by
    refine ⟨rfl, by decide, 1, fun j hj => ?_⟩
    match j with
    | 0 | 1 | 2 | 3 | 4 => exact absurd rfl hj
    | 5 => rfl
    | j + 6 => exact absurd rfl hj
  exact ((murmur3_hash_and_Hash_ne (by decide : 6 < 2 ^ 31)).1 _ _ 7 rfl hab).1

end
end HashUtils
end CppCores
