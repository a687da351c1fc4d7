import CppCores.Lib.Bits
import CppCores.Utils.Hash.Model

/-!
# Hash: the words of a byte string

The byte string `b` in front of any other bytes is absorbed block by block: `block b i` are its bytes
from `4 * i` on, four of them or the last `b.length % 4`, and `word l` is the number that they are.

* `DecodeFixed32_eq`, `tailWord_eq`, `addTail_eq`   what the loads read;
* `murmur3_eq`     `murmur3` of `b` and its length is `murmur b`, whatever follows `b`;
* `Hash_eq`        `Hash` of `b` and its length is `hash b`.
-/

namespace CppCores
namespace HashUtils

/-- bytes as a word, the lowest first -/
def word (l : List UInt8) : UInt32 := UInt32.ofNat (ofLe l)

/-- the bytes of `b` from `4 * i` on, at most four -/
def block (b : List UInt8) (i : ℕ) : List UInt8 := (b.drop (4 * i)).take 4

/-- the words of the full blocks -/
def words (b : List UInt8) : List UInt32 := (List.range (b.length / 4)).map fun i => word (block b i)

/-- what is behind them -/
def tail (b : List UInt8) : List UInt8 := block b (b.length / 4)

/-- the last word is mixed in if there is one -/
def mixTail (h : UInt32) (l : List UInt8) : UInt32 :=
  if l.length = 0 then h else h ^^^ scramble (word l)

def murmur (b : List UInt8) (seed : UInt32) : UInt32 :=
  fmix32 (mixTail ((words b).foldl mixBlock seed) (tail b) ^^^ UInt32.ofNat b.length)

def finishTail (h : UInt32) (l : List UInt8) : UInt32 :=
  if l.length = 0 then h
  else
    let h := (h + word l) * 0xc6a4a793
    h ^^^ (h >>> (24 : UInt32))

def hash (b : List UInt8) (seed : UInt32) : UInt32 :=
  finishTail ((words b).foldl addBlock (seed ^^^ (UInt64.ofNat b.length * 0xc6a4a793).toUInt32))
    (tail b)

section
variable {b rest : List UInt8} {i k : ℕ}

theorem length_block : (block b i).length = min 4 (b.length - 4 * i) := by
  rw [block, List.length_take, List.length_drop]

theorem length_tail : (tail b).length = b.length % 4 := by
  rw [tail, length_block]
  omega

theorem block_append (h : 4 * i + 4 ≤ b.length) (rest : List UInt8) :
    block (b ++ rest) i = block b i := by
  rw [block, block, List.drop_append_of_le_length (by omega), List.take_append_of_le_length]
  rw [List.length_drop]
  omega

theorem tail_eq_drop : tail b = b.drop (4 * (b.length / 4)) := by
  apply List.take_of_length_le
  rw [List.length_drop]
  omega

theorem words_take (b rest : List UInt8) :
    ((List.range (b.length / 4)).map fun i => word (block (b ++ rest) i)) = words b := by
  apply List.map_congr_left
  intro i hi
  have hlt := List.mem_range.mp hi
  rw [block_append (by omega)]

theorem words_concat_short (h : b.length % 4 ≠ 3) (c : UInt8) :
    words (b ++ [c]) = words b ∧ tail (b ++ [c]) = tail b ++ [c] := by
  have hlen : (b ++ [c]).length = b.length + 1 := List.length_append
  have hdiv : (b ++ [c]).length / 4 = b.length / 4 := by omega
  constructor
  · rw [words, hdiv, words_take]
  · rw [tail_eq_drop, hdiv, tail_eq_drop, List.drop_append_of_le_length (Nat.mul_div_le ..)]

theorem words_concat_full (h : b.length % 4 = 3) (c : UInt8) :
    words (b ++ [c]) = words b ++ [word (tail b ++ [c])] ∧ tail (b ++ [c]) = [] := by
  have hlen : (b ++ [c]).length = b.length + 1 := List.length_append
  have hdiv : (b ++ [c]).length / 4 = b.length / 4 + 1 := by omega
  have hlast : block (b ++ [c]) (b.length / 4) = tail b ++ [c] := by
    rw [block, List.drop_append_of_le_length (Nat.mul_div_le ..), ← tail_eq_drop]
    apply List.take_of_length_le
    rw [List.length_append, length_tail, h]
    exact Nat.le_refl 4
  constructor
  · rw [words, hdiv, List.range_succ, List.map_append, words_take, ← hlast]
    rfl
  · apply List.eq_nil_of_length_eq_zero
    rw [length_tail]
    omega

theorem toNat_word {l : List UInt8} (h : l.length ≤ 4) : (word l).toNat = ofLe l := by
  have hlt := ofLe_lt l
  have hpow : 256 ^ l.length ≤ 256 ^ 4 := Nat.pow_le_pow_right (by decide) h
  exact UInt32.toNat_ofNat_of_lt' (Nat.lt_of_lt_of_le hlt hpow)

theorem word_inj {l m : List UInt8} (hlen : l.length = m.length) (h4 : l.length ≤ 4)
    (h : word l = word m) : l = m := by
  apply ofLe_inj hlen
  rw [← toNat_word h4, ← toNat_word (hlen ▸ h4), h]

/-! ## loads -/

theorem toNat_byte_shift (c : UInt8) (hk : k < 4) :
    (c.toUInt32 <<< UInt32.ofNat (8 * k)).toNat = 256 ^ k * c.toNat := by
  have hc := c.toNat_lt
  have hshift : (UInt32.ofNat (8 * k)).toNat % 32 = 8 * k := by
    rw [UInt32.toNat_ofNat']
    omega
  have hfit : c.toNat * 2 ^ (8 * k) < 2 ^ 32 := by
    have hpow : 2 ^ (8 * k) ≤ 2 ^ 24 := Nat.pow_le_pow_right (by decide) (by omega)
    calc c.toNat * 2 ^ (8 * k) ≤ 255 * 2 ^ 24 := Nat.mul_le_mul (by omega) hpow
      _ < 2 ^ 32 := by decide
  rw [UInt32.toNat_shiftLeft, UInt8.toNat_toUInt32, hshift, Nat.shiftLeft_eq, Nat.mod_eq_of_lt hfit,
    Nat.mul_comm, Nat.pow_mul]

theorem ofLe_concat (l : List UInt8) (c : UInt8) :
    ofLe (l ++ [c]) = ofLe l + 256 ^ l.length * c.toNat := by
  rw [ofLe_append, ofLe_cons]
  rfl

theorem word_or_byte {l : List UInt8} (c : UInt8) (h : l.length < 4) :
    word l ||| c.toUInt32 <<< UInt32.ofNat (8 * l.length) = word (l ++ [c]) := by
  have hlt := ofLe_lt l
  have hlen : (l ++ [c]).length ≤ 4 := by
    rw [List.length_append]
    exact h
  have hpow : 256 ^ l.length = 2 ^ (8 * l.length) := by rw [Nat.pow_mul]
  apply UInt32.toNat_inj.mp
  rw [UInt32.toNat_or, toNat_byte_shift c h, toNat_word (Nat.le_of_lt h), toNat_word hlen,
    ofLe_concat, Nat.or_comm]
  rw [hpow] at hlt ⊢
  rw [← Nat.two_pow_add_eq_or_of_lt hlt, Nat.add_comm]

theorem word_add_byte {l : List UInt8} (c : UInt8) (h : l.length < 4) :
    word l + c.toUInt32 <<< UInt32.ofNat (8 * l.length) = word (l ++ [c]) := by
  have hlen : (l ++ [c]).length ≤ 4 := by
    rw [List.length_append]
    exact h
  apply UInt32.toNat_inj.mp
  rw [UInt32.toNat_add, toNat_byte_shift c h, toNat_word (Nat.le_of_lt h), ← ofLe_concat,
    ← toNat_word hlen]
  exact Nat.mod_eq_of_lt (word (l ++ [c])).toNat_lt

theorem word_byte (c : UInt8) : word [c] = c.toUInt32 := by
  apply UInt32.toNat_inj.mp
  rw [toNat_word (by simp), UInt8.toNat_toUInt32]
  rfl

theorem DecodeFixed32_eq {ptr : ℕ} (h : ptr + 4 ≤ b.length) :
    DecodeFixed32 b ptr = some (word ((b.drop ptr).take 4)) := by
  obtain ⟨b0, b1, b2, b3, l, hl⟩ : ∃ b0 b1 b2 b3 l, b.drop ptr = b0 :: b1 :: b2 :: b3 :: l := by
    match hd : b.drop ptr, List.length_drop (i := ptr) (l := b) with
    | b0 :: b1 :: b2 :: b3 :: l, _ => exact ⟨b0, b1, b2, b3, l, rfl⟩
    | [], hlen | [_], hlen | [_, _], hlen | [_, _, _], hlen =>
      simp only [List.length_cons, List.length_nil] at hlen
      omega
  have hget : ∀ j, b[ptr + j]? = (b0 :: b1 :: b2 :: b3 :: l)[j]? := fun j => by
    rw [← hl, List.getElem?_drop]
  have h0 : b[ptr]? = some b0 := hget 0
  have h1 : b[ptr + 1]? = some b1 := hget 1
  have h2 : b[ptr + 2]? = some b2 := hget 2
  have h3 : b[ptr + 3]? = some b3 := hget 3
  have e1 := word_or_byte (l := [b0]) b1 (by simp)
  have e2 := word_or_byte (l := [b0, b1]) b2 (by simp)
  have e3 := word_or_byte (l := [b0, b1, b2]) b3 (by simp)
  rw [DecodeFixed32, h0, h1, h2, h3, hl]
  show some (b0.toUInt32 ||| b1.toUInt32 <<< (8 : UInt32) ||| b2.toUInt32 <<< (16 : UInt32) |||
    b3.toUInt32 <<< (24 : UInt32)) = some (word [b0, b1, b2, b3])
  rw [← word_byte b0]
  exact congrArg some ((congrArg (fun x => x ||| _ ||| _) e1).trans
    ((congrArg (fun x => x ||| _) e2).trans e3))

theorem load_block (h : 4 * i + 4 ≤ b.length) :
    DecodeFixed32 (b ++ rest) (4 * i) = some (word (block b i)) := by
  rw [DecodeFixed32_eq (by rw [List.length_append]; omega), ← block_append h rest, block]

/-- the bytes `l` are where the `switch` reads them -/
def Holds (mem : List UInt8) (off : ℕ) (l : List UInt8) : Prop :=
  ∀ j < l.length, mem[off + j]? = l[j]?

theorem Holds.init {mem l : List UInt8} {c : UInt8} {off : ℕ} (h : Holds mem off (l ++ [c])) :
    Holds mem off l ∧ mem[off + l.length]? = some c := by
  have hlen : (l ++ [c]).length = l.length + 1 := List.length_append
  constructor
  · intro j hj
    rw [h j (by omega), List.getElem?_append_left hj]
  · rw [h l.length (by omega), List.getElem?_concat_length]

theorem tailWord_eq {mem l : List UInt8} {off : ℕ} (hl : Holds mem off l) (h4 : l.length ≤ 4)
    (s : UInt32) : tailWord mem off l.length s = some (s ||| word l) := by
  induction l using List.reverseRecOn generalizing s with
  | nil =>
    show some s = some (s ||| 0)
    rw [UInt32.or_zero]
  | append_singleton l c ih =>
    have hlen : (l ++ [c]).length = l.length + 1 := List.length_append
    obtain ⟨hinit, hlast⟩ := hl.init
    have hbyte : byteAt mem ((off : ℤ) + (l.length : ℕ)) = some c := by
      rw [byteAt, if_pos (by omega), ← hlast]
      rfl
    rw [hlen, tailWord, hbyte, Option.bind_some, ih hinit (by omega), UInt32.or_assoc,
      UInt32.or_comm _ (word l), word_or_byte c (by omega)]

theorem addTail_eq {mem l : List UInt8} {off : ℕ} (hl : Holds mem off l) (h4 : l.length ≤ 4)
    (s : UInt32) : addTail mem off l.length s = some (s + word l) := by
  induction l using List.reverseRecOn generalizing s with
  | nil =>
    show some s = some (s + 0)
    rw [UInt32.add_zero]
  | append_singleton l c ih =>
    have hlen : (l ++ [c]).length = l.length + 1 := List.length_append
    obtain ⟨hinit, hlast⟩ := hl.init
    rw [hlen, addTail, hlast, Option.bind_some, ih hinit (by omega), UInt32.add_assoc,
      UInt32.add_comm _ (word l), word_add_byte c (by omega)]

theorem holds_tail (b rest : List UInt8) : Holds (b ++ rest) (4 * (b.length / 4)) (tail b) := by
  intro j hj
  rw [length_tail] at hj
  rw [List.getElem?_append_left (by omega), tail_eq_drop, List.getElem?_drop]

/-! ## the two functions -/

theorem toInt_of_lt {n : ℕ} (hn : n < 2 ^ 31) : toInt n = n := by
  unfold toInt
  apply Int.bmod_eq_of_le <;> omega

theorem foldlM_blocks {f : UInt32 → UInt32 → UInt32} {k : ℕ} (hk : 4 * k ≤ b.length)
    (rest : List UInt8) (seed : UInt32) :
    (List.range k).foldlM (fun h i => (DecodeFixed32 (b ++ rest) (4 * i)).map (f h)) seed =
      some (((List.range k).map fun i => word (block b i)).foldl f seed) := by
  induction k with
  | zero => rfl
  | succ k ih =>
    rw [List.range_succ, List.foldlM_append, ih (by omega), List.map_append, List.foldl_append]
    show ((DecodeFixed32 (b ++ rest) (4 * k)).map (f _)).bind some = _
    rw [load_block (by omega)]
    rfl

theorem ofInt_natCast (n : ℕ) : UInt32.ofInt (n : ℤ) = UInt32.ofNat n := by
  apply UInt32.toNat_inj.mp
  rw [UInt32.ofInt, UInt32.toNat_ofNat', UInt32.toNat_ofNat']
  omega

/-- **`murmur3` hashes the bytes and nothing behind them.** -/
theorem murmur3_eq (b rest : List UInt8) (seed : UInt32) :
    murmur3 (b ++ rest) b.length seed = some (murmur b seed) := by
  have hblk : (b.length : ℤ).tdiv 4 = (b.length / 4 : ℕ) := rfl
  have hlow : ((b.length : ℤ) % 4).toNat = (tail b).length := by
    rw [length_tail]
    omega
  have hoff : ((b.length / 4 : ℕ) : ℤ) * 4 = (4 * (b.length / 4) : ℕ) := by omega
  have hlen : (tail b).length ≤ 4 := by
    rw [length_tail]
    omega
  have htail := tailWord_eq (holds_tail b rest) hlen 0
  have hblocks := foldlM_blocks (f := mixBlock) (Nat.mul_div_le b.length 4) rest seed
  rw [UInt32.zero_or] at htail
  rw [murmur3, hblk, hlow, hoff, Int.toNat_natCast, hblocks, Option.bind_some, htail, ofInt_natCast,
    murmur, mixTail]
  split <;> rfl

theorem HashLoop_eq {r q i : ℕ} (hr : r < 4) (hb : 4 * i + (4 * q + r) = b.length)
    (rest : List UInt8) (h : UInt32) :
    HashLoop (b ++ rest) (4 * q + r) (4 * i) h =
      some (((List.range' i q).map fun j => word (block b j)).foldl addBlock h, 4 * (i + q), r) := by
  induction q generalizing i h with
  | zero =>
    rw [Nat.mul_zero, Nat.zero_add]
    obtain rfl | rfl | rfl | rfl : r = 0 ∨ r = 1 ∨ r = 2 ∨ r = 3 := by omega
    all_goals rfl
  | succ q ih =>
    have hleft : 4 * (q + 1) + r = (4 * q + r) + 4 := by omega
    have hnext : 4 * i + 4 = 4 * (i + 1) := by omega
    rw [hleft, HashLoop, load_block (by omega), Option.bind_some, hnext, ih (by omega)]
    rw [List.range'_succ, List.map_cons, List.foldl_cons, Nat.add_right_comm i 1 q]
    rfl

/-- **`Hash` hashes the bytes and nothing behind them.** -/
theorem Hash_eq (hn : b.length < 2 ^ 64) (rest : List UInt8) (seed : UInt32) :
    Hash (b ++ rest) (UInt64.ofNat b.length) seed = some (hash b seed) := by
  have hlen : (tail b).length = b.length % 4 := length_tail
  have hseed : (seed.toUInt64 ^^^ (UInt64.ofNat b.length * 0xc6a4a793)).toUInt32 =
      seed ^^^ (UInt64.ofNat b.length * 0xc6a4a793).toUInt32 := by
    rw [UInt64.toUInt32_xor, UInt32.toUInt32_toUInt64]
  have hsplit : 4 * 0 + (4 * (b.length / 4) + b.length % 4) = b.length := by
    rw [Nat.mul_zero, Nat.zero_add, Nat.div_add_mod]
  have hloop := HashLoop_eq (Nat.mod_lt b.length (by decide)) hsplit rest
    (seed ^^^ (UInt64.ofNat b.length * 0xc6a4a793).toUInt32)
  have htail := addTail_eq (holds_tail b rest) (by omega)
    ((words b).foldl addBlock (seed ^^^ (UInt64.ofNat b.length * 0xc6a4a793).toUInt32))
  rw [Nat.div_add_mod, Nat.mul_zero, Nat.zero_add, ← List.range_eq_range', ← words] at hloop
  rw [Hash, hseed, UInt64.toNat_ofNat_of_lt' hn, hloop, Option.bind_some, hash, finishTail]
  rw [hlen] at htail ⊢
  show (if b.length % 4 = 0 then _ else (addTail _ _ _ _).map _) = _
  rw [htail]
  split <;> rfl

end
end HashUtils
end CppCores
