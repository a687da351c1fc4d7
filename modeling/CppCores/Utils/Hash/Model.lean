import Mathlib.Algebra.Group.Nat.Defs
import Mathlib.Data.List.Basic
import Mathlib.Tactic.Common

/-!
# Hash: the hash functions of `utils/hash.cc`

A pointer is the list of the bytes that can be read behind it, or `none` if it is null.  A function
that reads in front of them or behind them ends in `none`.  `int` is `ℤ` with the conversion `toInt`,
and words are loaded with the lowest byte first.

The overloads of `murmur3_hash` for memory and for strings have one body, `murmur3`, and differ in
where they take the length from.
-/

namespace CppCores
namespace HashUtils

/-- the conversion to a 32-bit `int` -/
def toInt (n : ℕ) : ℤ := Int.bmod n 0x100000000

/-- the byte with the index `i`, which may be negative -/
def byteAt (mem : List UInt8) (i : ℤ) : Option UInt8 := if 0 ≤ i then mem[i.toNat]? else none

/-- the number of bytes in front of the first that is 0 -/
def strlen : List UInt8 → Option ℕ
  | [] => none
  | c :: mem => if c = 0 then some 0 else (strlen mem).map (· + 1)

structure StringView where
  data : Option (List UInt8)
  size : ℕ
  deriving DecidableEq, Repr

def DecodeFixed32 (mem : List UInt8) (ptr : ℕ) : Option UInt32 :=
  match mem[ptr]?, mem[ptr + 1]?, mem[ptr + 2]?, mem[ptr + 3]? with
  | some b0, some b1, some b2, some b3 =>
    some (b0.toUInt32 ||| b1.toUInt32 <<< (8 : UInt32) ||| b2.toUInt32 <<< (16 : UInt32) |||
      b3.toUInt32 <<< (24 : UInt32))
  | _, _, _, _ => none

/-! ## murmur3_hash -/

def ROTL (x r : UInt32) : UInt32 := x <<< r ||| x >>> (32 - r)

def fmix32 (h : UInt32) : UInt32 :=
  let h := h ^^^ (h >>> (16 : UInt32))
  let h := h * 0x85ebca6b
  let h := h ^^^ (h >>> (13 : UInt32))
  let h := h * 0xc2b2ae35
  h ^^^ (h >>> (16 : UInt32))

/-- `s *= seed1; s = ROTL(s, 15); s *= seed2` -/
def scramble (s : UInt32) : UInt32 := ROTL (s * 0xcc9e2d51) 15 * 0x1b873593

/-- the body of the loop over the blocks -/
def mixBlock (h s : UInt32) : UInt32 := ROTL (h ^^^ scramble s) 13 * 5 + 0xe6546b64

/-- the cases `k`, ..., 1 of the `switch`, each falling through to the next -/
def tailWord (str : List UInt8) (tail : ℤ) : ℕ → UInt32 → Option UInt32
  | 0, s => some s
  | k + 1, s =>
    (byteAt str (tail + k)).bind fun b =>
      tailWord str tail k (s ||| b.toUInt32 <<< UInt32.ofNat (8 * k))

def murmur3 (str : List UInt8) (len : ℤ) (seed : UInt32) : Option UInt32 :=
  let blk := len.tdiv 4
  let low := (len % 4).toNat
  ((List.range blk.toNat).foldlM
    (fun h i => (DecodeFixed32 str (4 * i)).map (mixBlock h)) seed).bind fun h =>
    let mixed :=
      if low = 0 then some h
      else (tailWord str (blk * 4) low 0).map fun s => h ^^^ scramble s
    mixed.map fun h => fmix32 (h ^^^ UInt32.ofInt len)

def murmur3_hash (data : Option (List UInt8)) (size seed : UInt32) : Option UInt32 :=
  match data with
  | none => some 0
  | some str => murmur3 str (toInt size.toNat) seed

/-- the overload for `const char *` -/
def murmur3_hash_str (str : Option (List UInt8)) (seed : UInt32) : Option UInt32 :=
  match str with
  | none => some 0
  | some str => (strlen str).bind fun len => murmur3 str (toInt len) seed

/-- the overload for `std::string_view` -/
def murmur3_hash_view (str : StringView) (seed : UInt32) : Option UInt32 :=
  murmur3_hash_str str.data seed

/-! ## Hash -/

/-- `h += w; h *= m; h ^= (h >> 16)` -/
def addBlock (h w : UInt32) : UInt32 :=
  let h := (h + w) * 0xc6a4a793
  h ^^^ (h >>> (16 : UInt32))

/-- the loop over four bytes at a time, with `left` bytes up to `limit`: `h`, `data` and what is left -/
def HashLoop (mem : List UInt8) : (left data : ℕ) → UInt32 → Option (UInt32 × ℕ × ℕ)
  | left + 4, data, h =>
    (DecodeFixed32 mem data).bind fun w => HashLoop mem left (data + 4) (addBlock h w)
  | left, data, h => some (h, data, left)

/-- the cases `k`, ..., 1 of the `switch` up to the last `+=` -/
def addTail (mem : List UInt8) (data : ℕ) : ℕ → UInt32 → Option UInt32
  | 0, h => some h
  | k + 1, h =>
    (mem[data + k]?).bind fun b => addTail mem data k (h + b.toUInt32 <<< UInt32.ofNat (8 * k))

def Hash (mem : List UInt8) (n : UInt64) (seed : UInt32) : Option UInt32 :=
  let h := (seed.toUInt64 ^^^ (n * 0xc6a4a793)).toUInt32
  (HashLoop mem n.toNat 0 h).bind fun x =>
    if x.2.2 = 0 then some x.1
    else
      (addTail mem x.2.1 x.2.2 x.1).map fun h =>
        let h := h * 0xc6a4a793
        h ^^^ (h >>> (24 : UInt32))

example : Hash [] 0 0xbc9f1d34 = some 0xbc9f1d34 := by decide

example : Hash [0xe2, 0x99, 0xa5] 3 0xbc9f1d34 = some 0x323c078f := by decide

example : Hash [0xe1, 0x80, 0xb9, 0x32] 4 0xbc9f1d34 = some 0xed21633a := by decide

end HashUtils
end CppCores
