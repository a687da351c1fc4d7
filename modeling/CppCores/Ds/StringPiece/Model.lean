import Mathlib.Algebra.Group.Nat.Defs
import CppCores.Lib.Blocks
import CppCores.Lib.Search

/-!
# StringPiece: the free functions of `ds/string_piece.cc`

A piece is the bytes that it refers to.  Positions are `size_t` with its wrapping arithmetic, and `npos`
is the greatest one.

* `stdSearch`, `stdFind`, `stdFindEnd`      the algorithms of the standard library, which return the end
                                            of the range if nothing is found;
* `find`, `rfind`, `findChar`, `rfindChar`, `findFirstNotOf`, `findLastNotOf`   searching;
* `substr`, `copy`                          a part of a piece, which is nothing if a byte that is referred
                                            to lies outside of the piece.
-/

namespace CppCores

/-- `BasicStringPiece<std::string>`; the difference of two pointers into it is a `ptrdiff_t` -/
structure StringPiece where
  bytes : List UInt8
  length_lt : bytes.length < 2 ^ 63
  deriving DecidableEq

namespace StringPiece

/-- `size_type(-1)` -/
def npos : UInt64 := UInt64.ofInt (-1)

def size (self : StringPiece) : UInt64 := UInt64.ofNat self.bytes.length

/-- the piece of one character -/
def single (c : UInt8) : StringPiece := ⟨[c], Nat.one_lt_two_pow (by decide)⟩

/-! ## the standard library -/

/-- `std::search` from position `first` on -/
def stdSearch (data : List UInt8) (first : ℕ) (what : List UInt8) : ℕ :=
  (findFrom what data first).getD data.length

/-- `std::find` from position `first` on -/
def stdFind (data : List UInt8) (first : ℕ) (c : UInt8) : ℕ :=
  (findElem (· == c) data first).getD data.length

/-- `std::find_end` in front of position `last` -/
def stdFindEnd (data : List UInt8) (last : ℕ) (what : List UInt8) : ℕ :=
  (findLast what (data.take last)).getD last

/-! ## searching -/

/-- `findT` for a piece -/
def find (self s : StringPiece) (pos : UInt64) : UInt64 :=
  if pos > self.size then npos
  else
    let result := stdSearch self.bytes pos.toNat s.bytes
    let xpos := UInt64.ofNat result
    if xpos + s.size ≤ self.size then xpos else npos

/-- `findT` for a character -/
def findChar (self : StringPiece) (c : UInt8) (pos : UInt64) : UInt64 :=
  if pos ≥ self.size then npos
  else
    let result := stdFind self.bytes pos.toNat c
    if result ≠ self.bytes.length then UInt64.ofNat result else npos

/-- `rfindT` for a piece -/
def rfind (self s : StringPiece) (pos : UInt64) : UInt64 :=
  if self.size < s.size then npos
  else if s.size = 0 then min self.size pos
  else
    let last := (min (self.size - s.size) pos + s.size).toNat
    let result := stdFindEnd self.bytes last s.bytes
    if result ≠ last then UInt64.ofNat result else npos

/-- `for (size_t i = ...;; --i)`: the loop is left behind `i == 0` -/
def downFrom (p : UInt8 → Bool) (data : List UInt8) : ℕ → UInt64
  | 0 => if data[0]?.any p then 0 else npos
  | i + 1 => if data[i + 1]?.any p then UInt64.ofNat (i + 1) else downFrom p data i

/-- `rfindT` for a character -/
def rfindChar (self : StringPiece) (c : UInt8) (pos : UInt64) : UInt64 :=
  if self.size = 0 then npos
  else downFrom (· == c) self.bytes (min pos (self.size - 1)).toNat

/-- `for (; pos < self.size(); ++pos)` -/
def upFrom (p : UInt8 → Bool) (data : List UInt8) (pos : ℕ) : UInt64 :=
  if h : pos < data.length then
    if p data[pos] then UInt64.ofNat pos else upFrom p data (pos + 1)
  else npos
termination_by data.length - pos

/-- `find_first_not_ofT` -/
def findFirstNotOf (self : StringPiece) (c : UInt8) (pos : UInt64) : UInt64 :=
  if self.size = 0 then npos else upFrom (· != c) self.bytes pos.toNat

/-- `find_last_not_ofT` -/
def findLastNotOf (self : StringPiece) (c : UInt8) (pos : UInt64) : UInt64 :=
  if self.size = 0 then npos
  else downFrom (· != c) self.bytes (min pos (self.size - 1)).toNat

/-! ## parts -/

/-- the `n` bytes from `data() + pos` on, if none of them is outside -/
def part (self : StringPiece) (pos n : UInt64) : Option StringPiece :=
  if n = 0 ∨ pos.toNat + n.toNat ≤ self.bytes.length then
    some ⟨(self.bytes.drop pos.toNat).take n.toNat, by
      have hlen := self.length_lt
      rw [List.length_take, List.length_drop]
      omega⟩
  else none

/-- `memcpy` to the start of `buf`, which must be long enough -/
def memcpy (buf bytes : List UInt8) : Option (List UInt8) :=
  if bytes.length ≤ buf.length then some (patch buf 0 bytes) else none

/-- `copyT`: what is in `buf` then, and the result -/
def copy (self : StringPiece) (buf : List UInt8) (n pos : UInt64) : Option (List UInt8 × UInt64) :=
  let ret := min (self.size - pos) n
  (self.part pos ret).bind fun src => (memcpy buf src.bytes).map fun buf => (buf, ret)

/-- `substrT` -/
def substr (self : StringPiece) (pos n : UInt64) : Option StringPiece :=
  let pos := if pos > self.size then self.size else pos
  let n := if n > self.size - pos then self.size - pos else n
  self.part pos n

theorem size_toNat (self : StringPiece) : self.size.toNat = self.bytes.length := by
  have hlen := self.length_lt
  exact UInt64.toNat_ofNat_of_lt' (by
    show self.bytes.length < 2 ^ 64
    omega)

theorem toNat_min (a b : UInt64) : (min a b).toNat = min a.toNat b.toNat := by
  rw [UInt64.min_def]
  split
  · rename_i h
    exact (Nat.min_eq_left (UInt64.le_iff_toNat_le.mp h)).symm
  · rename_i h
    have hlt := UInt64.lt_iff_toNat_lt.mp (UInt64.not_le.mp h)
    exact (Nat.min_eq_right (Nat.le_of_lt hlt)).symm

end StringPiece
end CppCores
