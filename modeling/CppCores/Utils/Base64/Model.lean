import CppCores.Lib.Bits
import CppCores.Lib.Blocks
import Mathlib.Logic.Function.Basic

/-!
# Base64: the codecs of `utils/encoding.cc` and of `utils/hash.cc`

A string is the list of its bytes.  `Base64Encoding` and `Base64Decoding` of `encoding.cc` collect a
group in `char_array_3` or `char_array_4` symbol by symbol; `base64encode` and `base64decode` of
`hash.cc` collect it in the number `packed`.  The arrays are not initialised: what they hold at the
start is an argument (`junk3`, `junk4`).  A read behind the input or behind the alphabet, and a write
behind the pre-sized result, is `none`.  `packed` stays below `2 ^ 24` and is a natural number, and
so are the sizes of the strings in `hash.cc` (`src.size() * 3` is far below `2 ^ 64` for a string
that fits the memory).
-/

namespace CppCores
namespace Base64

def base64_chars : List UInt8 :=
  ['A', 'B', 'C', 'D', 'E', 'F', 'G', 'H', 'I', 'J', 'K', 'L', 'M', 'N', 'O', 'P',
    'Q', 'R', 'S', 'T', 'U', 'V', 'W', 'X', 'Y', 'Z', 'a', 'b', 'c', 'd', 'e', 'f',
    'g', 'h', 'i', 'j', 'k', 'l', 'm', 'n', 'o', 'p', 'q', 'r', 's', 't', 'u', 'v',
    'w', 'x', 'y', 'z', '0', '1', '2', '3', '4', '5', '6', '7', '8', '9', '+', '/'].map Char.toUInt8

def eqSign : UInt8 := '='.toUInt8

/-- between two characters -/
def inRange (lo hi : Char) (c : UInt8) : Bool := lo.toUInt8 ≤ c && c ≤ hi.toUInt8

def isalnum (c : UInt8) : Bool := inRange 'A' 'Z' c || inRange 'a' 'z' c || inRange '0' '9' c

def is_base64 (c : UInt8) : Bool := isalnum c || c == '+'.toUInt8 || c == '/'.toUInt8

/-! ## encoding.cc, the encoder -/

/-- the variables of `Base64Encoding` -/
structure Encoding where
  i : ℕ
  char_array_3 : ℕ → UInt8
  char_array_4 : ℕ → UInt8
  ret : List UInt8

namespace Encoding

/-- `base64_chars[char_array_4[j]]` for the first `n` places -/
def symbols (n : ℕ) (char_array_4 : ℕ → UInt8) : Option (List UInt8) :=
  (List.range n).mapM fun j => base64_chars[(char_array_4 j).toNat]?

/-- the first three places of `char_array_4` -/
def split (a b : ℕ → UInt8) : ℕ → UInt8 :=
  Function.update (Function.update (Function.update b 0 ((a 0 &&& 0xfc) >>> 2))
    1 (((a 0 &&& 0x03) <<< 4) + ((a 1 &&& 0xf0) >>> 4)))
    2 (((a 1 &&& 0x0f) <<< 2) + ((a 2 &&& 0xc0) >>> 6))

/-- one turn of the loop -/
def push (s : Encoding) (byte : UInt8) : Option Encoding :=
  let a := Function.update s.char_array_3 s.i byte
  if s.i + 1 = 3 then
    let b := Function.update (split a s.char_array_4) 3 (a 2 &&& 0x3f)
    (symbols 4 b).map fun out =>
      { i := 0, char_array_3 := a, char_array_4 := b, ret := s.ret ++ out }
  else
    some { s with i := s.i + 1, char_array_3 := a }

/-- `while (in_len--)` -/
def loop : ℕ → List UInt8 → Encoding → Option Encoding
  | 0, _, s => some s
  | _ + 1, [], _ => none
  | in_len + 1, byte :: bytes, s => (s.push byte).bind (loop in_len bytes)

/-- the last group -/
def finish (s : Encoding) : Option (List UInt8) :=
  if s.i = 0 then some s.ret
  else
    let a := fun j => if s.i ≤ j ∧ j < 3 then 0 else s.char_array_3 j
    (symbols (s.i + 1) (split a s.char_array_4)).map fun out =>
      s.ret ++ out ++ List.replicate (3 - s.i) eqSign

end Encoding

def Base64Encoding (junk3 junk4 : ℕ → UInt8) (bytes_to_encode : List UInt8) (in_len : UInt32) :
    Option (List UInt8) :=
  (Encoding.loop in_len.toNat bytes_to_encode
    { i := 0, char_array_3 := junk3, char_array_4 := junk4, ret := [] }).bind Encoding.finish

/-! ## encoding.cc, the decoder -/

/-- the variables of `Base64Decoding` -/
structure Decoding where
  i : ℕ
  char_array_4 : ℕ → UInt8
  char_array_3 : ℕ → UInt8
  ret : List UInt8

namespace Decoding

/-- `base64_chars.find(c)` in an `unsigned char`, where `npos` is 255 -/
def find (c : UInt8) : UInt8 :=
  match base64_chars.idxOf? c with
  | some k => UInt8.ofNat k
  | none => 255

/-- `find` on the first `n` places -/
def findAll (n : ℕ) (a : ℕ → UInt8) : ℕ → UInt8 := fun j => if j < n then find (a j) else a j

def join (a b : ℕ → UInt8) : ℕ → UInt8 :=
  Function.update (Function.update (Function.update b 0 ((a 0 <<< 2) + ((a 1 &&& 0x30) >>> 4)))
    1 (((a 1 &&& 0xf) <<< 4) + ((a 2 &&& 0x3c) >>> 2)))
    2 (((a 2 &&& 0x3) <<< 6) + a 3)

/-- one turn of the loop -/
def push (s : Decoding) (c : UInt8) : Decoding :=
  let a := Function.update s.char_array_4 s.i c
  if s.i + 1 = 4 then
    let a := findAll 4 a
    let b := join a s.char_array_3
    { i := 0, char_array_4 := a, char_array_3 := b, ret := s.ret ++ (List.range 3).map b }
  else
    { s with i := s.i + 1, char_array_4 := a }

/-- `while (in_len-- && ...)`; behind the last character stands a NUL -/
def loop : Int32 → List UInt8 → Decoding → Decoding
  | _, [], s => s
  | in_len, c :: cs, s =>
    if in_len ≠ 0 ∧ c ≠ eqSign ∧ is_base64 c = true then loop (in_len - 1) cs (s.push c) else s

/-- the last group -/
def finish (s : Decoding) : List UInt8 :=
  if s.i = 0 then s.ret
  else s.ret ++ (List.range (s.i - 1)).map (join (findAll s.i s.char_array_4) s.char_array_3)

end Decoding

def Base64Decoding (junk4 junk3 : ℕ → UInt8) (encoded_string : List UInt8) : List UInt8 :=
  (Decoding.loop (Int32.ofNat encoded_string.length) encoded_string
    { i := 0, char_array_4 := junk4, char_array_3 := junk3, ret := [] }).finish

/-! ## hash.cc, the decoder -/

/-- the pre-sized result and how far `writeBuf` is in it -/
structure Out where
  result : List UInt8
  writeBuf : ℕ
  deriving DecidableEq, Repr

/-- `*writeBuf++ = (char) (v & 0xff)` -/
def Out.put (o : Out) (v : ℕ) : Option Out :=
  (writeAt o.result o.writeBuf (UInt8.ofNat (v &&& 0xff))).map fun result =>
    { result, writeBuf := o.writeBuf + 1 }

/-- how the loop over the four places of a group ends -/
inductive Group where
  /-- `return ""` -/
  | bad
  | group (i padding packed : ℕ) (ptr : List UInt8)
  deriving DecidableEq, Repr

/-- the value of a symbol, if it is one -/
def symbolVal (c : UInt8) : Option ℕ :=
  if inRange 'A' 'Z' c then some (c - 'A'.toUInt8).toNat
  else if inRange 'a' 'z' c then some ((c - 'a'.toUInt8).toNat + 26)
  else if inRange '0' '9' c then some ((c - '0'.toUInt8).toNat + 52)
  else if c = '+'.toUInt8 then some 62
  else if c = '/'.toUInt8 then some 63
  else none

/-- `for (; i < 4 && ptr < end; ++i, ++ptr)` -/
def readGroup : ℕ → ℕ → ℕ → List UInt8 → Group
  | i, padding, packed, [] => .group i padding packed []
  | i, padding, packed, c :: ptr =>
    if i < 4 then
      if c = eqSign then readGroup (i + 1) (padding + 1) (packed <<< 6) ptr
      else if padding > 0 then .bad
      else
        match symbolVal c with
        | none => .bad
        | some val => readGroup (i + 1) padding ((packed <<< 6) ||| val) ptr
    else .group i padding packed (c :: ptr)

theorem readGroup_ptr {i padding packed i' padding' packed' : ℕ} {s ptr : List UInt8}
    (h : readGroup i padding packed s = .group i' padding' packed' ptr) :
    ptr.length + i' = s.length + i := by
  fun_induction readGroup i padding packed s with
  | case1 => cases h; rfl
  | case2 i padding packed ptr _ ih => rw [ih h, List.length_cons]; omega
  | case3 => cases h
  | case4 => cases h
  | case5 i padding packed c ptr _ _ _ val _ ih => rw [ih h, List.length_cons]; omega
  | case6 => cases h; rfl

/-- how `base64decode` ends, with what was written up to then -/
inductive Exit where
  /-- `return ""` -/
  | empty (o : Out)
  | done (o : Out)
  deriving DecidableEq, Repr

def Exit.out : Exit → Out
  | .empty o => o
  | .done o => o

/-- the bytes of one group -/
def writeGroup (o : Out) (padding packed : ℕ) : Option Out :=
  (o.put (packed >>> 16)).bind fun o =>
  (if padding ≠ 2 then o.put (packed >>> 8) else some o).bind fun o =>
  if padding = 0 then o.put packed else some o

/-- `while (ptr < end)` -/
def decodeLoop (o : Out) (s : List UInt8) : Option Exit :=
  if s = [] then some (.done o)
  else
    match _h : readGroup 0 0 0 s with
    | .bad => some (.empty o)
    | .group i padding packed ptr =>
      if i ≠ 4 then some (.empty o)
      else if padding > 0 ∧ ptr ≠ [] then some (.empty o)
      else if padding > 2 then some (.empty o)
      else (writeGroup o padding packed).bind fun o => decodeLoop o ptr
termination_by s.length
decreasing_by
  have := readGroup_ptr _h
  omega

/-- the run of `base64decode` on the buffer `result.resize(src.size() * 3 / 4)` -/
def base64decodeRun (src : List UInt8) : Option Exit :=
  decodeLoop { result := List.replicate (src.length * 3 / 4) 0, writeBuf := 0 } src

/-- what `base64decode` returns -/
def Exit.ret : Exit → List UInt8
  | .empty _ => []
  | .done o => o.result.take o.writeBuf

def base64decode (src : List UInt8) : Option (List UInt8) := (base64decodeRun src).map Exit.ret

/-! ## hash.cc, the encoder -/

/-- `for (; i < 3 && ptr < end; ++i, ++ptr)` -/
def packBytes : ℕ → ℕ → List UInt8 → ℕ × ℕ × List UInt8
  | i, packed, [] => (i, packed, [])
  | i, packed, c :: ptr =>
    if i < 3 then packBytes (i + 1) ((packed <<< 8) ||| c.toNat) ptr else (i, packed, c :: ptr)

theorem packBytes_ptr (i packed : ℕ) (s : List UInt8) :
    (packBytes i packed s).2.2.length + (packBytes i packed s).1 = s.length + i := by
  fun_induction packBytes i packed s with
  | case1 => rfl
  | case2 i packed c ptr _ ih => rw [ih, List.length_cons]; omega
  | case3 => rfl

theorem packBytes_le (i packed : ℕ) (s : List UInt8) : i ≤ (packBytes i packed s).1 := by
  fun_induction packBytes i packed s with
  | case1 => exact Nat.le_refl _
  | case2 i packed c ptr _ ih => exact Nat.le_of_succ_le ih
  | case3 => exact Nat.le_refl _

/-- `for (; i < 3; ++i) packed <<= 8` -/
def shiftUp (i packed : ℕ) : ℕ := if i < 3 then shiftUp (i + 1) (packed <<< 8) else packed
termination_by 3 - i

/-- the table in `base64encode` -/
def base64 : List UInt8 := base64_chars

/-- the symbols of one group, without the padding -/
def groupSymbols (padding packed : ℕ) : Option (List UInt8) :=
  (base64[packed >>> 18]?).bind fun a =>
  (base64[(packed >>> 12) &&& 0x3f]?).bind fun b =>
  (if padding ≠ 2 then (base64[(packed >>> 6) &&& 0x3f]?).map fun c => [c] else some []).bind
    fun c =>
  (if padding = 0 then (base64[packed &&& 0x3f]?).map fun d => [d] else some []).map fun d =>
    [a, b] ++ c ++ d

/-- `while (ptr < end)` -/
def encodeLoop (ret ptr : List UInt8) : Option (List UInt8) :=
  if ptr = [] then some ret
  else
    match _h : packBytes 0 0 ptr with
    | (i, packed, rest) =>
      let padding := if i = 2 then 1 else if i = 1 then 2 else 0
      (groupSymbols padding (shiftUp i packed)).bind fun out =>
        encodeLoop (ret ++ out ++ List.replicate padding eqSign) rest
termination_by ptr.length
decreasing_by
  rename_i hne
  obtain ⟨c, s, rfl⟩ := List.exists_cons_of_ne_nil hne
  have h1 := packBytes_ptr 0 0 (c :: s)
  have h2 := packBytes_le 1 ((0 <<< 8) ||| c.toNat) s
  rw [show packBytes 1 ((0 <<< 8) ||| c.toNat) s = packBytes 0 0 (c :: s) from rfl, _h] at h2
  rw [_h] at h1
  simp only at h1 h2
  omega

def base64encode (data : List UInt8) : Option (List UInt8) := encodeLoop [] data

end Base64
end CppCores
