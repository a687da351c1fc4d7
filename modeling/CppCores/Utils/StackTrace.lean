import Mathlib.Algebra.Group.Nat.Defs
import Mathlib.Data.Int.Notation
import CppCores.Lib.Loop
import CppCores.Lib.Numerals
import CppCores.Lib.Regions
import CppCores.Lib.Reversal

/-!
# itoa_r: the number to text conversion of `utils/stack_trace.cc`

The memory is a byte for each address, and the addresses that were written.  A loop gets the number of
turns that it may make: `none` is a call that is not over by then.

* `convert_ends`, `convert_ends_full`   the digits, the last one first, until there are enough of them
                                        or no room is left;
* `reverse_ends`                        the loop that puts them in order;
* `convert_spec`                        both, behind a sign that is in the buffer;
* `itoa_r_spec`                         **what `itoa_r` prints, and where it writes**.
-/

namespace CppCores
namespace StackTrace
open Numerals Reversal

/-! ## memory -/

structure Memory where
  byte : ℕ → UInt8
  /-- the addresses written so far -/
  written : List ℕ

namespace Memory

def write (m : Memory) (p : ℕ) (c : UInt8) : Memory where
  byte := Function.update m.byte p c
  written := p :: m.written

@[simp] theorem write_self (m : Memory) (p : ℕ) (c : UInt8) : (m.write p c).byte p = c :=
  Function.update_self ..

@[simp] theorem write_of_ne (m : Memory) {p q : ℕ} (h : q ≠ p) (c : UInt8) :
    (m.write p c).byte q = m.byte q := Function.update_of_ne h ..

/-- the `n` bytes from `p` on -/
def bytes (m : Memory) (p n : ℕ) : List UInt8 := (List.range n).map fun t => m.byte (p + t)

theorem bytes_add (m : Memory) (p k n : ℕ) :
    m.bytes p (k + n) = m.bytes p k ++ m.bytes (p + k) n := by
  rw [bytes, bytes, bytes, List.range_add, List.map_append, List.map_map]
  congr 1
  apply List.map_congr_left
  intro t _
  exact congrArg m.byte (Nat.add_assoc p k t).symm

end Memory

/-- a buffer does not begin at the null pointer, and the pointer behind its end is one -/
structure Buffer extends Region where
  nonnull : 0 < base
  ends : base + size < 2 ^ 64

/-! ## the function -/

/-- `"0123456789abcdef"[k]` -/
def digit (k : ℕ) : UInt8 :=
  [48, 49, 50, 51, 52, 53, 54, 55, 56, 57, 97, 98, 99, 100, 101, 102].getD k 0

/-- what the loop for the digits works on -/
structure Convert where
  mem : Memory
  ptr : ℕ
  j : ℕ
  padding : ℕ
  n : ℕ

/-- a turn of that loop; out of it without a pointer if `++n > sz` -/
def convertTurn (buf sz base : ℕ) (s : Convert) :
    Except Empty (Turn Convert (Memory × Option ℕ)) :=
  let n := (s.n + 1) % 2 ^ 64
  if n > sz then .ok (.leave (s.mem.write buf 0, none))
  else
    let mem := s.mem.write s.ptr (digit (s.j % base))
    let ptr := s.ptr + 1
    let j := s.j / base
    let padding := if s.padding > 0 then s.padding - 1 else s.padding
    if j > 0 ∨ padding > 0 then .ok (.again ⟨mem, ptr, j, padding, n⟩)
    else .ok (.leave (mem, some ptr))

/-- what the loop that reverses works on -/
structure Reversing where
  mem : Memory
  ptr : ℕ
  start : ℕ

def reverseTurn (s : Reversing) : Except Empty (Turn Reversing Memory) :=
  let ptr := s.ptr - 1
  if ptr > s.start then
    let ch := s.mem.byte ptr
    let mem := s.mem.write ptr (s.mem.byte s.start)
    let mem := mem.write s.start ch
    .ok (.again ⟨mem, ptr, s.start + 1⟩)
  else .ok (.leave s.mem)

/-- from the loop for the digits on -/
def convert (fuel : ℕ) (mem : Memory) (buf sz start j base padding n : ℕ) :
    Option (Memory × Option ℕ) :=
  (turns (convertTurn buf sz base) fuel ⟨mem, start, j, padding, n⟩).bind fun
    | .error e => e.elim
    | .ok (mem, none) => some (mem, none)
    | .ok (mem, some ptr) =>
      (turns reverseTurn fuel ⟨mem.write ptr 0, ptr, start⟩).bind fun
        | .error e => e.elim
        | .ok mem => some (mem, some buf)

/-- the memory afterwards and what `itoa_r` returns, `none` for the null pointer -/
def itoa_r (fuel : ℕ) (mem : Memory) (i : BitVec 64) (buf sz : ℕ) (base : ℤ) (padding : ℕ) :
    Option (Memory × Option ℕ) :=
  let n := 1
  if n > sz then some (mem, none)
  else if base < 2 ∨ base > 16 then some (mem.write buf 0, none)
  else if i.toInt < 0 ∧ base = 10 then
    let n := n + 1
    if n > sz then some (mem.write buf 0, none)
    else convert fuel (mem.write buf 45) buf sz (buf + 1) (-i).toNat base.toNat padding n
  else convert fuel mem buf sz buf i.toNat base.toNat padding n

/-! ## what is to be printed -/

/-- the number whose digits are printed -/
def magnitude (i : BitVec 64) (base : ℤ) : ℕ := if base = 10 then i.toInt.natAbs else i.toNat

/-- the number of digits: one at least, and as many as `padding` says -/
def digitCount (u base padding : ℕ) : ℕ := max 1 (max (Nat.digits base u).length padding)

/-- the sign and the digits -/
def text (i : BitVec 64) (base : ℤ) (padding : ℕ) : List UInt8 :=
  let u := magnitude i base
  (if i.toInt < 0 ∧ base = 10 then [45] else []) ++
    (numeral base.toNat (digitCount u base.toNat padding) u).map digit

/-- `buf` holds the text and a NUL, and nothing behind it was written -/
structure Printed (buf : ℕ) (text : List UInt8) (r : Memory × Option ℕ) : Prop where
  returns : r.2 = some buf
  bytes : r.1.bytes buf (text.length + 1) = text ++ [0]
  written : ∀ p ∈ r.1.written, buf ≤ p ∧ p ≤ buf + text.length

/-- a null pointer, with an empty text in the buffer if it has room for one -/
structure Refused (buffer : Region) (r : Memory × Option ℕ) : Prop where
  returns : r.2 = none
  empty : 1 ≤ buffer.size → r.1.byte buffer.base = 0
  written : ∀ p ∈ r.1.written, buffer.Mem p

/-! ## the loop for the digits -/

section
variable (mem : Memory) (buf sz start base u padding n : ℕ)

/-- the memory after `k` digits, the last one first -/
def digitsWritten : ℕ → Memory
  | 0 => mem
  | k + 1 => (digitsWritten k).write (start + k) (digit (u / base ^ k % base))

theorem digitsWritten_byte (k p : ℕ) : (digitsWritten mem start base u k).byte p =
    if start ≤ p ∧ p < start + k then digit (u / base ^ (p - start) % base) else mem.byte p := by
  induction k with
  | zero =>
    rw [if_neg (by omega)]
    rfl
  | succ k ih =>
    rw [digitsWritten]
    by_cases hp : p = start + k
    · have hsub : p - start = k := by omega
      rw [hp, Memory.write_self, ← hp, hsub, if_pos (by omega)]
    · rw [Memory.write_of_ne _ hp, ih]
      refine if_congr ?_ rfl rfl
      omega

theorem mem_digitsWritten {k p : ℕ} (h : p ∈ (digitsWritten mem start base u k).written) :
    p ∈ mem.written ∨ start ≤ p ∧ p < start + k := by
  induction k with
  | zero => exact .inl h
  | succ k ih =>
    rcases List.mem_cons.mp h with rfl | h
    · exact .inr ⟨by omega, by omega⟩
    · rcases ih h with h | h
      · exact .inl h
      · exact .inr ⟨h.1, by omega⟩

/-- the loop after `k` turns -/
def converting (k : ℕ) : Convert :=
  ⟨digitsWritten mem start base u k, start + k, u / base ^ k, padding - k, n + k⟩

variable {base}

theorem digits_left (hb : 2 ≤ base) (k : ℕ) :
    u / base ^ (k + 1) > 0 ∨ padding - (k + 1) > 0 ↔ k + 1 < digitCount u base padding := by
  have hdone := Numerals.digits_done_iff (n := u) hb (k + 1)
  rw [digitCount, gt_iff_lt, Nat.pos_iff_ne_zero, ne_eq, hdone]
  omega

variable {sz n}

/-- a turn without the wrapping of `++n` and the test of `padding` -/
theorem convertTurn_eq (s : Convert) (hn : s.n + 1 < 2 ^ 64) : convertTurn buf sz base s =
    if sz < s.n + 1 then .ok (.leave (s.mem.write buf 0, none))
    else if s.j / base > 0 ∨ s.padding - 1 > 0 then
      .ok (.again ⟨s.mem.write s.ptr (digit (s.j % base)), s.ptr + 1, s.j / base, s.padding - 1,
        s.n + 1⟩)
    else .ok (.leave (s.mem.write s.ptr (digit (s.j % base)), some (s.ptr + 1))) := by
  have hpad : (if s.padding > 0 then s.padding - 1 else s.padding) = s.padding - 1 := by
    split <;> omega
  rw [convertTurn]
  simp only [Nat.mod_eq_of_lt hn, hpad]

theorem converting_turn (hsz : sz < 2 ^ 64 - 1) {k : ℕ} (hk : n + k < sz) :
    convertTurn buf sz base (converting mem start base u padding n k) =
      if u / base ^ (k + 1) > 0 ∨ padding - (k + 1) > 0 then
        .ok (.again (converting mem start base u padding n (k + 1)))
      else .ok (.leave (digitsWritten mem start base u (k + 1), some (start + (k + 1)))) := by
  have hdiv : (converting mem start base u padding n k).j / base = u / base ^ (k + 1) := by
    show u / base ^ k / base = _
    rw [Nat.div_div_eq_div_mul, Nat.pow_succ]
  have hfits : ¬ sz < (converting mem start base u padding n k).n + 1 := by
    show ¬ sz < n + k + 1
    omega
  rw [convertTurn_eq buf _ (show n + k + 1 < 2 ^ 64 by omega), if_neg hfits, hdiv]
  rfl

theorem converting_full (hsz : sz < 2 ^ 64 - 1) {k : ℕ} (hk : n + k = sz) :
    convertTurn buf sz base (converting mem start base u padding n k) =
      .ok (.leave ((digitsWritten mem start base u k).write buf 0, none)) := by
  rw [convertTurn_eq buf _ (show n + k + 1 < 2 ^ 64 by omega)]
  exact if_pos (show sz < n + k + 1 by omega)

theorem converting_again (hb : 2 ≤ base) (hsz : sz < 2 ^ 64 - 1) {k : ℕ} (hk : n + k < sz)
    (hd : k + 1 < digitCount u base padding) :
    convertTurn buf sz base (converting mem start base u padding n k) =
      .ok (.again (converting mem start base u padding n (k + 1))) := by
  rw [converting_turn mem buf start u padding hsz hk]
  exact if_pos ((digits_left u padding hb k).mpr hd)

/-- **The loop leaves as many digits as are wanted**, if there is room for them. -/
theorem convert_ends (hb : 2 ≤ base) (hsz : sz < 2 ^ 64 - 1)
    (hroom : n + digitCount u base padding ≤ sz) :
    Ends (convertTurn buf sz base) ⟨mem, start, u, padding, n⟩
      (.ok (digitsWritten mem start base u (digitCount u base padding),
        some (start + digitCount u base padding))) := by
  have hd : 1 ≤ digitCount u base padding := Nat.le_max_left _ _
  have hpos : digitCount u base padding - 1 + 1 = digitCount u base padding := by omega
  have hstart : converting mem start base u padding n 0 = ⟨mem, start, u, padding, n⟩ := by
    rw [converting, Nat.pow_zero, Nat.div_one]
    rfl
  rw [← hstart]
  apply Ends.of_counted (m := digitCount u base padding - 1)
  · intro k hk
    exact converting_again mem buf start u padding hb hsz (by omega) (by omega)
  · have hlast := digits_left u padding hb (digitCount u base padding - 1)
    rw [converting_turn mem buf start u padding hsz (by omega), if_neg (by omega), hpos]

/-- **It ends without a result as soon as there is no more room.** -/
theorem convert_ends_full (hb : 2 ≤ base) (hsz : sz < 2 ^ 64 - 1) (hn : n ≤ sz)
    (hfull : sz < n + digitCount u base padding) :
    Ends (convertTurn buf sz base) ⟨mem, start, u, padding, n⟩
      (.ok ((digitsWritten mem start base u (sz - n)).write buf 0, none)) := by
  have hstart : converting mem start base u padding n 0 = ⟨mem, start, u, padding, n⟩ := by
    rw [converting, Nat.pow_zero, Nat.div_one]
    rfl
  rw [← hstart]
  apply Ends.of_counted (m := sz - n)
  · intro k hk
    exact converting_again mem buf start u padding hb hsz (by omega) (by omega)
  · exact converting_full mem buf start u padding hsz (by omega)

end

/-! ## the loop that reverses -/

section
variable (mem : Memory) (start d : ℕ)

/-- the memory after `k` exchanges -/
def exchanges : ℕ → Memory
  | 0 => mem
  | k + 1 =>
    let m := exchanges k
    (m.write (start + d - 1 - k) (m.byte (start + k))).write (start + k) (m.byte (start + d - 1 - k))

theorem exchanges_byte (k : ℕ) : (exchanges mem start d k).byte = exchanged mem.byte start d k := by
  induction k with
  | zero => rfl
  | succ k ih =>
    rw [exchanges, exchanged]
    simp only [Memory.write, ih]

theorem mem_exchanges {k p : ℕ} (hk : 2 * k ≤ d) (h : p ∈ (exchanges mem start d k).written) :
    p ∈ mem.written ∨ start ≤ p ∧ p < start + d := by
  induction k with
  | zero => exact .inl h
  | succ k ih =>
    rcases List.mem_cons.mp h with rfl | h
    · exact .inr ⟨by omega, by omega⟩
    · rcases List.mem_cons.mp h with rfl | h
      · exact .inr ⟨by omega, by omega⟩
      · exact ih (by omega) h

/-- the loop after `k` turns -/
def reversing (k : ℕ) : Reversing := ⟨exchanges mem start d k, start + d - k, start + k⟩

/-- **The loop makes half as many exchanges as there are digits.** -/
theorem reverse_ends : Ends reverseTurn ⟨mem, start + d, start⟩
    (.ok (exchanges mem start d (d / 2))) := by
  have hptr : ∀ k, (reversing mem start d k).ptr - 1 = start + d - 1 - k := by
    intro k
    show start + d - k - 1 = _
    omega
  apply Ends.of_counted (f := reversing mem start d) (m := d / 2)
  · intro k hk
    have hnext : start + d - (k + 1) = start + d - 1 - k := by omega
    have hlt : start + d - 1 - k > (reversing mem start d k).start := by
      show start + d - 1 - k > start + k
      omega
    rw [reverseTurn, hptr]
    dsimp only
    rw [if_pos hlt, reversing, reversing, hnext]
    rfl
  · have hge : ¬ start + d - 1 - d / 2 > (reversing mem start d (d / 2)).start := by
      show ¬ start + d - 1 - d / 2 > start + d / 2
      omega
    rw [reverseTurn, hptr]
    exact if_neg hge

end

/-! ## the text -/

section
variable {mem : Memory} {buf sz start u base padding n : ℕ}

/-- the memory after both loops -/
def printed (mem : Memory) (start base u d : ℕ) : Memory :=
  exchanges ((digitsWritten mem start base u d).write (start + d) 0) start d (d / 2)

theorem convert_gives (hb : 2 ≤ base) (hsz : sz < 2 ^ 64 - 1)
    (hroom : n + digitCount u base padding ≤ sz) :
    Gives (fun fuel => convert fuel mem buf sz start u base padding n)
      (printed mem start base u (digitCount u base padding), some buf) := by
  refine Gives.bind (Gives.of_ends (convert_ends mem buf start u padding hb hsz hroom)) ?_
  refine Gives.bind (Gives.of_ends (reverse_ends _ start _)) ?_
  exact Gives.pure _

theorem convert_gives_null (hb : 2 ≤ base) (hsz : sz < 2 ^ 64 - 1) (hn : n ≤ sz)
    (hfull : sz < n + digitCount u base padding) :
    Gives (fun fuel => convert fuel mem buf sz start u base padding n)
      ((digitsWritten mem start base u (sz - n)).write buf 0, none) := by
  refine Gives.bind (Gives.of_ends (convert_ends_full mem buf start u padding hb hsz hn hfull)) ?_
  exact Gives.pure _

/-- the digits are in order, the NUL is behind them and everything else is as it was -/
theorem printed_byte {d : ℕ} (p : ℕ) : (printed mem start base u d).byte p =
    if start ≤ p ∧ p < start + d then digit (u / base ^ (start + d - 1 - p) % base)
    else if p = start + d then 0 else mem.byte p := by
  rw [printed, exchanges_byte, exchanged_half]
  by_cases hp : start ≤ p ∧ p < start + d
  · have hne : start + (start + d - 1 - p) ≠ start + d := by omega
    have hsub : start + (start + d - 1 - p) - start = start + d - 1 - p := by omega
    rw [if_pos hp, if_pos hp, Memory.write_of_ne _ hne, digitsWritten_byte,
      if_pos (by omega), hsub]
  · rw [if_neg hp, if_neg hp]
    by_cases hend : p = start + d
    · rw [if_pos hend, hend]
      exact Memory.write_self ..
    · rw [if_neg hend, Memory.write_of_ne _ hend, digitsWritten_byte, if_neg hp]

theorem mem_printed {d p : ℕ} (h : p ∈ (printed mem start base u d).written) :
    p ∈ mem.written ∨ start ≤ p ∧ p ≤ start + d := by
  rcases mem_exchanges _ start d (by omega) h with h | h
  · rcases List.mem_cons.mp h with rfl | h
    · exact .inr ⟨by omega, by omega⟩
    · rcases mem_digitsWritten mem start base u h with h | h
      · exact .inl h
      · exact .inr ⟨h.1, by omega⟩
  · exact .inr ⟨h.1, by omega⟩

theorem printed_bytes {d : ℕ} (hb : 2 ≤ base) (hd : (Nat.digits base u).length ≤ d) :
    (printed mem start base u d).bytes start (d + 1) = (numeral base d u).map digit ++ [0] := by
  rw [Memory.bytes, List.range_succ, List.map_append, numeral_eq hb hd, List.map_map]
  congr 1
  · apply List.map_congr_left
    intro t ht
    have ht := List.mem_range.mp ht
    have hsub : start + d - 1 - (start + t) = d - 1 - t := by omega
    rw [printed_byte, if_pos (by omega), hsub]
    rfl
  · rw [List.map_singleton, printed_byte, if_neg (by omega), if_pos rfl]

theorem printed_before {d p k : ℕ} (h : p + k ≤ start) :
    (printed mem start base u d).bytes p k = mem.bytes p k := by
  apply List.map_congr_left
  intro t ht
  have ht := List.mem_range.mp ht
  rw [printed_byte, if_neg (by omega), if_neg (by omega)]

/-- **From the loop for the digits on**, behind a sign that is in the buffer -/
theorem convert_spec (b : Buffer) (sign : List UInt8) (hb : 2 ≤ base) (hsz : sign.length < b.size)
    (hsign : mem.bytes b.base sign.length = sign)
    (hwritten : ∀ p ∈ mem.written, b.base ≤ p ∧ p < b.base + sign.length) :
    ∃ r, Gives (fun fuel => convert fuel mem b.base b.size (b.base + sign.length) u base padding
        (1 + sign.length)) r ∧
      if sign.length + digitCount u base padding + 1 ≤ b.size then
        Printed b.base (sign ++ (numeral base (digitCount u base padding) u).map digit) r
      else Refused b.toRegion r := by
  have hends := b.ends
  have hnonnull := b.nonnull
  have hd : (Nat.digits base u).length ≤ digitCount u base padding := by
    rw [digitCount]
    omega
  by_cases hroom : sign.length + digitCount u base padding + 1 ≤ b.size
  · refine ⟨_, convert_gives hb (by omega) (by omega), ?_⟩
    rw [if_pos hroom]
    have hlen : (sign ++ (numeral base (digitCount u base padding) u).map digit).length =
        sign.length + digitCount u base padding := by
      rw [List.length_append, List.length_map, length_numeral hd]
    refine ⟨rfl, ?_, fun p hp => ?_⟩
    · rw [hlen, Nat.add_assoc, Memory.bytes_add, printed_before (Nat.le_refl _), hsign,
        printed_bytes hb hd, List.append_assoc]
    · rw [hlen]
      rcases mem_printed hp with hmem | hmem
      · have hfront := hwritten p hmem
        omega
      · omega
  · refine ⟨_, convert_gives_null hb (by omega) (by omega) (by omega), ?_⟩
    rw [if_neg hroom]
    refine ⟨rfl, fun _ => Memory.write_self .., fun p hp => ?_⟩
    rcases List.mem_cons.mp hp with rfl | hp
    · exact ⟨Nat.le_refl _, by omega⟩
    · rcases mem_digitsWritten _ _ _ _ hp with hmem | hmem
      · have hfront := hwritten p hmem
        exact ⟨hfront.1, by omega⟩
      · exact ⟨by omega, by omega⟩

end

/-! ## the whole function -/

section
variable (b : Buffer) (byte : ℕ → UInt8) (i : BitVec 64) (base : ℤ) (padding : ℕ)

theorem length_text : (text i base padding).length =
    (if i.toInt < 0 ∧ base = 10 then 1 else 0) +
      digitCount (magnitude i base) base.toNat padding := by
  have hd : (Nat.digits base.toNat (magnitude i base)).length ≤
      digitCount (magnitude i base) base.toNat padding := by
    rw [digitCount]
    omega
  rw [text, List.length_append, List.length_map, length_numeral hd]
  split <;> rfl

theorem magnitude_unsigned (h : ¬ (i.toInt < 0 ∧ base = 10)) : magnitude i base = i.toNat := by
  rw [magnitude]
  split
  · rename_i hten
    have hpos : 0 ≤ i.toInt := Int.not_lt.mp fun hlt => h ⟨hlt, hten⟩
    have heq := BitVec.toInt_eq_toNat_cond i
    split at heq <;> omega
  · rfl

/-- `-i`, modulo `2 ^ 64`, is the absolute value of a negative `i` -/
theorem magnitude_negative (h : i.toInt < 0 ∧ base = 10) : magnitude i base = (-i).toNat := by
  have heq := BitVec.toInt_eq_toNat_cond i
  have hneg := BitVec.toNat_neg i
  have hlt := i.isLt
  rw [magnitude, if_pos h.2]
  split at heq <;> omega

variable {b} {byte} {i} {base} {padding}

theorem unsigned_spec (hb : 2 ≤ base) (hsz : 1 ≤ b.size) (hsign : ¬ (i.toInt < 0 ∧ base = 10)) :
    ∃ r, Gives (fun fuel => convert fuel ⟨byte, []⟩ b.base b.size b.base i.toNat base.toNat
        padding 1) r ∧
      if (text i base padding).length + 1 ≤ b.size then Printed b.base (text i base padding) r
      else Refused b.toRegion r := by
  have htext : text i base padding = [] ++
      (numeral base.toNat (digitCount i.toNat base.toNat padding) i.toNat).map digit := by
    rw [text, if_neg hsign, magnitude_unsigned i base hsign]
  have hbase : 2 ≤ base.toNat := by omega
  rw [length_text, if_neg hsign, magnitude_unsigned i base hsign, htext]
  exact convert_spec b [] hbase hsz rfl nofun

theorem signed_spec (hsz : 2 ≤ b.size) (hsign : i.toInt < 0 ∧ base = 10) :
    ∃ r, Gives (fun fuel => convert fuel (Memory.write ⟨byte, []⟩ b.base 45) b.base b.size
        (b.base + 1) (-i).toNat base.toNat padding 2) r ∧
      if (text i base padding).length + 1 ≤ b.size then Printed b.base (text i base padding) r
      else Refused b.toRegion r := by
  have htext : text i base padding = [45] ++
      (numeral base.toNat (digitCount (-i).toNat base.toNat padding) (-i).toNat).map digit := by
    rw [text, if_pos hsign, magnitude_negative i base hsign]
  have hminus : (Memory.write ⟨byte, []⟩ b.base 45).bytes b.base 1 = [45] :=
    congrArg (fun c => [c]) (Memory.write_self _ b.base 45)
  have hbase : 2 ≤ base.toNat := by omega
  rw [length_text, if_pos hsign, magnitude_negative i base hsign, htext]
  refine convert_spec b [45] hbase hsz hminus fun p hp => ?_
  obtain rfl := List.mem_singleton.mp hp
  exact ⟨Nat.le_refl _, Nat.lt_succ_self _⟩

theorem refused_empty (hsz : 1 ≤ b.size) :
    Refused b.toRegion (Memory.write ⟨byte, []⟩ b.base 0, none) := by
  refine ⟨rfl, fun _ => Memory.write_self .., fun p hp => ?_⟩
  obtain rfl := List.mem_singleton.mp hp
  exact ⟨Nat.le_refl _, by omega⟩

end

/-- **`itoa_r` prints the text if its base is one of 2 to 16 and the buffer has room for it and the NUL,
and else returns a null pointer.** -/
theorem itoa_r_spec (b : Buffer) (byte : ℕ → UInt8) (i : BitVec 64) (base : ℤ) (padding : ℕ) :
    ∃ r, Gives (fun fuel => itoa_r fuel ⟨byte, []⟩ i b.base b.size base padding) r ∧
      if 2 ≤ base ∧ base ≤ 16 ∧ (text i base padding).length + 1 ≤ b.size then
        Printed b.base (text i base padding) r
      else Refused b.toRegion r := by
  have hlen := length_text i base padding
  have hone : 1 ≤ digitCount (magnitude i base) base.toNat padding := Nat.le_max_left _ _
  by_cases hsz : 1 ≤ b.size
  · by_cases hbase : 2 ≤ base ∧ base ≤ 16
    · have hcond : (2 ≤ base ∧ base ≤ 16 ∧ (text i base padding).length + 1 ≤ b.size) ↔
          (text i base padding).length + 1 ≤ b.size := by
        rw [← and_assoc, and_iff_right hbase]
      simp only [itoa_r, if_neg (Nat.not_lt.mpr hsz), if_neg (show ¬ (base < 2 ∨ base > 16) by omega),
        hcond]
      by_cases hsign : i.toInt < 0 ∧ base = 10
      · simp only [if_pos hsign]
        by_cases htwo : 2 ≤ b.size
        · simp only [if_neg (show ¬ 1 + 1 > b.size by omega)]
          exact signed_spec htwo hsign
        · rw [if_pos hsign] at hlen
          simp only [if_pos (show 1 + 1 > b.size by omega)]
          refine ⟨_, Gives.pure _, ?_⟩
          rw [if_neg (by omega)]
          exact refused_empty hsz
      · simp only [if_neg hsign]
        exact unsigned_spec hbase.1 hsz hsign
    · have hout : base < 2 ∨ base > 16 := by omega
      simp only [itoa_r, if_neg (Nat.not_lt.mpr hsz), if_pos hout]
      refine ⟨_, Gives.pure _, ?_⟩
      rw [if_neg (by omega)]
      exact refused_empty hsz
  · simp only [itoa_r, if_pos (show 1 > b.size by omega)]
    refine ⟨_, Gives.pure _, ?_⟩
    rw [if_neg (by omega)]
    exact ⟨rfl, fun h => absurd h hsz, nofun⟩

/-- room for four characters and the NUL -/
def fiveBytes : Buffer := ⟨⟨4096, 5⟩, by decide, by decide⟩

/-- -255 is printed, but not with five digits -/
theorem itoa_r_spec_five :
    (∃ r, Gives (fun fuel => itoa_r fuel ⟨fun _ => 1, []⟩ (-255) 4096 5 10 0) r ∧
      Printed 4096 [45, 50, 53, 53] r) ∧
    ∃ r, Gives (fun fuel => itoa_r fuel ⟨fun _ => 1, []⟩ (-255) 4096 5 10 5) r ∧
      Refused ⟨4096, 5⟩ r := by
  have htext : text (-255) 10 0 = [45, 50, 53, 53] := by decide
  have hlong : (text (-255) 10 5).length = 6 := by decide
  have hfits := itoa_r_spec fiveBytes (fun _ => 1) (-255) 10 0
  have hfull := itoa_r_spec fiveBytes (fun _ => 1) (-255) 10 5
  rw [htext] at hfits
  rw [hlong] at hfull
  exact ⟨hfits, hfull⟩

end StackTrace
end CppCores
