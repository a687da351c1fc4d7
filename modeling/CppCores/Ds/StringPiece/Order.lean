import CppCores.Ds.StringPiece.Trim
import CppCores.Lib.Lexicographic
import CppCores.Lib.Mixing

/-!
# StringPiece: comparisons, prefixes and suffixes, and the hash

`wordmemcmp` compares two ranges of one length by `char_traits<char>::compare`, of whose result the
standard promises only the sign: that of the first difference, taken as unsigned characters.  Which
number it is remains a parameter, `Traits`.

* `compare`, `eq`, `ne`, `lt`, `gt`, `le`, `ge`   the comparisons, all of them by the lexicographic order
                                                  of the bytes: `comparisons_agree`;
* `startsWith`, `endsWith`                        agree with `find` and `rfind`: `affixes_agree`;
* `hash`                                          is the same for equal pieces, and not for two that
                                                  differ in one character: `hash_apart`.
-/

namespace CppCores
namespace StringPiece

/-- `std::char_traits<char>::compare`, on ranges of one length -/
structure Traits where
  compare : List UInt8 → List UInt8 → ℤ
  same : ∀ p, compare p p = 0
  below : ∀ r a b p q, a < b → p.length = q.length → compare (r ++ a :: p) (r ++ b :: q) < 0
  above : ∀ r a b p q, b < a → p.length = q.length → 0 < compare (r ++ a :: p) (r ++ b :: q)

/-- the difference of the first two characters that differ -/
def difference : List UInt8 → List UInt8 → ℤ
  | a :: p, b :: q => if a = b then difference p q else a.toNat - b.toNat
  | _, _ => 0

theorem difference_append {a b : UInt8} (h : a ≠ b) (r p q : List UInt8) :
    difference (r ++ a :: p) (r ++ b :: q) = a.toNat - b.toNat := by
  induction r with
  | nil => exact if_neg h
  | cons c r ih =>
    rw [List.cons_append, List.cons_append, difference, if_pos rfl]
    exact ih

/-- `memcmp` of a C library that subtracts -/
def Traits.memcmp : Traits where
  compare := difference
  same p := by
    induction p with
    | nil => rfl
    | cons c p ih => simp [difference, ih]
  below r a b p q h _ := by
    have hlt := UInt8.lt_iff_toNat_lt.mp h
    rw [difference_append (UInt8.ne_of_lt h)]
    omega
  above r a b p q h _ := by
    have hlt := UInt8.lt_iff_toNat_lt.mp h
    rw [difference_append (UInt8.ne_of_lt h).symm]
    omega

variable (t : Traits) {self x y : StringPiece}

/-! ## the code -/

/-- `wordmemcmp(p, p2, N)` -/
def wordmemcmp (p p2 : List UInt8) (N : UInt64) : ℤ := t.compare (p.take N.toNat) (p2.take N.toNat)

def compare (self x : StringPiece) : ℤ :=
  let r := wordmemcmp t self.bytes x.bytes (if self.size < x.size then self.size else x.size)
  if r = 0 then
    if self.size < x.size then -1
    else if self.size > x.size then 1
    else r
  else r

/-- `operator==` -/
def eq (x y : StringPiece) : Bool :=
  if x.size ≠ y.size then false else wordmemcmp t x.bytes y.bytes x.size == 0

/-- `operator!=` -/
def ne (x y : StringPiece) : Bool := !eq t x y

/-- `operator<` -/
def lt (x y : StringPiece) : Bool :=
  let r := wordmemcmp t x.bytes y.bytes (if x.size < y.size then x.size else y.size)
  r < 0 || (r == 0 && x.size < y.size)

/-- `operator>` -/
def gt (x y : StringPiece) : Bool := lt t y x

/-- `operator<=` -/
def le (x y : StringPiece) : Bool := !gt t x y

/-- `operator>=` -/
def ge (x y : StringPiece) : Bool := !lt t x y

def startsWith (self x : StringPiece) : Bool :=
  self.size ≥ x.size && wordmemcmp t self.bytes x.bytes x.size == 0

def endsWith (self x : StringPiece) : Bool :=
  self.size ≥ x.size &&
    wordmemcmp t (self.bytes.drop (self.size - x.size).toNat) x.bytes x.size == 0

/-- `result = (result * 131) + *i`, where `*i` is a `char` -/
def hashChar (result : UInt64) (c : UInt8) : UInt64 := result * 131 + c.toInt8.toInt64.toUInt64

/-- `std::hash<StringPiece>` -/
def hash (sp : StringPiece) : UInt64 := sp.bytes.foldl hashChar 0

/-! ## the order -/

theorem Traits.tells {p q : List UInt8} (h : p.length = q.length) : Tells p q (t.compare p q) := by
  rcases eq_or_differ h with rfl | ⟨r, a, b, p', q', hab, hl, rfl, rfl⟩
  · exact .eq (t.same p) rfl
  · rcases UInt8.lt_or_lt_of_ne hab with hlt | hlt
    · exact .lt (t.below r a b p' q' hlt hl) (append_cons_lt hlt r p' q')
    · exact .gt (t.above r a b p' q' hlt hl) (append_cons_lt hlt r q' p')

theorem size_lt_iff : x.size < y.size ↔ x.bytes.length < y.bytes.length := by
  rw [UInt64.lt_iff_toNat_lt, size_toNat, size_toNat]

theorem size_le_iff : x.size ≤ y.size ↔ x.bytes.length ≤ y.bytes.length := by
  rw [UInt64.le_iff_toNat_le, size_toNat, size_toNat]

theorem size_eq_iff : x.size = y.size ↔ x.bytes.length = y.bytes.length := by
  rw [← UInt64.toNat_inj, size_toNat, size_toNat]

/-- the number of characters that are compared -/
theorem shorter_toNat (x y : StringPiece) :
    (if x.size < y.size then x.size else y.size).toNat = min x.bytes.length y.bytes.length := by
  split
  · rename_i h
    rw [size_toNat, Nat.min_eq_left (Nat.le_of_lt (size_lt_iff.mp h))]
  · rename_i h
    rw [size_toNat, Nat.min_eq_right (Nat.not_lt.mp (size_lt_iff.not.mp h))]

theorem wordmemcmp_tells (x y : StringPiece) :
    Tells (x.bytes.take (min x.bytes.length y.bytes.length))
      (y.bytes.take (min x.bytes.length y.bytes.length))
      (wordmemcmp t x.bytes y.bytes (if x.size < y.size then x.size else y.size)) := by
  unfold wordmemcmp
  rw [shorter_toNat]
  apply t.tells
  rw [List.length_take, List.length_take]
  omega

/-- **The sign of `compare` tells the order of the bytes.** -/
theorem compare_tells (x y : StringPiece) : Tells x.bytes y.bytes (compare t x y) := by
  have h := tells_of_take (wordmemcmp_tells t x y)
  simp only [← size_lt_iff] at h
  exact h

theorem eq_iff : eq t x y = true ↔ x.bytes = y.bytes := by
  unfold eq
  split
  · rename_i hne
    refine iff_of_false (by simp) fun h => hne (size_eq_iff.mpr (congrArg List.length h))
  · rename_i heq
    have hl := size_eq_iff.mp (not_ne_iff.mp heq)
    have hs := (t.tells (p := x.bytes) (q := y.bytes) hl).zero_iff
    rw [beq_iff_eq, wordmemcmp, size_toNat, List.take_length, hl, List.take_length]
    exact hs

theorem lt_iff : lt t x y = true ↔ x.bytes < y.bytes := by
  rw [← (compare_tells t x y).neg_iff]
  unfold lt compare
  dsimp only
  generalize wordmemcmp t x.bytes y.bytes _ = r
  simp only [Bool.or_eq_true, Bool.and_eq_true, decide_eq_true_eq, beq_iff_eq]
  by_cases hr : r = 0
  · rw [if_pos hr]
    by_cases hl : x.size < y.size
    · rw [if_pos hl]
      exact iff_of_true (.inr ⟨hr, hl⟩) (by omega)
    · rw [if_neg hl]
      refine iff_of_false (fun h => ?_) (by split <;> omega)
      rcases h with h | h
      · omega
      · exact hl h.2
  · rw [if_neg hr]
    exact or_iff_left fun h => hr h.1

/-- what the seven comparisons of two pieces answer -/
structure Agree (x y : StringPiece) : Prop where
  compare_lt : compare t x y < 0 ↔ x.bytes < y.bytes
  compare_eq : compare t x y = 0 ↔ x.bytes = y.bytes
  compare_gt : 0 < compare t x y ↔ y.bytes < x.bytes
  eq : eq t x y = true ↔ x.bytes = y.bytes
  ne : ne t x y = true ↔ x.bytes ≠ y.bytes
  lt : lt t x y = true ↔ x.bytes < y.bytes
  gt : gt t x y = true ↔ y.bytes < x.bytes
  le : le t x y = true ↔ x.bytes ≤ y.bytes
  ge : ge t x y = true ↔ y.bytes ≤ x.bytes

/-- **All comparisons go by the lexicographic order of the bytes, as unsigned characters.** -/
theorem comparisons_agree (x y : StringPiece) : Agree t x y where
  compare_lt := (compare_tells t x y).neg_iff
  compare_eq := (compare_tells t x y).zero_iff
  compare_gt := (compare_tells t x y).pos_iff
  eq := eq_iff t
  ne := by simp [ne, ← eq_iff t]
  lt := lt_iff t
  gt := lt_iff t
  le := by simp [le, gt, ← List.not_lt, ← lt_iff t]
  ge := by simp [ge, ← List.not_lt, ← lt_iff t]

example : compare .memcmp (single 0x7f) (single 0x80) = -1 ∧ lt .memcmp (single 0x80) (single 0x7f) = false :=
  ⟨by decide, by decide⟩

/-! ## prefixes and suffixes -/

theorem wordmemcmp_eq_zero {p : List UInt8} (h : x.bytes.length ≤ p.length) :
    (wordmemcmp t p x.bytes x.size == 0) = true ↔ x.bytes <+: p := by
  have hl : (p.take x.bytes.length).length = x.bytes.length := by
    rw [List.length_take]
    omega
  rw [beq_iff_eq, wordmemcmp, size_toNat, List.take_length, (t.tells hl).zero_iff,
    List.prefix_iff_eq_take]
  exact eq_comm

theorem startsWith_iff : startsWith t self x = true ↔ x.bytes <+: self.bytes := by
  unfold startsWith
  rw [Bool.and_eq_true, decide_eq_true_eq, ge_iff_le, size_le_iff]
  constructor
  · intro h
    exact (wordmemcmp_eq_zero t h.1).mp h.2
  · intro h
    exact ⟨h.length_le, (wordmemcmp_eq_zero t h.length_le).mpr h⟩

theorem endsWith_iff : endsWith t self x = true ↔ x.bytes <:+ self.bytes := by
  unfold endsWith
  rw [Bool.and_eq_true, decide_eq_true_eq, ge_iff_le]
  -- behind the place where the suffix begins, there are as many characters as it has
  have hdrop : x.size ≤ self.size →
      (self.bytes.drop (self.size - x.size).toNat).length = x.bytes.length := by
    intro h
    have hl := size_le_iff.mp h
    rw [List.length_drop, UInt64.toNat_sub_of_le _ _ h, size_toNat, size_toNat]
    omega
  constructor
  · intro h
    obtain ⟨hle, h⟩ := h
    have hp := (wordmemcmp_eq_zero t (Nat.le_of_eq (hdrop hle).symm)).mp h
    rw [hp.eq_of_length (hdrop hle).symm]
    exact List.drop_suffix _ _
  · intro h
    have hle := size_le_iff.mpr h.length_le
    refine ⟨hle, (wordmemcmp_eq_zero t (Nat.le_of_eq (hdrop hle).symm)).mpr ?_⟩
    have hd : x.bytes = self.bytes.drop (self.size - x.size).toNat := by
      rw [UInt64.toNat_sub_of_le _ _ hle, size_toNat, size_toNat]
      exact List.suffix_iff_eq_drop.mp h
    rw [← hd]

/-- a prefix is found at the front -/
theorem find_zero_iff : find self x 0 = 0 ↔ x.bytes <+: self.bytes := by
  have hlow := find_lowest self x 0
  have hzero : position 0 = some 0 := rfl
  rw [← occurs_zero]
  constructor
  · intro h
    rw [h, hzero] at hlow
    exact hlow.1.2
  · intro h
    apply position_inj
    rw [hzero]
    exact hlow.unique (k := some 0) ⟨⟨Nat.le_refl 0, h⟩, fun i _ => Nat.zero_le i⟩

/-- a suffix is found where it begins -/
theorem rfind_npos_iff (h : x.size ≤ self.size) :
    rfind self x npos = self.size - x.size ↔ x.bytes <:+ self.bytes := by
  have hself := self.length_lt
  have hhigh := rfind_highest self x npos
  have hl := size_le_iff.mp h
  have hn : (self.size - x.size).toNat = self.bytes.length - x.bytes.length := by
    rw [UInt64.toNat_sub_of_le _ _ h, size_toNat, size_toNat]
  have hpos := position_some hn (by omega)
  rw [← occurs_suffix hl]
  constructor
  · intro he
    rw [he, hpos] at hhigh
    exact hhigh.1.2
  · intro ho
    apply position_inj
    rw [hpos]
    refine hhigh.unique (k := some (self.bytes.length - x.bytes.length)) ⟨⟨?_, ho⟩, fun i hi => ?_⟩
    · have hmax : npos.toNat = 2 ^ 64 - 1 := rfl
      omega
    · have hle := hi.2.1
      omega

/-- **The direct tests agree with the searches and with the order**, and a prefix can be removed. -/
theorem affixes_agree (self x : StringPiece) :
    (startsWith t self x = true ↔ find self x 0 = 0) ∧
      (endsWith t self x = true ↔ x.size ≤ self.size ∧ rfind self x npos = self.size - x.size) ∧
      (startsWith t self x = true → le t x self = true) ∧
      (startsWith t self x = true ↔
        ∃ rest, self.removePrefix x.size = some rest ∧ self.bytes = x.bytes ++ rest.bytes) := by
  refine ⟨?_, ?_, fun h => ?_, ?_⟩
  · rw [startsWith_iff, find_zero_iff]
  · rw [endsWith_iff]
    constructor
    · intro h
      have hle := size_le_iff.mpr h.length_le
      exact ⟨hle, (rfind_npos_iff hle).mpr h⟩
    · intro h
      exact (rfind_npos_iff h.1).mp h.2
  · exact (comparisons_agree t x self).le.mpr ((startsWith_iff t).mp h).le
  · rw [startsWith_iff]
    constructor
    · intro h
      obtain ⟨rest, hrest, hb⟩ := removePrefix_eq h.length_le
      refine ⟨rest, hrest, ?_⟩
      rw [hb]
      exact (List.prefix_iff_eq_append.mp h).symm
    · intro h
      obtain ⟨rest, -, hb⟩ := h
      exact ⟨rest.bytes, hb.symm⟩

/-! ## the hash -/

theorem mul_131_inj {a b : UInt64} (h : a * 131 = b * 131) : a = b := by
  have hinv : (131 : UInt64) * 281629680514649643 = 1 := by decide
  have hmul := congrArg (· * 281629680514649643) h
  simp only [UInt64.mul_assoc, hinv, UInt64.mul_one] at hmul
  exact hmul

theorem char_inj {c d : UInt8} (h : c.toInt8.toInt64.toUInt64 = d.toInt8.toInt64.toUInt64) :
    c = d := by
  have h64 : c.toInt8.toInt64 = d.toInt8.toInt64 := congrArg UInt64.toInt64 h
  have hint := congrArg Int64.toInt h64
  rw [Int8.toInt_toInt64, Int8.toInt_toInt64] at hint
  exact congrArg Int8.toUInt8 (Int8.toInt_inj.mp hint)

theorem hashChar_mixes : Mixes hashChar where
  state _ _ _ h := mul_131_inj ((UInt64.add_left_inj _).mp h)
  word _ _ _ h := char_inj ((UInt64.add_right_inj _).mp h)

/-- **Equal pieces have one hash, pieces that differ in one character have two.** -/
theorem hash_apart (x y : StringPiece) : (eq t x y = true → hash x = hash y) ∧
    ∀ i, x.bytes.length = y.bytes.length → x.bytes[i]? ≠ y.bytes[i]? →
      (∀ j : ℕ, j ≠ i → x.bytes[j]? = y.bytes[j]?) → hash x ≠ hash y := by
  constructor
  · intro h
    rw [eq_of_bytes ((eq_iff t).mp h)]
  · intro i hlen hi hrest
    exact hashChar_mixes.foldl_ne hi hlen hrest 0

end StringPiece
end CppCores
