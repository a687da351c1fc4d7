import CppCores.Ds.StringPiece.Model

/-!
# copy and substr of a StringPiece

`substr` moves `pos` to the end before it takes the difference to it; `copy` takes the difference first.

* `substr_spec`     `substr` is always inside of the piece;
* `copy_inside`     `copy` copies this part, if `pos` is not behind the end;
* `copy_outside`    behind the end it refers to bytes outside, unless it is asked for none;
* `copy_iff`        **both in one.**
-/

namespace CppCores
namespace StringPiece

variable {self : StringPiece} {buf : List UInt8} {n pos : UInt64}

/-! ## a part -/

theorem part_ok (self : StringPiece) (pos n : UInt64) (h : pos.toNat + n.toNat ≤ self.bytes.length) :
    ∃ piece, self.part pos n = some piece ∧
      piece.bytes = (self.bytes.drop pos.toNat).take n.toNat ∧ piece.size = n := by
  refine ⟨_, if_pos (Or.inr h), rfl, ?_⟩
  rw [← UInt64.toNat_inj, size_toNat, List.length_take, List.length_drop]
  omega

theorem part_zero (self : StringPiece) (pos : UInt64) :
    ∃ piece, self.part pos 0 = some piece ∧ piece.bytes = [] ∧ piece.size = 0 := by
  unfold part
  rw [if_pos (Or.inl rfl)]
  refine ⟨_, rfl, ?_, ?_⟩
  · exact List.take_zero (l := self.bytes.drop pos.toNat)
  · rfl

theorem part_none (hn : n ≠ 0) (h : self.bytes.length < pos.toNat + n.toNat) :
    self.part pos n = none := by
  refine if_neg fun hor => ?_
  rcases hor with hor | hor
  · exact hn hor
  · omega

/-! ## substr -/

theorem min_of_le {a b : UInt64} (h : b ≤ a) : min a b = b := by
  rw [← UInt64.toNat_inj, toNat_min]
  exact Nat.min_eq_right (UInt64.le_iff_toNat_le.mp h)

theorem clamp_eq (a b : UInt64) : (if b > a then a else b) = min a b := by
  rw [UInt64.min_def]
  split
  · rename_i h
    rw [if_pos (UInt64.le_of_lt h)]
  · rename_i h
    split
    · rename_i hle
      exact UInt64.le_antisymm (UInt64.not_lt.mp h) hle
    · rfl

theorem substr_eq (self : StringPiece) (pos n : UInt64) :
    self.substr pos n = self.part (min self.size pos) (min (self.size - min self.size pos) n) := by
  unfold substr
  rw [clamp_eq]
  dsimp only
  rw [clamp_eq]

theorem sub_size (h : pos ≤ self.size) : (self.size - pos).toNat = self.bytes.length - pos.toNat := by
  rw [UInt64.toNat_sub_of_le _ _ h, size_toNat]

/-- **`substr` is inside of the piece**: the `n` bytes behind `pos`, or those that there are. -/
theorem substr_spec (self : StringPiece) (pos n : UInt64) :
    ∃ piece, self.substr pos n = some piece ∧
      piece.bytes = (self.bytes.drop pos.toNat).take n.toNat := by
  have hpos : (min self.size pos).toNat = min self.bytes.length pos.toNat := by
    rw [toNat_min, size_toNat]
  have hle : min self.size pos ≤ self.size := by
    rw [UInt64.le_iff_toNat_le, hpos, size_toNat]
    exact Nat.min_le_left _ _
  have hn : (min (self.size - min self.size pos) n).toNat =
      min (self.bytes.length - min self.bytes.length pos.toNat) n.toNat := by
    rw [toNat_min, sub_size hle, hpos]
  obtain ⟨piece, hpart, hbytes, -⟩ := part_ok self (min self.size pos)
    (min (self.size - min self.size pos) n) (by rw [hpos, hn]; omega)
  refine ⟨piece, (substr_eq self pos n).trans hpart, ?_⟩
  rw [hbytes, hpos, hn]
  rcases Nat.le_total self.bytes.length pos.toNat with hend | hin
  · rw [Nat.min_eq_left hend, List.drop_length, List.drop_of_length_le hend, List.take_nil,
      List.take_nil]
  · rw [Nat.min_eq_right hin, ← List.length_drop, Nat.min_comm, ← List.take_eq_take_min]

/-! ## copy -/

theorem memcpy_ok {bytes : List UInt8} (h : bytes.length ≤ buf.length) :
    memcpy buf bytes = some (patch buf 0 bytes) := if_pos h

/-- what is asked of `copy` and `substr` -/
def CopyRight (self : StringPiece) (n pos : UInt64) : Prop :=
  ∃ piece, self.substr pos n = some piece ∧ ∀ buf : List UInt8, piece.bytes.length ≤ buf.length →
    self.copy buf n pos = some (patch buf 0 piece.bytes, piece.size)

/-- up to the end `copy` takes the same part as `substr` -/
theorem copy_inside (h : pos ≤ self.size) : CopyRight self n pos := by
  have hmin : min self.size pos = pos := min_of_le h
  obtain ⟨piece, hpart, hbytes, hsize⟩ := part_ok self pos (min (self.size - pos) n) (by
      have hle := UInt64.le_iff_toNat_le.mp h
      rw [size_toNat] at hle
      rw [toNat_min, sub_size h]
      omega)
  refine ⟨piece, ?_, fun buf hbuf => ?_⟩
  · rw [substr_eq, hmin, hpart]
  · unfold copy
    dsimp only
    rw [hpart, Option.bind_some, memcpy_ok hbuf, Option.map_some, hsize]

theorem copy_none (self : StringPiece) (pos : UInt64) : CopyRight self 0 pos := by
  have hmin (a : UInt64) : min a 0 = 0 := min_of_le UInt64.zero_le
  obtain ⟨piece, hpart, hbytes, hsize⟩ := part_zero self (min self.size pos)
  obtain ⟨src, hsrc, hnil, -⟩ := part_zero self pos
  refine ⟨piece, ?_, fun buf hbuf => ?_⟩
  · rw [substr_eq, hmin, hpart]
  · unfold copy
    dsimp only
    rw [hmin, hsrc, Option.bind_some, hnil, memcpy_ok (Nat.zero_le _), Option.map_some, hbytes,
      hsize]

/-- **Behind the end `copy` refers to bytes outside.** -/
theorem copy_outside (hpos : self.size < pos) (hn : n ≠ 0) (buf : List UInt8) :
    self.copy buf n pos = none := by
  have hlt := UInt64.lt_iff_toNat_lt.mp hpos
  rw [size_toNat] at hlt
  have hmin : min (self.size - pos) n ≠ 0 := by
    have hsub : (self.size - pos).toNat ≠ 0 := by
      have hle := pos.toNat_lt
      rw [UInt64.toNat_sub, size_toNat]
      omega
    have hzero : n.toNat ≠ 0 := fun h => hn (UInt64.toNat_inj.mp h)
    intro h
    have hm := congrArg UInt64.toNat h
    rw [toNat_min] at hm
    have h0 : (0 : UInt64).toNat = 0 := rfl
    omega
  unfold copy
  dsimp only
  rw [part_none hmin (by omega), Option.bind_none]

/-- **`copy` copies what `substr` refers to iff `pos` is not behind the end, or it is asked for
nothing.** -/
theorem copy_iff (self : StringPiece) (n pos : UInt64) :
    CopyRight self n pos ↔ pos ≤ self.size ∨ n = 0 := by
  constructor
  · intro h
    obtain ⟨piece, -, hcopy⟩ := h
    by_contra hnot
    rw [not_or] at hnot
    have hout := copy_outside (UInt64.not_le.mp hnot.1) hnot.2 piece.bytes
    cases hout.symm.trans (hcopy piece.bytes (Nat.le_refl _))
  · intro h
    rcases h with h | h
    · exact copy_inside h
    · rw [h]
      exact copy_none self pos

/-- one byte behind the end of a piece of none -/
theorem not_copyRight : ¬ ∀ (self : StringPiece) (n pos : UInt64), CopyRight self n pos := by
  intro hall
  obtain ⟨piece, -, hcopy⟩ := hall ⟨[], Nat.two_pow_pos 63⟩ 1 1
  have hout : copy ⟨[], Nat.two_pow_pos 63⟩ piece.bytes 1 1 = none := rfl
  cases hout.symm.trans (hcopy piece.bytes (Nat.le_refl _))

end StringPiece
end CppCores
