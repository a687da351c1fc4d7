import CppCores.Utils.ByteArray.Inv

/-!
# ByteArray: only the concatenation of what is written counts

`written b data` is the `ByteArray` of base size `b` that holds `data` and nothing else.  Writing to it
appends (`write_written`), so a list of writes to a new `ByteArray` gives `written b` of their
concatenation (`writeAll_spec`), whatever the bounds of the writes and of the nodes were.
-/

set_option linter.unusedSectionVars false

namespace CppCores
namespace Bytes

/-- write the strings one after the other, if every call returns -/
def ByteArray.writeAll (s : ByteArray) : List (List UInt8) → Option ByteArray
  | [] => some s
  | buf :: bufs =>
    match s.write buf with
    | (.done _, s) => s.writeAll bufs
    | (.out_of_range, _) | (.null_deref, _) => none

/-- a `ByteArray` that holds `data` and was never read or cleared -/
structure Written (b : ℕ) (data : List UInt8) (s : ByteArray) : Prop where
  good : Good s
  base : s.m_baseSize = b
  position : s.m_position = data.length
  size : s.m_size = data.length
  count : s.nodes.length = max 1 ((data.length + b - 1) / b)
  bytes : flat s.nodes = data.map some ++ List.replicate (s.m_capacity - data.length) none

section
variable {b : ℕ} {data buf : List UInt8} {s s' : ByteArray}

/-- there is one such state -/
theorem Written.unique (h : Written b data s) (h' : Written b data s') : s = s' := by
  have hcap : s.m_capacity = s'.m_capacity := by
    rw [h.good.sound.capacity, h'.good.sound.capacity, h.base, h'.base, h.count, h'.count]
  have hn := h.good.nodes
  have hn' := h'.good.nodes
  rw [h.base] at hn
  rw [h'.base] at hn'
  have hnodes : s.nodes = s'.nodes := by
    refine eq_of_flat hn hn' (by rw [h.count, h'.count]) ?_
    rw [h.bytes, h'.bytes, hcap]
  have hcur : s.m_cur = s'.m_cur := by
    rw [h.good.sound.cur, h'.good.sound.cur, h.position, h'.position, h.base, h'.base, hcap]
  obtain ⟨b1, p1, c1, z1, n1, u1⟩ := s
  obtain ⟨b2, p2, c2, z2, n2, u2⟩ := s'
  have e1 : b1 = b2 := h.base.trans h'.base.symm
  have e2 : p1 = p2 := h.position.trans h'.position.symm
  have e3 : z1 = z2 := h.size.trans h'.size.symm
  have e4 : c1 = c2 := hcap
  have e5 : n1 = n2 := hnodes
  have e6 : u1 = u2 := hcur
  rw [e1, e2, e3, e4, e5, e6]

theorem new_written (hb : 0 < b) : Written b [] (.new b) := by
  refine ⟨new_good hb, rfl, rfl, rfl, ?_, ?_⟩
  · rw [List.length_nil, Nat.zero_add, Nat.div_eq_of_lt (by omega)]
    rfl
  · show List.replicate b none ++ [] = _
    rw [List.append_nil]
    rfl

/-- the nodes that a write adds are those that the longer data needs -/
theorem missing_count {n t k : ℕ} (hb : 0 < b) (hn : n = max 1 ((t + b - 1) / b)) :
    n + (k - (b * n - t) + b - 1) / b = max 1 ((t + k + b - 1) / b) := by
  have ht : t ≤ b * n := by
    refine Nat.le_trans (le_mul_ceil hb t) (Nat.mul_le_mul_left b ?_)
    rw [hn]
    exact Nat.le_max_right _ _
  rcases Nat.le_total k (b * n - t) with hk | hk
  · -- it fits
    rw [Nat.sub_eq_zero_of_le hk, Nat.zero_add, Nat.div_eq_of_lt (by omega), Nat.add_zero]
    refine Nat.le_antisymm ?_ (Nat.max_le.mpr ⟨by omega, ?_⟩)
    · rw [hn]
      refine Nat.max_le.mpr ⟨Nat.le_max_left _ _, ?_⟩
      exact Nat.le_trans (Nat.div_le_div_right (by omega)) (Nat.le_max_right _ _)
    · refine Nat.le_of_lt_succ (Nat.div_lt_of_lt_mul ?_)
      rw [Nat.mul_succ]
      omega
  · have he : t + k + b - 1 = (k - (b * n - t) + b - 1) + b * n := by omega
    rw [he, Nat.add_mul_div_left _ _ hb, Nat.add_comm n]
    refine (Nat.max_eq_right ?_).symm
    have h1 : 1 ≤ n := by rw [hn]; exact Nat.le_max_left _ _
    exact Nat.le_trans h1 (Nat.le_add_left _ _)

/-- **Writing appends.** -/
theorem write_written (h : Written b data s) (hs : (data ++ buf).length < 2 ^ 53) :
    (s.write buf).1 = .done [] ∧ Written b (data ++ buf) (s.write buf).2 := by
  by_cases hbuf : buf = []
  · subst hbuf
    rw [List.append_nil]
    exact ⟨rfl, h⟩
  rw [List.length_append] at hs
  have hb := h.good.base
  have hcap := h.good.sound.capacity
  have hsz := h.good.sound.size_le
  obtain ⟨hdone, hgood, hbase, hpos, hsize, hcount, hflat⟩ :=
    write_spec h.good hbuf (by rw [h.position]; exact hs)
  rw [h.base] at hb hcap
  have hlen : (data ++ buf).length = data.length + buf.length := List.length_append
  have hcap' : (s.write buf).2.m_capacity = s.m_capacity + b * missing s buf.length := by
    rw [hgood.sound.capacity, hbase, h.base, hcount, Nat.mul_add, hcap]
  have hroom : data.length + buf.length ≤ s.m_capacity + b * missing s buf.length := by
    rw [← hcap', ← hlen, hlen, ← h.position, ← hpos]
    exact hgood.position_le_capacity
  refine ⟨hdone, hgood, hbase.trans h.base, ?_, ?_, ?_, ?_⟩
  · rw [hpos, h.position, hlen]
  · rw [hsize, h.size, h.position, hlen]
    exact Nat.max_eq_right (Nat.le_add_right _ _)
  · rw [hcount, hlen]
    unfold missing ByteArray.getCapacity
    rw [h.base, h.position, hcap]
    exact missing_count hb h.count
  · -- the bytes behind the data are overwritten, the rest stays as it was
    rw [hflat, h.bytes, h.base, h.position, List.append_assoc, ← List.replicate_add, hcap']
    set m := s.m_capacity - data.length + b * missing s buf.length with hm
    have hdata : data.length = (data.map some).length + 0 := (List.length_map some).symm
    conv_lhs => rw [hdata, patch_right]
    unfold patch
    have hrep : m - (0 + buf.length) =
        s.m_capacity + b * missing s buf.length - (data.length + buf.length) := by
      rw [h.size] at hsz
      omega
    rw [List.take_zero, List.nil_append, List.drop_replicate, List.length_map, hrep, hlen,
      List.map_append, List.append_assoc]

theorem writeAll_written (h : Written b data s) (bufs : List (List UInt8))
    (hs : (data ++ bufs.flatten).length < 2 ^ 53) :
    ∃ s', s.writeAll bufs = some s' ∧ Written b (data ++ bufs.flatten) s' := by
  induction bufs generalizing data s with
  | nil =>
    rw [List.flatten_nil, List.append_nil]
    exact ⟨s, rfl, h⟩
  | cons buf bufs ih =>
    rw [List.flatten_cons, ← List.append_assoc] at hs ⊢
    have hlt : (data ++ buf).length < 2 ^ 53 := by
      rw [List.length_append] at hs
      omega
    obtain ⟨hdone, hw⟩ := write_written h hlt
    obtain ⟨s', hs', hw'⟩ := ih hw hs
    refine ⟨s', ?_, hw'⟩
    have he : s.write buf = (.done [], (s.write buf).2) := Prod.ext hdone rfl
    unfold ByteArray.writeAll
    rw [he]
    exact hs'

theorem new_writeAll (hb : 1 ≤ b) (bufs : List (List UInt8)) (ht : bufs.flatten.length < 2 ^ 53) :
    ∃ s, (ByteArray.new b).writeAll bufs = some s ∧ Written b bufs.flatten s :=
  writeAll_written (new_written hb) bufs ht

theorem Written.take_bytes (h : Written b data s) : s.bytes.take data.length = data.map some := by
  have hlen : data.length = (data.map some).length := (List.length_map some).symm
  show (flat s.nodes).take data.length = _
  rw [h.bytes, hlen, List.take_left]

/-- **What is written to a new `ByteArray`**: its sizes and bytes, and that they depend on the
concatenation only, the bytes not on the base size either. -/
theorem writeAll_spec (hb : 1 ≤ b) (bufs : List (List UInt8)) (ht : bufs.flatten.length < 2 ^ 53) :
    ∃ t s, bufs.flatten.length = t ∧ (ByteArray.new b).writeAll bufs = some s ∧
      s.m_position = t ∧ s.m_size = t ∧ s.m_capacity = b * max 1 ⌈(t : ℚ) / b⌉₊ ∧
      s.bytes.take t = bufs.flatten.map some ∧
      (∀ bufs' : List (List UInt8), bufs'.flatten = bufs.flatten →
        (ByteArray.new b).writeAll bufs' = some s) ∧
      ∀ b' : ℕ, 1 ≤ b' → ∃ s', (ByteArray.new b').writeAll bufs = some s' ∧
        s'.bytes.take t = s.bytes.take t := by
  obtain ⟨s, hs, h⟩ := new_writeAll hb bufs ht
  refine ⟨_, s, rfl, hs, h.position, h.size, ?_, h.take_bytes, fun bufs' he => ?_, fun b' hb' => ?_⟩
  · rw [h.good.sound.capacity, h.base, h.count, ceil_natCast_div hb]
  · obtain ⟨s', hs', h'⟩ := new_writeAll hb bufs' (by rw [he]; exact ht)
    rw [he] at h'
    rw [hs', h'.unique h]
  · obtain ⟨s', hs', h'⟩ := new_writeAll hb' bufs ht
    exact ⟨s', hs', by rw [h'.take_bytes, h.take_bytes]⟩

/-- five bytes in two writes, in nodes of two bytes -/
theorem writeAll_five : ∃ s, (ByteArray.new 2).writeAll [[1, 2, 3], [4, 5]] = some s ∧
    s.m_size = 5 ∧ s.bytes.take 5 = [some 1, some 2, some 3, some 4, some 5] ∧
    (ByteArray.new 2).writeAll [[1], [2, 3, 4, 5]] = some s := by
  obtain ⟨t, s, rfl, hs, -, hsize, -, hbytes, hsame, -⟩ :=
    writeAll_spec (b := 2) (by decide) [[1, 2, 3], [4, 5]] (by decide)
  exact ⟨s, hs, hsize, hbytes, hsame [[1], [2, 3, 4, 5]] rfl⟩

end
end Bytes
end CppCores
