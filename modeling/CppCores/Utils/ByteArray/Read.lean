import CppCores.Utils.ByteArray.Calls

/-!
# ByteArray: `read`

`Reads s size` is the contract of `read(buf, size)` in `bytearray.h`, and `Joins s n m` says that a
read of `n` bytes and one of `m` bytes are a read of `n + m` bytes.

* `read_reads`     `read` meets its contract, on a chain of any length, where `Safe` holds: it looks
                   at `m_cur->size` before it looks at the size, and `m_cur` is null at the end of
                   the chain;
* `reads_iff`      **the contract and the split hold exactly where each of the reads is `Safe`.**
-/

set_option linter.unusedSectionVars false

namespace CppCores
namespace Bytes

/-- a chain of nodes of `m_baseSize` bytes, and a sound position in it -/
structure WellFormed (s : ByteArray) : Prop where
  base : 1 ≤ s.m_baseSize
  nodes : ∀ n ∈ s.nodes, n.Full s.m_baseSize
  sound : Sound s

/-- the `size` bytes from the position on -/
def ByteArray.ahead (s : ByteArray) (size : ℕ) : List (Option UInt8) :=
  (s.bytes.drop s.m_position).take size

/-- the position moves, and `m_cur` with it -/
def ByteArray.advance (s : ByteArray) (size : ℕ) : ByteArray :=
  { s with
    m_position := s.m_position + size
    m_cur := if s.m_position + size = s.m_capacity then none
      else some ((s.m_position + size) / s.m_baseSize) }

/-- what `read(buf, size)` has to do -/
structure Reads (s : ByteArray) (size : ℕ) : Prop where
  refused : size > s.m_size - s.m_position → s.read size = (.out_of_range, s)
  delivered : size ≤ s.m_size - s.m_position → s.read size = (.done (s.ahead size), s.advance size)
  wellFormed : WellFormed (s.read size).2

/-- reading `n` and then `m` bytes is reading `n + m` bytes -/
def Joins (s : ByteArray) (n m : ℕ) : Prop :=
  ∃ buf buf', (s.read n).1 = .done buf ∧ ((s.read n).2.read m).1 = .done buf' ∧
    s.read (n + m) = (.done (buf ++ buf'), ((s.read n).2.read m).2)

section
variable {s : ByteArray} {n m size : ℕ}

theorem WellFormed.good (h : WellFormed s) (hne : s.nodes ≠ []) : Good s :=
  ⟨h.base, h.nodes, hne, h.sound⟩

theorem WellFormed.advance (h : WellFormed s) (hs : size ≤ s.m_size - s.m_position) :
    WellFormed (s.advance size) where
  base := h.base
  nodes := h.nodes
  sound :=
    { position_le := by
        have := h.sound.position_le
        show s.m_position + size ≤ s.m_size
        omega
      size_le := h.sound.size_le
      capacity := h.sound.capacity
      cur := rfl }

/-- **`read` delivers the bytes ahead and moves the position.** -/
theorem WellFormed.read_eq (h : WellFormed s) (hs : size ≤ s.m_size - s.m_position)
    (hsafe : Safe s (.read size)) : s.read size = (.done (s.ahead size), s.advance size) := by
  have hposle := h.sound.position_le
  have hsz := h.sound.size_le
  have hcap := h.sound.capacity
  have hne : s.nodes ≠ [] := by
    intro hnil
    rw [hnil, List.length_nil, Nat.mul_zero] at hcap
    exact hsafe (by omega) (by omega)
  obtain ⟨hdone, hgood, hbase, hpos, hsize, hnodes⟩ := read_spec (h.good hne) hs hsafe
  have hcapacity : (s.read size).2.m_capacity = s.m_capacity := by
    rw [hgood.sound.capacity, hbase, hnodes, ← hcap]
  have hcur : (s.read size).2.m_cur = (s.advance size).m_cur := by
    rw [hgood.sound.cur, hpos, hcapacity, hbase]
    rfl
  have hstate : (s.read size).2 = s.advance size := by
    show ByteArray.mk (s.read size).2.m_baseSize _ _ _ _ _ = _
    rw [hbase, hpos, hcapacity, hsize, hnodes, hcur]
    rfl
  exact Prod.ext hdone hstate

/-- **`read` meets its contract where it is safe.** -/
theorem WellFormed.read_reads (h : WellFormed s) (hsafe : Safe s (.read size)) : Reads s size := by
  rcases Nat.lt_or_ge (s.m_size - s.m_position) size with hgt | hle
  · have hr : s.read size = (.out_of_range, s) := read_refused hgt
    refine ⟨fun _ => hr, fun hle => absurd hle (Nat.not_le_of_lt hgt), ?_⟩
    rw [hr]
    exact h
  · have hr := h.read_eq hle hsafe
    refine ⟨fun hgt => absurd hle (Nat.not_le_of_lt hgt), fun _ => hr, ?_⟩
    rw [hr]
    exact h.advance hle

theorem WellFormed.safe_of_reads (h : WellFormed s) (hr : Reads s size) : Safe s (.read size) := by
  rintro rfl he
  have hdone := hr.delivered (Nat.zero_le _)
  rw [read_zero_at_end h.sound he] at hdone
  cases (Prod.mk.inj hdone).1

/-! ## two reads -/

theorem ahead_add (s : ByteArray) (n m : ℕ) :
    s.ahead (n + m) = s.ahead n ++ (s.advance n).ahead m := by
  show (s.bytes.drop s.m_position).take (n + m) =
    (s.bytes.drop s.m_position).take n ++ (s.bytes.drop (s.m_position + n)).take m
  rw [List.take_add, List.drop_drop]

theorem advance_add (s : ByteArray) (n m : ℕ) :
    s.advance (n + m) = (s.advance n).advance m := by
  have e : s.m_position + (n + m) = s.m_position + n + m := (Nat.add_assoc ..).symm
  unfold ByteArray.advance
  rw [e]

theorem WellFormed.joins_iff (h : WellFormed s) (hs : n + m ≤ s.m_size - s.m_position)
    (hn : Safe s (.read n)) : Joins s n m ↔ Safe (s.advance n) (.read m) := by
  have hle : m ≤ (s.advance n).m_size - (s.advance n).m_position := by
    show m ≤ s.m_size - (s.m_position + n)
    omega
  have h1 := h.read_eq (Nat.le_trans (Nat.le_add_right n m) hs) hn
  have hadv := h.advance (Nat.le_trans (Nat.le_add_right n m) hs)
  constructor
  · intro hj
    obtain ⟨buf, buf', -, hm, -⟩ := hj
    rw [h1] at hm
    rintro rfl he
    rw [read_zero_at_end hadv.sound he] at hm
    cases hm
  · intro hm
    have h2 := hadv.read_eq hle hm
    have hboth : Safe s (.read (n + m)) := fun h0 => hn (by omega)
    refine ⟨s.ahead n, (s.advance n).ahead m, ?_, ?_, ?_⟩
    · rw [h1]
    · rw [h1]
      exact congrArg Prod.fst h2
    · rw [h1, h2, h.read_eq hs hboth, ahead_add, advance_add]

/-- **`read` meets its contract, and can be split, exactly where no read of 0 bytes is made at the
end of the chain.** -/
theorem reads_iff (h : WellFormed s) (n m : ℕ) :
    (Reads s n ∧ (n + m ≤ s.m_size - s.m_position → Joins s n m)) ↔
      Safe s (.read n) ∧
        (n + m ≤ s.m_size - s.m_position → Safe (s.advance n) (.read m)) := by
  constructor
  · intro hr
    have hn := h.safe_of_reads hr.1
    exact ⟨hn, fun hs => (h.joins_iff hs hn).mp (hr.2 hs)⟩
  · intro hsafe
    exact ⟨h.read_reads hsafe.1, fun hs => (h.joins_iff hs hsafe.1).mpr (hsafe.2 hs)⟩

end

/-- five bytes in three nodes of 2 bytes, the position behind the first -/
def fiveBytes : ByteArray where
  m_baseSize := 2
  m_position := 1
  m_capacity := 6
  m_size := 5
  nodes := [⟨[some 1, some 2], 2⟩, ⟨[some 3, some 4], 2⟩, ⟨[some 5, none], 2⟩]
  m_cur := some 0

theorem fiveBytes_wellFormed : WellFormed fiveBytes := by
  refine ⟨by decide, fun n hn => ?_, ⟨by decide, by decide, by decide, by decide⟩⟩
  simp only [fiveBytes, List.mem_cons, List.not_mem_nil, or_false] at hn
  obtain rfl | rfl | rfl := hn <;> exact ⟨rfl, rfl⟩

/-- 3 bytes over the end of a node, then the last one -/
theorem reads_fiveBytes :
    Reads fiveBytes 3 ∧ (3 + 1 ≤ fiveBytes.m_size - fiveBytes.m_position → Joins fiveBytes 3 1) :=
  (reads_iff fiveBytes_wellFormed 3 1).mpr ⟨nofun, fun _ => nofun⟩

/-- a node of 1 byte is full, and 0 bytes are read behind it -/
theorem not_reads : ¬ ∀ (s : ByteArray) (n : ℕ), WellFormed s → Reads s n := by
  intro hall
  let s : ByteArray := ⟨1, 1, 1, 1, [⟨[some 7], 1⟩], none⟩
  have hs : WellFormed s := by
    refine ⟨Nat.le_refl 1, fun n hn => ?_, ⟨Nat.le_refl 1, Nat.le_refl 1, rfl, rfl⟩⟩
    rw [List.mem_singleton.mp hn]
    exact ⟨rfl, rfl⟩
  have hr := (hall s 0 hs).delivered (Nat.zero_le _)
  rw [read_zero_at_end hs.sound rfl] at hr
  cases (Prod.mk.inj hr).1

end Bytes
end CppCores
