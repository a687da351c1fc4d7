import CppCores.Utils.ByteArray.Inv

/-!
# ByteArray: sequences of calls

`CallOk s c` is what the documentation of `bytearray.h` promises of the call `c` in the state `s`.
`clear` forgets `m_size`, and a `read` of 0 bytes follows `m_cur` although it is null at the end of the
chain; `always_callOk_iff` says that these are the only two calls that go wrong: the calls of a
sequence are all right exactly if none of them is one of these.
-/

set_option linter.unusedSectionVars false

namespace CppCores
namespace Bytes

inductive Call where
  | write (buf : List UInt8)
  | read (size : ℕ)
  | clear
  deriving DecidableEq, Repr

/-- the number of bytes that a call writes -/
def Call.written : Call → ℕ
  | .write buf => buf.length
  | .read _ => 0
  | .clear => 0

def ByteArray.call (s : ByteArray) : Call → Outcome × ByteArray
  | .write buf => s.write buf
  | .read size => s.read size
  | .clear => (.done [], s.clear)

/-- `P` holds of every call of a sequence, in the state in which it is made -/
def Always (P : ByteArray → Call → Prop) : ByteArray → List Call → Prop
  | _, [] => True
  | s, c :: cs => P s c ∧ Always P (s.call c).2 cs

/-- what a call has to do -/
structure CallOk (s : ByteArray) (c : Call) : Prop where
  sound : Sound (s.call c).2
  cleared : c = .clear → (s.call c).2.m_position = 0 ∧ (s.call c).2.m_size = 0
  deref : (s.call c).1 ≠ .null_deref
  refused : ∀ size, c = .read size → size > s.m_size - s.m_position →
    s.call c = (.out_of_range, s)

/-- `clear` is called only while nothing was written, and a `read` of 0 bytes only while the position
is not at the end of the chain -/
def Safe (s : ByteArray) : Call → Prop
  | .write _ => True
  | .read size => size = 0 → s.m_position ≠ s.m_capacity
  | .clear => s.m_size = 0

section
variable {s : ByteArray} {c : Call}

theorem safe_call (h : Good s) (hs : s.m_size + c.written < 2 ^ 53) (hc : Safe s c) :
    CallOk s c ∧ Good (s.call c).2 ∧ (s.call c).2.m_size ≤ s.m_size + c.written := by
  have hpos := h.sound.position_le
  cases c with
  | write buf =>
    by_cases hbuf : buf = []
    · subst hbuf
      refine ⟨⟨h.sound, nofun, nofun, nofun⟩, h, Nat.le_refl _⟩
    · have hlen : s.m_position + buf.length < 2 ^ 53 := Nat.lt_of_le_of_lt
        (Nat.add_le_add_right hpos _) hs
      obtain ⟨hdone, hgood, -, -, hsize, -, -⟩ := write_spec h hbuf hlen
      refine ⟨⟨hgood.sound, nofun, ?_, nofun⟩, hgood, ?_⟩
      · show (s.write buf).1 ≠ _
        rw [hdone]
        exact nofun
      · show (s.write buf).2.m_size ≤ s.m_size + buf.length
        rw [hsize]
        omega
  | read size =>
    by_cases hle : size ≤ s.m_size - s.m_position
    · obtain ⟨hdone, hgood, -, -, hsize, -⟩ := read_spec h hle hc
      refine ⟨⟨hgood.sound, nofun, ?_, fun size' e hgt => ?_⟩, hgood, Nat.le_of_eq hsize⟩
      · show (s.read size).1 ≠ _
        rw [hdone]
        exact nofun
      · obtain rfl := Call.read.inj e
        omega
    · have hr : s.read size = (.out_of_range, s) := read_refused (Nat.lt_of_not_le hle)
      have hcall : s.call (.read size) = (.out_of_range, s) := hr
      refine ⟨⟨?_, nofun, ?_, fun _ _ _ => hcall⟩, ?_, ?_⟩ <;> rw [hcall]
      · exact h.sound
      · exact nofun
      · exact h
      · exact Nat.le_refl _
  | clear =>
    have hgood := clear_spec h hc
    exact ⟨⟨hgood.sound, fun _ => ⟨rfl, hc⟩, nofun, nofun⟩, hgood, Nat.le_refl _⟩

theorem safe_of_callOk (h : Good s) (hc : CallOk s c) : Safe s c := by
  cases c with
  | write buf => trivial
  | read size =>
    rintro rfl he
    exact hc.deref (by rw [show s.call (.read 0) = _ from read_zero_at_end h.sound he])
  | clear => exact (hc.cleared rfl).2

theorem always_iff (h : Good s) (cs : List Call)
    (hs : s.m_size + (cs.map Call.written).sum < 2 ^ 53) :
    Always CallOk s cs ↔ Always Safe s cs := by
  induction cs generalizing s with
  | nil => exact Iff.rfl
  | cons c cs ih =>
    rw [List.map_cons, List.sum_cons] at hs
    have hcall : Safe s c → (Always CallOk (s.call c).2 cs ↔ Always Safe (s.call c).2 cs) := by
      intro hsafe
      obtain ⟨-, hgood, hle⟩ := safe_call h (by omega) hsafe
      exact ih hgood (by omega)
    show CallOk s c ∧ _ ↔ Safe s c ∧ _
    constructor
    · intro hex
      obtain ⟨hok, hrest⟩ := hex
      have hsafe := safe_of_callOk h hok
      exact ⟨hsafe, (hcall hsafe).mp hrest⟩
    · intro hex
      obtain ⟨hsafe, hrest⟩ := hex
      exact ⟨(safe_call h (by omega) hsafe).1, (hcall hsafe).mpr hrest⟩

/-- **A sequence of calls goes right exactly if none of them is unsafe.** -/
theorem always_callOk_iff {b : ℕ} (hb : 1 ≤ b) (cs : List Call)
    (hs : (cs.map Call.written).sum < 2 ^ 53) :
    Always CallOk (.new b) cs ↔ Always Safe (.new b) cs :=
  always_iff (new_good hb) cs (by rw [show (ByteArray.new b).m_size = 0 from rfl, Nat.zero_add]; exact hs)

/-- nodes of 2 bytes: five are written over three of them, and the second `clear` meets `m_size` at 5 -/
theorem always_callOk_five : Always CallOk (.new 2)
    [.clear, .write [1, 2, 3, 4, 5], .clear, .read 3, .read 0] ↔ Always Safe (.new 2)
    [.clear, .write [1, 2, 3, 4, 5], .clear, .read 3, .read 0] :=
  always_callOk_iff (by decide) _ (by decide)

/-- a byte is written, then `clear` leaves `m_size` at 1 -/
theorem not_always_callOk : ¬ ∀ (b : ℕ) (cs : List Call), 1 ≤ b →
    (cs.map Call.written).sum < 2 ^ 53 → Always CallOk (.new b) cs := by
  intro hall
  obtain ⟨-, hclear, -⟩ := hall 1 [.write [7], .clear] (by decide) (by decide)
  exact absurd (hclear.cleared rfl).2 (by decide)

end
end Bytes
end CppCores
