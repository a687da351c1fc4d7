import CppCores.Lib.Bits
import CppCores.Lib.Decimal

/-!
# The functions of `<ctype.h>` in the "C" locale

They take an `int` that is an `unsigned char` or `EOF`; any other is undefined.  A `char` is signed, so
that a `char` handed on as it is must be one of ASCII, or 0xff, which is `EOF`.

* `Plain`           the bytes of those;
* `isspace_char`    `isspace` of a `char`.
-/

namespace CppCores
namespace Ctype
open Decimal (blank)

/-- `EOF` -/
def EOF : ℤ := -1

/-- an `unsigned char` or `EOF` -/
def InRange (c : ℤ) : Prop := c = EOF ∨ (0 ≤ c ∧ c < 256)

instance (c : ℤ) : Decidable (InRange c) := inferInstanceAs (Decidable (_ ∨ _))

def isspace (c : ℤ) : Option Bool :=
  if InRange c then some (decide (c = 32 ∨ (9 ≤ c ∧ c ≤ 13))) else none

def tolower (c : ℤ) : Option ℤ :=
  if InRange c then some (if 65 ≤ c ∧ c ≤ 90 then c + 32 else c) else none

def toupper (c : ℤ) : Option ℤ :=
  if InRange c then some (if 97 ≤ c ∧ c ≤ 122 then c - 32 else c) else none

/-- the `int` of a `char` -/
def charToInt (c : UInt8) : ℤ := c.toInt8.toInt

/-- a character of ASCII, or 0xff, whose `char` is `EOF` -/
def Plain (c : UInt8) : Prop := c < 128 ∨ c = 255

instance (c : UInt8) : Decidable (Plain c) := inferInstanceAs (Decidable (_ ∨ _))

theorem isspace_char (c : UInt8) :
    isspace (charToInt c) = if Plain c then some (blank c) else none := by
  revert c
  exact forall_byte (by decide +kernel)

theorem plain_of_blank {c : UInt8} (h : blank c = true) : Plain c := by
  refine .inl ?_
  simp only [blank, Bool.or_eq_true, beq_iff_eq, Bool.and_eq_true, decide_eq_true_eq] at h
  rcases h with rfl | ⟨-, h⟩
  · decide
  · exact UInt8.lt_of_le_of_lt h (by decide)

end Ctype
end CppCores
