import CppCores.Lib.Ctype
import CppCores.Utils.Ascii
import CppCores.Utils.StrUtils.Model

/-!
# toLower and toUpper: `utils/str_utils.cc`

Either has an overload that returns a new string and one that changes its argument.  The first hands
`std::tolower` a `char`, which is signed, and the second an `unsigned char`; an argument that is neither
a byte nor `EOF` is undefined behaviour.

* `inPlace_eq`    the second overload does what `Ascii::ToLower` or `Ascii::ToUpper` does;
* `byValue_eq`    the first does the same, where it is defined;
* `cases_agree`   **when the overloads agree, and that the cases of a string give each other.**
-/

namespace CppCores
namespace StrUtils
open Ascii Ctype

/-! ## the code -/

/-- `f` on each `char` -/
def byValue (f : ℤ → Option ℤ) (str : Str) : Option Str :=
  str.mapM fun ch => (f (charToInt ch)).map UInt8.ofInt

/-- `f` on each `unsigned char` -/
def inPlace (f : ℤ → Option ℤ) (str : Str) : Option Str :=
  str.mapM fun c => (f c.toNat).map UInt8.ofInt

def toLower (str : Str) : Option Str := byValue tolower str

/-- the overload for `std::string *` -/
def toLowerPtr (str : Str) : Option Str := inPlace tolower str

def toUpper (str : Str) : Option Str := byValue toupper str

/-- the overload for `std::string *` -/
def toUpperPtr (str : Str) : Option Str := inPlace toupper str

/-! ## one character -/

/-- the strings on which the overload by value is defined -/
def AllPlain (str : Str) : Prop := ∀ c ∈ str, Plain c

instance (str : Str) : Decidable (AllPlain str) := List.decidableBAll Plain str

theorem tolower_byte (c : UInt8) : (tolower c.toNat).map UInt8.ofInt = some (ToLower c) := by
  rw [toLower_eq]
  revert c
  exact forall_byte (by decide +kernel)

theorem toupper_byte (c : UInt8) : (toupper c.toNat).map UInt8.ofInt = some (ToUpper c) := by
  rw [toUpper_eq]
  revert c
  exact forall_byte (by decide +kernel)

theorem tolower_char (c : UInt8) : (tolower (charToInt c)).map UInt8.ofInt =
    if Plain c then some (ToLower c) else none := by
  rw [toLower_eq]
  revert c
  exact forall_byte (by decide +kernel)

theorem toupper_char (c : UInt8) : (toupper (charToInt c)).map UInt8.ofInt =
    if Plain c then some (ToUpper c) else none := by
  rw [toUpper_eq]
  revert c
  exact forall_byte (by decide +kernel)

theorem plain_toLower (c : UInt8) : Plain (ToLower c) ↔ Plain c := by
  rw [toLower_eq]
  revert c
  exact forall_byte (by decide +kernel)

theorem plain_toUpper (c : UInt8) : Plain (ToUpper c) ↔ Plain c := by
  rw [toUpper_eq]
  revert c
  exact forall_byte (by decide +kernel)

/-! ## strings -/

section
variable {f : ℤ → Option ℤ} {g : UInt8 → UInt8}

theorem inPlace_eq (hf : ∀ c : UInt8, (f c.toNat).map UInt8.ofInt = some (g c)) (str : Str) :
    inPlace f str = some (str.map g) := by
  induction str with
  | nil => rfl
  | cons c str ih =>
    rw [inPlace] at ih ⊢
    rw [List.mapM_cons, hf c, ih]
    rfl

theorem allPlain_cons (c : UInt8) (str : Str) : AllPlain (c :: str) ↔ Plain c ∧ AllPlain str :=
  List.forall_mem_cons

theorem byValue_eq
    (hf : ∀ c : UInt8, (f (charToInt c)).map UInt8.ofInt = if Plain c then some (g c) else none)
    (str : Str) : byValue f str = if AllPlain str then some (str.map g) else none := by
  induction str with
  | nil =>
    have hnil : AllPlain [] := fun c hc => absurd hc List.not_mem_nil
    rw [if_pos hnil]
    rfl
  | cons c str ih =>
    rw [byValue] at ih ⊢
    rw [List.mapM_cons, hf c, ih]
    by_cases hc : Plain c
    · rw [if_pos hc]
      by_cases hs : AllPlain str
      · rw [if_pos hs, if_pos ((allPlain_cons c str).mpr ⟨hc, hs⟩)]
        rfl
      · rw [if_neg hs, if_neg fun h => hs ((allPlain_cons c str).mp h).2]
        rfl
    · rw [if_neg hc, if_neg fun h => hc ((allPlain_cons c str).mp h).1]
      rfl

end

theorem map_toUpper_toLower (str : Str) : (str.map ToLower).map ToUpper = str.map ToUpper := by
  rw [List.map_map]
  exact List.map_congr_left fun c _ => toUpper_toLower c

theorem map_toLower_toUpper (str : Str) : (str.map ToUpper).map ToLower = str.map ToLower := by
  rw [List.map_map]
  exact List.map_congr_left fun c _ => toLower_toUpper c

theorem map_toLower_eq_iff (s r : Str) :
    s.map ToLower = r.map ToLower ↔ s.map ToUpper = r.map ToUpper := by
  constructor
  · intro h
    rw [← map_toUpper_toLower s, h, map_toUpper_toLower]
  · intro h
    rw [← map_toLower_toUpper s, h, map_toLower_toUpper]

theorem allPlain_map {g : UInt8 → UInt8} (hg : ∀ c, Plain (g c) ↔ Plain c) (str : Str) :
    AllPlain (str.map g) ↔ AllPlain str := by
  rw [AllPlain, List.forall_mem_map]
  exact forall₂_congr fun c _ => hg c

/-- **The overloads agree on a string of ASCII characters and bytes 0xff; on any other the one by value
is undefined.  The cases of a string give each other, and strings with the same small letters have the
same capital ones.** -/
theorem cases_agree (str : Str) :
    toLowerPtr str = some (str.map ToLower) ∧ toUpperPtr str = some (str.map ToUpper) ∧
      toLower str = (if AllPlain str then toLowerPtr str else none) ∧
      toUpper str = (if AllPlain str then toUpperPtr str else none) ∧
      (toUpper str).bind toLower = toLower str ∧ (toLower str).bind toUpper = toUpper str ∧
      ∀ str', toLowerPtr str = toLowerPtr str' ↔ toUpperPtr str = toUpperPtr str' := by
  have hlp : ∀ s, toLowerPtr s = some (s.map ToLower) := inPlace_eq tolower_byte
  have hup : ∀ s, toUpperPtr s = some (s.map ToUpper) := inPlace_eq toupper_byte
  have hl := byValue_eq tolower_char
  have hu := byValue_eq toupper_char
  refine ⟨hlp str, hup str, ?_, ?_, ?_, ?_, fun str' => ?_⟩
  · rw [hlp]
    exact hl str
  · rw [hup]
    exact hu str
  · rw [toUpper, toLower, hu, hl]
    split
    · rename_i h
      rw [Option.bind_some, toLower, hl, if_pos ((allPlain_map plain_toUpper str).mpr h),
        map_toLower_toUpper]
    · rfl
  · rw [toUpper, toLower, hu, hl]
    split
    · rename_i h
      rw [Option.bind_some, toUpper, hu, if_pos ((allPlain_map plain_toLower str).mpr h),
        map_toUpper_toLower]
    · rfl
  · rw [hlp, hlp, hup, hup, Option.some_inj, Option.some_inj]
    exact map_toLower_eq_iff str str'

end StrUtils
end CppCores
