import CppCores.Lib.Bits

/-!
# Ascii: the classes of characters of `utils/ascii.h`

A table gives the classes of each of the 256 characters as bits.  A `char` is its byte.

* `isUpper_iff`, `isLower_iff`   the letters;
* `classes`                      how the classes of a character lie to each other;
* `toLower_toUpper`, `toUpper_toLower`   either case of a character gives the other.
-/

namespace CppCores
namespace Ascii

/-! ## the code -/

/-! `CharTypeMask` -/

def kUpper : UInt16 := 1
def kLower : UInt16 := 2
def kDigit : UInt16 := 4
def kHexDigit : UInt16 := 8
def kBlank : UInt16 := 16
def kSpace : UInt16 := 32
def kControl : UInt16 := 64
def kPunct : UInt16 := 128
def kPrint : UInt16 := 256
def kGraph : UInt16 := 512

/-- `table` up to 0x7f, with equal neighbours taken together -/
def table : List UInt16 :=
  List.replicate 9 kControl ++ (kBlank ||| kSpace ||| kControl) ::  -- up to the tab
    (List.replicate 4 (kSpace ||| kControl) ++ (List.replicate 18 kControl ++
    (kBlank ||| kSpace ||| kPrint) ::  -- the blank
    (List.replicate 15 (kPunct ||| kGraph ||| kPrint) ++
    (List.replicate 10 (kDigit ||| kHexDigit ||| kGraph ||| kPrint) ++
    (List.replicate 7 (kPunct ||| kGraph ||| kPrint) ++
    (List.replicate 6 (kUpper ||| kHexDigit ||| kGraph ||| kPrint) ++
    (List.replicate 20 (kUpper ||| kGraph ||| kPrint) ++
    (List.replicate 6 (kPunct ||| kGraph ||| kPrint) ++
    (List.replicate 6 (kLower ||| kHexDigit ||| kGraph ||| kPrint) ++
    (List.replicate 20 (kLower ||| kGraph ||| kPrint) ++
    (List.replicate 4 (kPunct ||| kGraph ||| kPrint) ++ [kControl])))))))))))

/-- all others are 0 -/
def GetCharTypeMask (c : UInt8) : UInt16 := table.getD c.toNat 0

def CharIncludeAnyTypeMask (c : UInt8) (mask : UInt16) : Bool := GetCharTypeMask c &&& mask != 0

def IsValid (c : UInt8) : Bool := c &&& 0x80 == 0
def IsLower (c : UInt8) : Bool := CharIncludeAnyTypeMask c kLower
def IsUpper (c : UInt8) : Bool := CharIncludeAnyTypeMask c kUpper
def IsAlpha (c : UInt8) : Bool := CharIncludeAnyTypeMask c (kUpper ||| kLower)
def IsDigit (c : UInt8) : Bool := CharIncludeAnyTypeMask c kDigit
def IsAlphaNumber (c : UInt8) : Bool := CharIncludeAnyTypeMask c (kUpper ||| kLower ||| kDigit)
def IsBlank (c : UInt8) : Bool := CharIncludeAnyTypeMask c kBlank
def IsSpace (c : UInt8) : Bool := CharIncludeAnyTypeMask c kSpace
def IsControl (c : UInt8) : Bool := CharIncludeAnyTypeMask c kControl
def IsPunct (c : UInt8) : Bool := CharIncludeAnyTypeMask c kPunct
def IsHexDigit (c : UInt8) : Bool := CharIncludeAnyTypeMask c kHexDigit
def IsGraph (c : UInt8) : Bool := CharIncludeAnyTypeMask c kGraph
def IsPrint (c : UInt8) : Bool := CharIncludeAnyTypeMask c kPrint

/-- `'a' - 'A'` is 32 -/
def ToLower (c : UInt8) : UInt8 := if IsUpper c then c + (97 - 65) else c
def ToUpper (c : UInt8) : UInt8 := if IsLower c then c - (97 - 65) else c

/-! ## the classes -/

/-- the table by ranges -/
def maskOf (n : ℕ) : UInt16 :=
  if n < 9 then 64 else if n = 9 then 112 else if n < 14 then 96 else if n < 32 then 64
  else if n = 32 then 304 else if n < 48 then 896 else if n < 58 then 780 else if n < 65 then 896
  else if n < 71 then 777 else if n < 91 then 769 else if n < 97 then 896 else if n < 103 then 778
  else if n < 123 then 770 else if n < 127 then 896 else if n = 127 then 64 else 0

theorem mask_eq (c : UInt8) : GetCharTypeMask c = maskOf c.toNat := by
  revert c
  exact forall_byte (by decide +kernel)

theorem include_eq (c : UInt8) (mask : UInt16) :
    CharIncludeAnyTypeMask c mask = (maskOf c.toNat &&& mask != 0) := by
  rw [CharIncludeAnyTypeMask, mask_eq]

theorem isUpper_iff (c : UInt8) : IsUpper c = true ↔ 65 ≤ c ∧ c ≤ 90 := by
  rw [IsUpper, include_eq]
  revert c
  exact forall_byte (by decide +kernel)

theorem isLower_iff (c : UInt8) : IsLower c = true ↔ 97 ≤ c ∧ c ≤ 122 := by
  rw [IsLower, include_eq]
  revert c
  exact forall_byte (by decide +kernel)

/-- **How the classes lie to each other**: a valid character is a control character, the blank, a letter,
a digit or a mark, and only one of these; the others have no class. -/
theorem classes (c : UInt8) :
    [IsControl c, c == 32, IsUpper c, IsLower c, IsDigit c, IsPunct c].count true =
        (if IsValid c then 1 else 0) ∧
      IsAlpha c = (IsUpper c || IsLower c) ∧ IsAlphaNumber c = (IsAlpha c || IsDigit c) ∧
      IsGraph c = (IsAlphaNumber c || IsPunct c) ∧ IsPrint c = (IsGraph c || c == 32) ∧
      (IsBlank c → IsSpace c) ∧ (IsSpace c → IsControl c ∨ c = 32) ∧
      (IsDigit c → IsHexDigit c) ∧ (IsHexDigit c → IsAlphaNumber c) := by
  unfold IsControl IsUpper IsLower IsDigit IsPunct IsAlpha IsAlphaNumber IsGraph IsPrint IsBlank IsSpace
    IsHexDigit
  simp only [include_eq]
  revert c
  exact forall_byte (by decide +kernel)

/-! ## the two cases -/

theorem toLower_eq (c : UInt8) : ToLower c = if 65 ≤ c ∧ c ≤ 90 then c + 32 else c := by
  rw [ToLower]
  exact if_congr (isUpper_iff c) rfl rfl

theorem toUpper_eq (c : UInt8) : ToUpper c = if 97 ≤ c ∧ c ≤ 122 then c - 32 else c := by
  rw [ToUpper]
  exact if_congr (isLower_iff c) rfl rfl

theorem toUpper_toLower (c : UInt8) : ToUpper (ToLower c) = ToUpper c := by
  rw [toUpper_eq, toUpper_eq, toLower_eq]
  revert c
  exact forall_byte (by decide +kernel)

theorem toLower_toUpper (c : UInt8) : ToLower (ToUpper c) = ToLower c := by
  rw [toLower_eq, toLower_eq, toUpper_eq]
  revert c
  exact forall_byte (by decide +kernel)

end Ascii
end CppCores
