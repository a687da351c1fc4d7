import Mathlib.Data.List.Basic
import Mathlib.Tactic.Common

/-!
# JsonUtil::Escape

* `switch_cases`      the three `switch` statements agree on which characters are escaped, and how;
* `unescape_escaped`, `escaped_clean`, `length_escaped`   what `Escape` appends is right;
* `escape_eq`         **`resize` leaves as many zero characters in front of it**;
* `escape_iff`        so `Escape` is right iff there is nothing to escape.
-/

namespace CppCores
namespace JsonUtil

/-- `std::string` -/
abbrev Str := List UInt8

/-- `JsonUtil::NeedEscape` -/
def needEscape (v : Str) : Bool :=
  v.any fun c =>
    match c with
    | 12 | 9 | 13 | 10 | 8 | 34 | 92 => true
    | _ => false

/-- what a character adds to `size` -/
def width (c : UInt8) : ℕ :=
  match c with
  | 12 | 9 | 13 | 10 | 8 | 34 | 92 => 2
  | _ => 1

/-- what is appended for a character -/
def appended (c : UInt8) : Str :=
  match c with
  | 12 => [92, 102]
  | 9 => [92, 116]
  | 13 => [92, 114]
  | 10 => [92, 110]
  | 8 => [92, 98]
  | 34 => [92, 34]
  | 92 => [92, 92]
  | c => [c]

/-- `JsonUtil::Escape`; `rt.resize(size)` fills the string with zeros -/
def escape (v : Str) : Str :=
  let size := v.foldl (fun size c => size + width c) 0
  if size = v.length then v
  else
    let rt := List.replicate size 0
    v.foldl (fun rt c => rt ++ appended c) rt

/-! ## what is asked of it -/

/-- the characters that are escaped -/
def special (c : UInt8) : Bool := [12, 9, 13, 10, 8, 34, 92].contains c

/-- the character that `\x5c` and a character stand for -/
def meaning (c : UInt8) : Option UInt8 :=
  match c with
  | 102 => some 12
  | 116 => some 9
  | 114 => some 13
  | 110 => some 10
  | 98 => some 8
  | 34 => some 34
  | 92 => some 92
  | _ => none

/-- each sequence, from the left, is replaced by what it stands for -/
def unescape : Str → Str
  | [] => []
  | [c] => [c]
  | c :: d :: rest =>
    if c = 92 then
      match meaning d with
      | some m => m :: unescape rest
      | none => c :: unescape (d :: rest)
    else c :: unescape (d :: rest)

/-- behind the sequences, from the left, no special character is left -/
def Clean : Str → Prop
  | [] => True
  | [c] => special c = false
  | c :: d :: rest =>
    if c = 92 then (meaning d).isSome ∧ Clean rest
    else special c = false ∧ Clean (d :: rest)

/-! ## the characters -/

theorem special_other {c : UInt8} (h1 : c ≠ 12) (h2 : c ≠ 9) (h3 : c ≠ 13) (h4 : c ≠ 10)
    (h5 : c ≠ 8) (h6 : c ≠ 34) (h7 : c ≠ 92) : special c = false := by
  simp [special, h1, h2, h3, h4, h5, h6, h7]

/-- **The `switch` statements agree.** -/
theorem switch_cases (c : UInt8) :
    special c = false ∧ c ≠ 92 ∧ width c = 1 ∧ appended c = [c] ∨
      ∃ d, special c = true ∧ width c = 2 ∧ appended c = [92, d] ∧ meaning d = some c := by
  unfold appended
  split
  · exact .inr ⟨102, rfl, rfl, rfl, rfl⟩
  · exact .inr ⟨116, rfl, rfl, rfl, rfl⟩
  · exact .inr ⟨114, rfl, rfl, rfl, rfl⟩
  · exact .inr ⟨110, rfl, rfl, rfl, rfl⟩
  · exact .inr ⟨98, rfl, rfl, rfl, rfl⟩
  · exact .inr ⟨34, rfl, rfl, rfl, rfl⟩
  · exact .inr ⟨92, rfl, rfl, rfl, rfl⟩
  · rename_i h1 h2 h3 h4 h5 h6 h7
    refine .inl ⟨special_other h1 h2 h3 h4 h5 h6 h7, h7, ?_, rfl⟩
    unfold width
    split <;> first | contradiction | rfl

theorem needEscape_eq (v : Str) : needEscape v = v.any special := by
  refine congrArg v.any (funext fun c => ?_)
  split
  · rfl
  · rfl
  · rfl
  · rfl
  · rfl
  · rfl
  · rfl
  · rename_i h1 h2 h3 h4 h5 h6 h7
    exact (special_other h1 h2 h3 h4 h5 h6 h7).symm

/-! ## what is appended for a string -/

/-- what the second loop appends -/
def escaped (v : Str) : Str := v.flatMap appended

theorem escaped_cons (c : UInt8) (v : Str) : escaped (c :: v) = appended c ++ escaped v :=
  List.flatMap_cons

theorem unescape_cons {c : UInt8} (hc : c ≠ 92) (s : Str) : unescape (c :: s) = c :: unescape s := by
  cases s with
  | nil => rfl
  | cons d s => rw [unescape, if_neg hc]

theorem unescape_pair {c d : UInt8} (h : meaning d = some c) (s : Str) :
    unescape (92 :: d :: s) = c :: unescape s := by
  rw [unescape, if_pos rfl, h]

theorem clean_cons {c : UInt8} (hc : c ≠ 92) (hs : special c = false) {s : Str} (h : Clean s) :
    Clean (c :: s) := by
  cases s with
  | nil => exact hs
  | cons d s =>
    rw [Clean, if_neg hc]
    exact ⟨hs, h⟩

theorem clean_pair {c d : UInt8} (h : meaning d = some c) {s : Str} (hs : Clean s) :
    Clean (92 :: d :: s) := by
  rw [Clean, if_pos rfl, h]
  exact ⟨rfl, hs⟩

/-- **What is appended can be read back.** -/
theorem unescape_escaped (v : Str) : unescape (escaped v) = v := by
  induction v with
  | nil => rfl
  | cons c v ih =>
    rw [escaped_cons]
    rcases switch_cases c with ⟨-, hc, -, happ⟩ | ⟨d, -, -, happ, hd⟩
    · rw [happ, List.singleton_append, unescape_cons hc, ih]
    · rw [happ]
      exact (unescape_pair hd (escaped v)).trans (congrArg (c :: ·) ih)

theorem escaped_clean (v : Str) : Clean (escaped v) := by
  induction v with
  | nil => exact trivial
  | cons c v ih =>
    rw [escaped_cons]
    rcases switch_cases c with ⟨hs, hc, -, happ⟩ | ⟨d, -, -, happ, hd⟩
    · rw [happ]
      exact clean_cons hc hs ih
    · rw [happ]
      exact clean_pair hd ih

theorem length_appended (c : UInt8) : (appended c).length = width c := by
  rcases switch_cases c with ⟨-, -, hw, happ⟩ | ⟨d, -, hw, happ, -⟩
  · rw [hw, happ]
    rfl
  · rw [hw, happ]
    rfl

/-- the first loop counts the characters that the second one appends -/
theorem length_escaped (v : Str) : (escaped v).length = v.length + v.countP special := by
  induction v with
  | nil => rfl
  | cons c v ih =>
    rw [escaped_cons, List.length_append, length_appended, ih, List.length_cons, List.countP_cons]
    rcases switch_cases c with ⟨hs, -, hw, -⟩ | ⟨d, hs, hw, -, -⟩
    · rw [hs, hw, if_neg (by decide)]
      omega
    · rw [hs, hw, if_pos rfl]
      omega

theorem escaped_plain {v : Str} (h : v.countP special = 0) : escaped v = v := by
  induction v with
  | nil => rfl
  | cons c v ih =>
    rw [List.countP_cons] at h
    rw [escaped_cons, ih (by omega)]
    rcases switch_cases c with ⟨-, -, -, happ⟩ | ⟨d, hs, -, -, -⟩
    · rw [happ, List.singleton_append]
    · rw [if_pos hs] at h
      omega

/-! ## Escape -/

theorem size_eq (v : Str) (size : ℕ) :
    v.foldl (fun size c => size + width c) size = size + (escaped v).length := by
  induction v generalizing size with
  | nil => rfl
  | cons c v ih =>
    rw [List.foldl_cons, ih, escaped_cons, List.length_append, length_appended, Nat.add_assoc]

theorem rt_eq (v rt : Str) : v.foldl (fun rt c => rt ++ appended c) rt = rt ++ escaped v := by
  induction v generalizing rt with
  | nil => exact (List.append_nil rt).symm
  | cons c v ih =>
    rw [List.foldl_cons, ih, escaped_cons, List.append_assoc]

/-- **In front of what is appended are as many zero characters**, unless there is nothing to escape. -/
theorem escape_eq (v : Str) :
    escape v = if v.countP special = 0 then v
      else List.replicate (v.length + v.countP special) 0 ++ escaped v := by
  have hsize : v.foldl (fun size c => size + width c) 0 = v.length + v.countP special := by
    rw [size_eq, Nat.zero_add, length_escaped]
  unfold escape
  rw [hsize]
  dsimp only
  rw [rt_eq]
  by_cases h : v.countP special = 0
  · rw [if_pos h, if_pos (by rw [h, Nat.add_zero])]
  · rw [if_neg h, if_neg (by omega)]

theorem needEscape_false_iff (v : Str) : needEscape v = false ↔ v.countP special = 0 := by
  rw [needEscape_eq, List.countP_eq_zero, List.any_eq_false]

theorem length_escape (v : Str) :
    (escape v).length = v.length + v.countP special ↔ v.countP special = 0 := by
  rw [escape_eq]
  by_cases h : v.countP special = 0
  · rw [if_pos h]
    exact iff_of_true (by rw [h, Nat.add_zero]) h
  · rw [if_neg h, List.length_append, List.length_replicate, length_escaped]
    omega

/-- what is asked of `Escape` -/
structure Reversible (v : Str) : Prop where
  unescape : unescape (escape v) = v
  clean : Clean (escape v)
  length : (escape v).length = v.length + v.countP special
  same : escape v = v ↔ needEscape v = false

/-- **`Escape` is right iff there is nothing to escape.** -/
theorem escape_iff (v : Str) : Reversible v ↔ needEscape v = false := by
  rw [needEscape_false_iff]
  constructor
  · intro h
    exact (length_escape v).mp h.length
  · intro h
    have hsame : escape v = v := by rw [escape_eq, if_pos h]
    have hplain : escaped v = v := escaped_plain h
    refine ⟨?_, ?_, (length_escape v).mpr h, iff_of_true hsame ((needEscape_false_iff v).mpr h)⟩
    · have hread := unescape_escaped v
      rw [hplain] at hread
      rw [hsame, hread]
    · have hclean := escaped_clean v
      rw [hplain] at hclean
      rwa [hsame]

/-- a quotation mark gets two zero characters in front of it -/
theorem not_reversible : ¬ ∀ v : Str, Reversible v := by
  intro hall
  have hlen := (hall [34]).length
  exact absurd hlen (by decide)

end JsonUtil
end CppCores
