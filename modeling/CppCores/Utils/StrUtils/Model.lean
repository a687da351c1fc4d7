import CppCores.Lib.Loop
import CppCores.Lib.Cuts

/-!
# The string functions of `utils/str_utils.cc`

A `std::string` is the list of its characters, a position is a number, and `npos` is `none`.  The
functions with a loop get the number of turns that it may make: `none` is a call that is not over by
then.

* `substr`, `find`, `findFirstOf`, `rfind`      what the functions need of `std::string`;
* `replaceCharChar`, `replaceCharStr`, `replaceStr`   the overloads of `replace`;
* `splitChar`, `splitDelims`                    the overloads of `split`, which share `splitBy`;
* `startWithPrefix`, `endWithSuffix`, `removePrefix`, `removeSuffix`.
-/

namespace CppCores
namespace StrUtils

/-- `std::string` -/
abbrev Str := List UInt8

/-- what a call may throw -/
inductive Exn where
  | outOfRange
  deriving DecidableEq, Repr

/-! ## std::string -/

/-- `str.substr(pos)` -/
def substrFrom (str : Str) (pos : ℕ) : Except Exn Str :=
  if pos ≤ str.length then .ok (str.drop pos) else .error .outOfRange

/-- `str.substr(pos, count)` -/
def substr (str : Str) (pos count : ℕ) : Except Exn Str :=
  (substrFrom str pos).map fun rest => rest.take count

/-- `str.find(what, pos)` -/
def find (what str : Str) (pos : ℕ) : Option ℕ := findFrom what str pos

/-- `str.find(c, pos)` -/
def findChar (c : UInt8) (str : Str) (pos : ℕ) : Option ℕ := findElem (· == c) str pos

/-- `str.find_first_of(chars, pos)`: any of these characters -/
def findFirstOf (chars str : Str) (pos : ℕ) : Option ℕ := findElem (chars.contains ·) str pos

/-- `str.rfind(what)` -/
def rfind (what str : Str) : Option ℕ := findLast what str

theorem substrFrom_ok {str : Str} {pos : ℕ} (h : pos ≤ str.length) :
    substrFrom str pos = .ok (str.drop pos) := if_pos h

theorem substr_ok {str : Str} {pos : ℕ} (h : pos ≤ str.length) (count : ℕ) :
    substr str pos count = .ok ((str.drop pos).take count) := by
  rw [substr, substrFrom_ok h]
  rfl

/-! ## replace -/

/-- the string in which is replaced, and `index` -/
structure Scan where
  str : Str
  index : Option ℕ
  deriving DecidableEq, Repr

/-- the loop for a character that replaces a character -/
def replaceCharTurn (c replaceWith : UInt8) : Scan → Except Exn (Turn Scan Str)
  | ⟨str, none⟩ => .ok (.leave str)
  | ⟨str, some index⟩ =>
    let str := str.set index replaceWith
    .ok (.again ⟨str, findChar c str (index + 1)⟩)

/-- the loop for a string that replaces what `search` finds, which has `size` characters -/
def replaceTurn (search : Str → ℕ → Option ℕ) (size : ℕ) (replaceWith : Str) :
    Scan → Except Exn (Turn Scan Str)
  | ⟨str, none⟩ => .ok (.leave str)
  | ⟨str, some index⟩ => do
    let head ← substr str 0 index
    let tail ← substrFrom str (index + size)
    let str := head ++ replaceWith ++ tail
    return .again ⟨str, search str (index + replaceWith.length)⟩

/-- `replace(const std::string &, char, char)` -/
def replaceCharChar (fuel : ℕ) (str1 : Str) (c replaceWith : UInt8) : Option (Except Exn Str) :=
  turns (replaceCharTurn c replaceWith) fuel ⟨str1, findChar c str1 0⟩

/-- `replace(const std::string &, char, const std::string &)` -/
def replaceCharStr (fuel : ℕ) (str1 : Str) (c : UInt8) (replaceWith : Str) :
    Option (Except Exn Str) :=
  turns (replaceTurn (findChar c) 1 replaceWith) fuel ⟨str1, findChar c str1 0⟩

/-- `replace(const std::string &, const std::string &, const std::string &)` -/
def replaceStr (fuel : ℕ) (str1 what replaceWith : Str) : Option (Except Exn Str) :=
  turns (replaceTurn (find what) what.length replaceWith) fuel ⟨str1, find what str1 0⟩

/-! ## split -/

/-- a C string: the characters in front of the terminating 0 -/
structure CStr where
  chars : List UInt8
  no_zero : 0 ∉ chars

/-- the variables of `split` -/
structure Split where
  result : List Str
  last : ℕ
  pos : Option ℕ
  max : UInt64
  deriving DecidableEq, Repr

/-- behind the loop: `result.push_back(str.substr(last))` -/
def splitRest (str : Str) (result : List Str) (last : ℕ) : Except Exn (Turn Split (List Str)) := do
  let rest ← substrFrom str last
  return .leave (result ++ [rest])

/-- one piece; `--max` wraps at 0 -/
def splitTurn (delim : UInt8 → Bool) (str : Str) : Split → Except Exn (Turn Split (List Str))
  | ⟨result, last, none, _⟩ => splitRest str result last
  | ⟨result, last, some pos, max⟩ => do
    let piece ← substr str last (pos - last)
    let result := result ++ [piece]
    let last := pos + 1
    let max := max - 1
    if max = 1 then splitRest str result last
    else return .again ⟨result, last, findElem delim str last, max⟩

/-- what the overloads of `split` share: `find` and `find_first_of` look for the next delimiter -/
def splitBy (fuel : ℕ) (delim : UInt8 → Bool) (str : Str) (max : UInt64) :
    Option (Except Exn (List Str)) :=
  if str.isEmpty then some (.ok [])
  else turns (splitTurn delim str) fuel ⟨[], 0, findElem delim str 0, max⟩

/-- `split(const std::string &, char, size_t)` -/
def splitChar (fuel : ℕ) (str : Str) (delim : UInt8) (max : UInt64) :
    Option (Except Exn (List Str)) :=
  splitBy fuel (· == delim) str max

/-- `split(const std::string &, const char *, size_t)` -/
def splitDelims (fuel : ℕ) (str : Str) (delims : CStr) (max : UInt64) :
    Option (Except Exn (List Str)) :=
  splitBy fuel (delims.chars.contains ·) str max

/-- the default of `max`: `~0` is an `int`, which is converted to `size_t` -/
def maxDefault : UInt64 := UInt64.ofInt (-1)

/-! ## prefixes and suffixes -/

/-- `StartWithPrefix` -/
def startWithPrefix (str pre : Str) : Bool :=
  let pos := findFirstOf pre str 0
  pos == some 0

/-- `EndWithSuffix` -/
def endWithSuffix (str suffix : Str) : Bool :=
  if suffix.length > str.length then false
  else
    let pos := rfind suffix str
    pos != none && pos == some (str.length - suffix.length)

/-- `RemovePrefix` -/
def removePrefix (str pre : Str) : Except Exn Str :=
  let pos := findFirstOf pre str 0
  if pos = some 0 then substrFrom str pre.length else .ok str

/-- `RemoveSuffix` -/
def removeSuffix (str suffix : Str) : Except Exn Str :=
  if suffix.length > str.length then .ok str
  else
    match rfind suffix str with
    | none => .ok str
    | some pos => if pos = str.length - suffix.length then substr str 0 pos else .ok str

end StrUtils
end CppCores
