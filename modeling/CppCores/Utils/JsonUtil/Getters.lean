import CppCores.Lib.Decimal
import CppCores.Utils.JsonUtil
import Mathlib.Algebra.Group.Nat.Defs

/-!
# JsonUtil: the getters of integers

`GetInt32`, `GetUint32`, `GetInt64` and `GetUint64` read a member of a JSON object: an integer of
the type, or a string that goes through `std::stoi` and its kin.  These throw, read the start of a
text, and `std::stoul` and `std::stoull` negate an unsigned number.

* `JsonCpp`           what the getters use of jsoncpp, and what it says of its numbers;
* `sto_eq`            the four functions of the standard library by what a text starts with;
* `getters_iff`       **a getter is right iff a member that is a string is an integer of the type**, or
                      is read as the default.
-/

namespace CppCores
namespace JsonUtil
open Decimal

/-! ## integer types -/

inductive IntType where
  | int32
  | uint32
  | int64
  | uint64
  deriving DecidableEq, Repr

namespace IntType

def min : IntType → ℤ
  | .int32 => -2 ^ 31
  | .uint32 => 0
  | .int64 => -2 ^ 63
  | .uint64 => 0

def max : IntType → ℤ
  | .int32 => 2 ^ 31 - 1
  | .uint32 => 2 ^ 32 - 1
  | .int64 => 2 ^ 63 - 1
  | .uint64 => 2 ^ 64 - 1

def Fits (t : IntType) (n : ℤ) : Prop := t.min ≤ n ∧ n ≤ t.max

instance instDecidableFits (t : IntType) (n : ℤ) : Decidable (t.Fits n) :=
  inferInstanceAs (Decidable (_ ∧ _))

/-- the values of the type -/
abbrev Number (t : IntType) : Type := {n : ℤ // t.Fits n}

/-- an unsigned type of `2 ^ bits` values -/
def wrap (bits : ℕ) (n : ℤ) : ℤ := n % 2 ^ bits

end IntType

/-! ## what the getters call -/

inductive Error where
  | invalid_argument
  | out_of_range
  deriving DecidableEq, Repr

/-- what the getters use of `Json::Value`: `Object` are those that are objects.  `number` is the
integer that a value is, if it is one. -/
structure JsonCpp (Object Value : Type*) where
  isMember : Object → Str → Bool
  /-- `operator[]` -/
  get : Object → Str → Value
  /-- `isInt`, `isUInt`, `isInt64`, `isUInt64` -/
  is : IntType → Value → Bool
  /-- `asInt`, `asUInt`, `asInt64`, `asUInt64` -/
  as : ∀ t : IntType, Value → t.Number
  isString : Value → Bool
  asString : Value → Str
  number : Value → Option ℤ
  is_iff : ∀ t v, is t v = true ↔ ∃ n, number v = some n ∧ t.Fits n
  as_eq : ∀ t v n, number v = some n → t.Fits n → (as t v).1 = n
  string_number : ∀ v, isString v = true → number v = none

/-- what `std::stoi` and its kin have in common: `conv` is the value of an integer, if it has one -/
def converted {t : IntType} (conv : ℤ → Option t.Number) (s : Str) : Except Error t.Number :=
  match leading s with
  | none => .error .invalid_argument
  | some n =>
    match conv n with
    | none => .error .out_of_range
    | some r => .ok r

/-- `std::stoi` and `std::stoll` -/
def stoSigned (t : IntType) : Str → Except Error t.Number :=
  converted fun n => if h : t.Fits n then some ⟨n, h⟩ else none

def stoi : Str → Except Error IntType.int32.Number := stoSigned .int32

def stoll : Str → Except Error IntType.int64.Number := stoSigned .int64

theorem fits_wrap64 (n : ℤ) : IntType.uint64.Fits (IntType.wrap 64 n) :=
  ⟨Int.emod_nonneg n (by decide), Int.le_sub_one_of_lt (Int.emod_lt_of_pos n (by decide))⟩

theorem fits_wrap32 (n : ℤ) : IntType.uint32.Fits (IntType.wrap 32 n) :=
  ⟨Int.emod_nonneg n (by decide), Int.le_sub_one_of_lt (Int.emod_lt_of_pos n (by decide))⟩

/-- `std::stoul`; a number with a minus is negated as an `unsigned long` -/
def stoul : Str → Except Error IntType.uint64.Number :=
  converted fun n => if n.natAbs < 2 ^ 64 then some ⟨IntType.wrap 64 n, fits_wrap64 n⟩ else none

/-- `std::stoull` -/
def stoull : Str → Except Error IntType.uint64.Number := stoul

/-- an `unsigned long` as a `uint32_t` -/
def narrow (n : IntType.uint64.Number) : IntType.uint32.Number :=
  ⟨IntType.wrap 32 n.1, fits_wrap32 n.1⟩

/-! ## the getters -/

section
variable {Object Value : Type*}

/-- what the getters have in common -/
def getInteger (j : JsonCpp Object Value) (t : IntType) (sto : Str → Except Error t.Number)
    (json : Object) (name : Str) (default_value : t.Number) : Except Error t.Number :=
  if j.isMember json name = false then .ok default_value
  else
    let v := j.get json name
    if j.is t v then .ok (j.as t v)
    else if j.isString v then sto (j.asString v)
    else .ok default_value

/-- `JsonUtil::GetInt32` -/
def getInt32 (j : JsonCpp Object Value) : Object → Str → IntType.int32.Number →
    Except Error IntType.int32.Number := getInteger j .int32 stoi

/-- `JsonUtil::GetUint32` -/
def getUint32 (j : JsonCpp Object Value) : Object → Str → IntType.uint32.Number →
    Except Error IntType.uint32.Number := getInteger j .uint32 fun s => (stoul s).map narrow

/-- `JsonUtil::GetInt64` -/
def getInt64 (j : JsonCpp Object Value) : Object → Str → IntType.int64.Number →
    Except Error IntType.int64.Number := getInteger j .int64 stoll

/-- `JsonUtil::GetUint64` -/
def getUint64 (j : JsonCpp Object Value) : Object → Str → IntType.uint64.Number →
    Except Error IntType.uint64.Number := getInteger j .uint64 stoull

/-- the getter of a type -/
def getter (j : JsonCpp Object Value) : ∀ t : IntType, Object → Str → t.Number →
    Except Error t.Number
  | .int32 => getInt32 j
  | .uint32 => getUint32 j
  | .int64 => getInt64 j
  | .uint64 => getUint64 j

/-! ## what is asked of them -/

/-- the member is the integer `n`, or a string that is written as `n` -/
def Holds (j : JsonCpp Object Value) (json : Object) (name : Str) (n : ℤ) : Prop :=
  j.isMember json name = true ∧ (j.number (j.get json name) = some n ∨
    j.isString (j.get json name) = true ∧ Written (j.asString (j.get json name)) n)

/-- nothing is thrown, and the result is what the member holds or the default -/
def Right (j : JsonCpp Object Value) {t : IntType} (json : Object) (name : Str)
    (default_value : t.Number) (result : Except Error t.Number) : Prop :=
  ∃ r, result = .ok r ∧ (r = default_value ∨ Holds j json name r.1)

end

/-! ## the functions of the standard library -/

/-- the one that the getter of a type calls -/
def sto : ∀ t : IntType, Str → Except Error t.Number
  | .int32 => stoi
  | .uint32 => fun s => (stoul s).map narrow
  | .int64 => stoll
  | .uint64 => stoull

namespace IntType

/-- the integers that it takes -/
def Taken (t : IntType) (n : ℤ) : Prop :=
  match t with
  | .int32 | .int64 => t.Fits n
  | .uint32 | .uint64 => n.natAbs < 2 ^ 64

/-- what it makes of them -/
def made (t : IntType) (n : ℤ) : ℤ :=
  match t with
  | .int32 | .int64 => n
  | .uint32 => wrap 32 (wrap 64 n)
  | .uint64 => wrap 64 n

theorem made_of_fits {t : IntType} {n : ℤ} (h : t.Fits n) : t.Taken n ∧ t.made n = n := by
  cases t with
  | int32 => exact ⟨h, rfl⟩
  | int64 => exact ⟨h, rfl⟩
  | uint32 =>
    have h1 : 0 ≤ n := h.1
    have h2 : n ≤ 2 ^ 32 - 1 := h.2
    have h64 : n % 2 ^ 64 = n := Int.emod_eq_of_lt h1 (by omega)
    have h32 : n % 2 ^ 32 = n := Int.emod_eq_of_lt h1 (by omega)
    refine ⟨show n.natAbs < 2 ^ 64 by omega, ?_⟩
    show n % 2 ^ 64 % 2 ^ 32 = n
    rw [h64, h32]
  | uint64 =>
    have h1 : 0 ≤ n := h.1
    have h2 : n ≤ 2 ^ 64 - 1 := h.2
    exact ⟨show n.natAbs < 2 ^ 64 by omega, Int.emod_eq_of_lt h1 (by omega)⟩

end IntType

/-- the text starts with an integer that is taken and made the default -/
def ReadAs {t : IntType} (s : Str) (default_value : t.Number) : Prop :=
  ∃ n, Begins s n ∧ t.Taken n ∧ t.made n = default_value.1

theorem converted_eq {t : IntType} {conv : ℤ → Option t.Number} {s : Str} {r : t.Number} :
    converted conv s = .ok r ↔ ∃ n, Begins s n ∧ conv n = some r := by
  simp only [← leading_iff]
  rw [converted]
  cases leading s with
  | none => exact ⟨nofun, nofun⟩
  | some n =>
    dsimp only
    cases hn : conv n with
    | none =>
      refine ⟨nofun, fun ⟨m, hm, hr⟩ => ?_⟩
      rw [← Option.some.inj hm, hn] at hr
      cases hr
    | some x =>
      refine ⟨fun h => ⟨n, rfl, ?_⟩, fun ⟨m, hm, hr⟩ => ?_⟩
      · rw [hn, Except.ok.inj h]
      · rw [← Option.some.inj hm, hn] at hr
        rw [Option.some.inj hr]

theorem stoSigned_eq {t : IntType} {s : Str} {r : t.Number} :
    stoSigned t s = .ok r ↔ ∃ n, Begins s n ∧ t.Fits n ∧ n = r.1 := by
  rw [stoSigned, converted_eq]
  refine exists_congr fun n => and_congr_right fun _ => ?_
  constructor
  · intro h
    obtain ⟨hn, h⟩ := Option.dite_none_right_eq_some.mp h
    exact ⟨hn, congrArg Subtype.val (Option.some.inj h)⟩
  · rintro ⟨hn, hr⟩
    rw [dif_pos hn]
    exact congrArg some (Subtype.ext hr)

theorem stoul_eq {s : Str} {r : IntType.uint64.Number} :
    stoul s = .ok r ↔ ∃ n, Begins s n ∧ n.natAbs < 2 ^ 64 ∧ IntType.wrap 64 n = r.1 := by
  rw [stoul, converted_eq]
  refine exists_congr fun n => and_congr_right fun _ => ?_
  rw [Option.ite_none_right_eq_some, Option.some.injEq, Subtype.ext_iff]

/-- **The four functions take what a text starts with.** -/
theorem sto_eq {t : IntType} {s : Str} {r : t.Number} : sto t s = .ok r ↔ ReadAs s r := by
  cases t with
  | int32 => exact stoSigned_eq
  | int64 => exact stoSigned_eq
  | uint64 => exact stoul_eq
  | uint32 =>
    constructor
    · intro h
      obtain ⟨m, hm, rfl⟩ : ∃ m, stoul s = .ok m ∧ narrow m = r := by
        cases hs : stoul s with
        | error e =>
          have h : (stoul s).map narrow = .ok r := h
          rw [hs] at h
          cases h
        | ok m =>
          have h : (stoul s).map narrow = .ok r := h
          rw [hs] at h
          exact ⟨m, rfl, Except.ok.inj h⟩
      obtain ⟨n, hn, htaken, hmade⟩ := stoul_eq.mp hm
      exact ⟨n, hn, htaken, congrArg (IntType.wrap 32) hmade⟩
    · rintro ⟨n, hn, htaken, hmade⟩
      have hs : stoul s = .ok ⟨IntType.wrap 64 n, fits_wrap64 n⟩ := stoul_eq.mpr ⟨n, hn, htaken, rfl⟩
      show (stoul s).map narrow = .ok r
      rw [hs]
      exact congrArg Except.ok (Subtype.ext hmade)

theorem sto_written {t : IntType} {s : Str} {n : ℤ} (hs : Written s n) (hn : t.Fits n) :
    sto t s = .ok ⟨n, hn⟩ := by
  obtain ⟨htaken, hmade⟩ := IntType.made_of_fits hn
  exact sto_eq.mpr ⟨n, hs.begins, htaken, hmade⟩

/-! ## when a getter is right -/

section
variable {Object Value : Type*} (j : JsonCpp Object Value)

/-- the getters differ in the functions they call only -/
theorem getter_eq (t : IntType) : getter j t = getInteger j t (sto t) := by
  cases t <;> rfl

variable {j} {t : IntType} {json : Object} {name : Str} {default_value : t.Number}

theorem right_number (hm : j.isMember json name = true) (hi : j.is t (j.get json name) = true) :
    Right j json name default_value (.ok (j.as t (j.get json name))) := by
  obtain ⟨n, hn, hfits⟩ := (j.is_iff t _).mp hi
  refine ⟨_, rfl, .inr ⟨hm, .inl ?_⟩⟩
  rw [j.as_eq t _ n hn hfits]
  exact hn

theorem right_string (hm : j.isMember json name = true)
    (hs : j.isString (j.get json name) = true) :
    Right j json name default_value (sto t (j.asString (j.get json name))) ↔
      (∃ n, Written (j.asString (j.get json name)) n ∧ t.Fits n) ∨
        ReadAs (j.asString (j.get json name)) default_value := by
  constructor
  · rintro ⟨r, hr, rfl | ⟨-, hn | ⟨-, hw⟩⟩⟩
    · exact .inr (sto_eq.mp hr)
    · rw [j.string_number _ hs] at hn
      cases hn
    · exact .inl ⟨r.1, hw, r.2⟩
  · rintro (⟨n, hw, hfits⟩ | hread)
    · exact ⟨_, sto_written hw hfits, .inr ⟨hm, .inr ⟨hs, hw⟩⟩⟩
    · exact ⟨_, sto_eq.mpr hread, .inl rfl⟩

end

theorem getters_iff {Object Value : Type*} (j : JsonCpp Object Value) (t : IntType) (json : Object)
    (name : Str) (default_value : t.Number) :
    Right j json name default_value (getter j t json name default_value) ↔
      (j.isMember json name = true → j.isString (j.get json name) = true →
        (∃ n, Written (j.asString (j.get json name)) n ∧ t.Fits n) ∨
          ReadAs (j.asString (j.get json name)) default_value) := by
  have hdefault : Right j json name default_value (.ok default_value) := ⟨_, rfl, .inl rfl⟩
  rw [getter_eq, getInteger]
  by_cases hm : j.isMember json name = true
  · rw [if_neg (by rw [hm]; exact Bool.noConfusion)]
    dsimp only
    by_cases hi : j.is t (j.get json name) = true
    · rw [if_pos hi]
      refine iff_of_true (right_number hm hi) fun _ hs => ?_
      obtain ⟨n, hn, -⟩ := (j.is_iff t _).mp hi
      rw [j.string_number _ hs] at hn
      cases hn
    · rw [if_neg hi]
      by_cases hs : j.isString (j.get json name) = true
      · rw [if_pos hs, right_string hm hs]
        exact ⟨fun h _ _ => h, fun h => h hm hs⟩
      · rw [if_neg hs]
        exact iff_of_true hdefault fun _ hs' => absurd hs' hs
  · rw [if_pos (Bool.not_eq_true _ |>.mp hm)]
    exact iff_of_true hdefault fun hm' => absurd hm' hm

/-! ## objects as lists of members -/

inductive Member where
  | number (n : ℤ)
  | text (s : Str)
  | other
  deriving DecidableEq, Repr

theorem fits_zero (t : IntType) : t.Fits 0 := by
  cases t <;> decide

def listed : JsonCpp (List (Str × Member)) Member where
  isMember json name := (json.lookup name).isSome
  get json name := (json.lookup name).getD .other
  is
    | t, .number n => decide (t.Fits n)
    | _, _ => false
  as
    | t, .number n => if h : t.Fits n then ⟨n, h⟩ else ⟨0, fits_zero t⟩
    | t, _ => ⟨0, fits_zero t⟩
  isString
    | .text _ => true
    | _ => false
  asString
    | .text s => s
    | _ => []
  number
    | .number n => some n
    | _ => none
  is_iff := by
    rintro t (n | s | _)
    · simp
    · simp
    · simp
  as_eq := by
    rintro t (m | s | _) n hn hfits
    · obtain rfl := Option.some.inj hn
      exact congrArg Subtype.val (dif_pos hfits)
    · cases hn
    · cases hn
  string_number := by
    rintro (n | s | _) h
    · cases h
    · rfl
    · cases h

/-- `{"n": "4294967301"}` -/
theorem getUint32_wraps : ¬ ∀ (t : IntType) (json : List (Str × Member)) (name : Str)
    (default_value : t.Number),
    Right listed json name default_value (getter listed t json name default_value) := by
  intro h
  obtain ⟨r, hr, hright⟩ := h .uint32
    [([110], .text [52, 50, 57, 52, 57, 54, 55, 51, 48, 49])] [110] ⟨0, fits_zero _⟩
  have hfive : (5 : ℤ) = r.1 := congrArg (fun x : Except Error _ => x.toOption.map Subtype.val) hr
    |> Option.some.inj
  rcases hright with rfl | ⟨-, hn | ⟨-, hw⟩⟩
  · exact absurd hfive (by decide)
  · cases hn
  · have hlead := leading_iff.mpr hw.begins
    rw [← hfive] at hlead
    exact absurd hlead (by decide)

end JsonUtil
end CppCores
