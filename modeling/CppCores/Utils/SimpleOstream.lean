import CppCores.Lib.Bits
import CppCores.Lib.Blocks
import CppCores.Lib.CallDepth

/-!
# EncodeToStream and DecodeFromStream: `utils/simple_ostream.h`

A call names its arguments only, so that the compiler chooses an overload by their types.  The value
of a trivially copyable type is the list of its bytes.  A stream in memory writes all that it is
given; a read that finds too few bytes ends the stream.

`T` stands in no parameter of the overloads for `std::string`, so it cannot be deduced and they are
never chosen: the only overload for one string is the variadic one, which calls itself with the same
argument.

* `encode_returns`, `decode_returns`     what the calls do for values that are trivially copyable;
* `encode_diverges`, `decode_diverges`   a call with a string among its values does not return;
* `roundTrips_iff`                       **the two calls fit together iff no value is a string**;
* `string_overload`                      the overloads for strings, if they were chosen, would fit.
-/

namespace CppCores
namespace SimpleOstream
open CallDepth

/-! ## streams -/

/-- a `std::ostream` that writes to memory -/
structure OStream where
  bytes : List UInt8
  good : Bool
  deriving DecidableEq, Repr

def OStream.write (os : OStream) (data : List UInt8) : OStream :=
  if os.good then { os with bytes := os.bytes ++ data } else os

/-- a `std::istream` and what is left to be read -/
structure IStream where
  bytes : List UInt8
  good : Bool
  deriving DecidableEq, Repr

/-- `read` into a variable with the bytes `old` -/
def IStream.read (is : IStream) (old : List UInt8) : List UInt8 × IStream :=
  if is.good then
    if old.length ≤ is.bytes.length then
      (is.bytes.take old.length, { is with bytes := is.bytes.drop old.length })
    else (is.bytes ++ old.drop is.bytes.length, ⟨[], false⟩)
  else (old, is)

/-! ## arguments and overloads -/

inductive Value where
  /-- of a trivially copyable type -/
  | fixed (bytes : List UInt8)
  | str (content : List UInt8)
  deriving DecidableEq, Repr

inductive Ty where
  /-- a trivially copyable type of `size` bytes -/
  | fixed (size : ℕ)
  | string
  deriving DecidableEq, Repr

def Value.type : Value → Ty
  | .fixed bytes => .fixed bytes.length
  | .str _ => .string

inductive Overload where
  /-- for a `T` that is trivially copyable and is not `std::string` -/
  | copyable
  /-- for `std::string` -/
  | string
  /-- for a `T` and `Args ...` -/
  | variadic
  deriving DecidableEq, Repr

/-- the overload can be called with arguments of these types -/
def Overload.viable : Overload → List Ty → Bool
  | .copyable, [.fixed _] => true
  | .copyable, _ => false
  -- `T` is in the `enable_if_t` only, where it is not deduced
  | .string, _ => false
  | .variadic, types => !types.isEmpty

/-- the overload that is chosen: one without a parameter pack goes before the variadic one -/
def overload (types : List Ty) : Option Overload :=
  [.copyable, .string, .variadic].find? fun o => o.viable types

/-! ## the functions -/

/-- the bodies of the overloads of `EncodeToStream` -/
def encodeOverload (call : List Value × OStream → Option (Bool × OStream)) :
    Overload → List Value → OStream → Option (Bool × OStream)
  | .copyable, [.fixed value], os =>
    let os := os.write value
    some (os.good, os)
  | .string, [.str value], os =>
    (call ([.fixed (leBytes 8 value.length)], os)).map fun r =>
      let os := r.2.write value
      (os.good, os)
  | .variadic, [t], os => call ([t], os)
  | .variadic, t :: args, os =>
    (call ([t], os)).bind fun r => if r.1 then call (args, r.2) else some r
  | _, _, _ => none

def EncodeToStream (call : List Value × OStream → Option (Bool × OStream))
    (a : List Value × OStream) : Option (Bool × OStream) :=
  (overload (a.1.map Value.type)).bind fun o => encodeOverload call o a.1 a.2

inductive Outcome where
  | returned (answer : Bool)
  | thrown
  deriving DecidableEq, Repr

/-- the number in a variable of type `size_type` -/
def sizeIn : List Value → ℕ
  | [.fixed bytes] => ofLe bytes
  | _ => 0

/-- the bodies of the overloads of `DecodeFromStream`; the variables come with what they hold.  `junk`
is what is in a local variable before it is written, and `resize` throws for more than `max_size`
bytes. -/
def decodeOverload (max_size : ℕ) (junk : List UInt8)
    (call : List Value × IStream → Option (Outcome × List Value × IStream)) :
    Overload → List Value → IStream → Option (Outcome × List Value × IStream)
  | .copyable, [.fixed value], is =>
    let (value, is) := is.read value
    some (.returned is.good, [.fixed value], is)
  | .string, [.str value], is =>
    (call ([.fixed junk], is)).map fun r =>
      let size := sizeIn r.2.1
      if max_size < size then (.thrown, [.str value], r.2.2)
      else
        let (value, is) := r.2.2.read (paddedTo size 0 (value.take size))
        (.returned is.good, [.str value], is)
  | .variadic, [t], is => call ([t], is)
  | .variadic, t :: args, is =>
    (call ([t], is)).bind fun r =>
      if r.1 = .returned true then
        (call (args, r.2.2)).map fun q => (q.1, r.2.1 ++ q.2.1, q.2.2)
      else some (r.1, r.2.1 ++ args, r.2.2)
  | _, _, _ => none

def DecodeFromStream (max_size : ℕ) (junk : List UInt8)
    (call : List Value × IStream → Option (Outcome × List Value × IStream))
    (a : List Value × IStream) : Option (Outcome × List Value × IStream) :=
  (overload (a.1.map Value.type)).bind fun o => decodeOverload max_size junk call o a.1 a.2

/-! ## streams that have what is asked for -/

theorem write_good (os data : List UInt8) : (OStream.mk os true).write data = ⟨os ++ data, true⟩ := rfl

theorem read_append {data old : List UInt8} (rest : List UInt8) (h : old.length = data.length) :
    (IStream.mk (data ++ rest) true).read old = (data, ⟨rest, true⟩) := by
  have hle : old.length ≤ (data ++ rest).length := by
    rw [List.length_append, h]
    exact Nat.le_add_right _ _
  show (if old.length ≤ (data ++ rest).length then _ else _) = _
  rw [if_pos hle]
  show ((data ++ rest).take old.length, IStream.mk ((data ++ rest).drop old.length) true) = _
  rw [h, List.take_left, List.drop_left]

/-! ## the overload that is chosen -/

variable {max_size : ℕ} {junk : List UInt8}

theorem overload_two (t u : Ty) (types : List Ty) : overload (t :: u :: types) = some .variadic := by
  cases t <;> rfl

section
variable (call : List Value × OStream → Option (Bool × OStream))

theorem encode_fixed (value : List UInt8) (os : OStream) :
    EncodeToStream call ([.fixed value], os) = some ((os.write value).good, os.write value) := rfl

/-- the call for one string is made again -/
theorem encode_str (value : List UInt8) (os : OStream) :
    EncodeToStream call ([.str value], os) = call ([.str value], os) := rfl

theorem encode_two (t u : Value) (args : List Value) (os : OStream) :
    EncodeToStream call (t :: u :: args, os) =
      (call ([t], os)).bind fun r => if r.1 then call (u :: args, r.2) else some r := by
  show (overload (t.type :: u.type :: args.map Value.type)).bind _ = _
  rw [overload_two]
  rfl

end

section
variable (call : List Value × IStream → Option (Outcome × List Value × IStream))

theorem decode_fixed (value : List UInt8) (is : IStream) :
    DecodeFromStream max_size junk call ([.fixed value], is) =
      some (.returned (is.read value).2.good, [.fixed (is.read value).1], (is.read value).2) := rfl

theorem decode_str (value : List UInt8) (is : IStream) :
    DecodeFromStream max_size junk call ([.str value], is) = call ([.str value], is) := rfl

theorem decode_two (t u : Value) (args : List Value) (is : IStream) :
    DecodeFromStream max_size junk call (t :: u :: args, is) =
      (call ([t], is)).bind fun r =>
        if r.1 = .returned true then
          (call (u :: args, r.2.2)).map fun q => (q.1, r.2.1 ++ q.2.1, q.2.2)
        else some (r.1, r.2.1 ++ u :: args, r.2.2) := by
  show (overload (t.type :: u.type :: args.map Value.type)).bind _ = _
  rw [overload_two]
  rfl

end

/-! ## results do not depend on the depth -/

theorem encode_mono : Mono EncodeToStream := by
  intro call call' h a b hb
  obtain ⟨values, os⟩ := a
  cases values with
  | nil => cases hb
  | cons t args =>
    cases args with
    | nil =>
      cases t with
      | fixed value => exact hb
      | str value => exact h _ _ hb
    | cons u args =>
      rw [encode_two] at hb ⊢
      obtain ⟨r, hr, hb⟩ := Option.bind_eq_some_iff.mp hb
      rw [h _ _ hr, Option.bind_some]
      by_cases hok : r.1 = true
      · rw [if_pos hok] at hb ⊢
        exact h _ _ hb
      · rw [if_neg hok] at hb ⊢
        exact hb

theorem decode_mono : Mono (DecodeFromStream max_size junk) := by
  intro call call' h a b hb
  obtain ⟨values, is⟩ := a
  cases values with
  | nil => cases hb
  | cons t args =>
    cases args with
    | nil =>
      cases t with
      | fixed value => exact hb
      | str value => exact h _ _ hb
    | cons u args =>
      rw [decode_two] at hb ⊢
      obtain ⟨r, hr, hb⟩ := Option.bind_eq_some_iff.mp hb
      rw [h _ _ hr, Option.bind_some]
      by_cases hok : r.1 = .returned true
      · rw [if_pos hok] at hb ⊢
        obtain ⟨q, hq, hb⟩ := Option.map_eq_some_iff.mp hb
        rw [h _ _ hq, Option.map_some, hb]
      · rw [if_neg hok] at hb ⊢
        exact hb

/-! ## values that are trivially copyable -/

/-- **Trivially copyable values are written one after the other.** -/
theorem encode_run (values : List (List UInt8)) (hne : values ≠ []) (pre : List UInt8) {depth : ℕ}
    (hd : values.length ≤ depth) :
    run EncodeToStream depth (values.map .fixed, ⟨pre, true⟩) =
      some (true, ⟨pre ++ values.flatten, true⟩) := by
  induction values generalizing pre depth with
  | nil => exact absurd rfl hne
  | cons value values ih =>
    obtain ⟨d, rfl⟩ := Nat.exists_eq_add_of_lt (Nat.lt_of_lt_of_le (Nat.succ_pos _) hd)
    rw [Nat.zero_add]
    show EncodeToStream (run EncodeToStream d) (_, _) = _
    cases values with
    | nil =>
      show EncodeToStream _ ([.fixed value], _) = _
      rw [encode_fixed, write_good, List.flatten_singleton]
    | cons value' values =>
      have hd' : (value' :: values).length ≤ d := by
        rw [List.length_cons] at hd
        omega
      have hone : run EncodeToStream d ([.fixed value], ⟨pre, true⟩) =
          some (true, ⟨pre ++ value, true⟩) := by
        obtain ⟨k, rfl⟩ := Nat.exists_eq_add_of_lt (Nat.lt_of_lt_of_le (Nat.succ_pos _) hd')
        rw [Nat.zero_add]
        exact encode_fixed _ _ _
      have hrest := ih (List.cons_ne_nil _ _) (pre ++ value) hd'
      rw [List.map_cons, List.map_cons, encode_two, hone, Option.bind_some, if_pos rfl]
      rw [List.map_cons] at hrest
      rw [hrest, List.append_assoc]
      rfl

/-- **Variables of the same types get the values back**, and what comes behind stays in the stream. -/
theorem decode_run (values olds : List (List UInt8)) (hne : values ≠ [])
    (ht : olds.map List.length = values.map List.length) (post : List UInt8) {depth : ℕ}
    (hd : values.length ≤ depth) :
    run (DecodeFromStream max_size junk) depth (olds.map .fixed, ⟨values.flatten ++ post, true⟩) =
      some (.returned true, values.map .fixed, ⟨post, true⟩) := by
  induction values generalizing olds depth with
  | nil => exact absurd rfl hne
  | cons value values ih =>
    obtain ⟨old, olds, rfl⟩ : ∃ o l, olds = o :: l := by
      cases olds with
      | nil => cases ht
      | cons o l => exact ⟨o, l, rfl⟩
    obtain ⟨hlen, ht⟩ := List.cons.inj ht
    obtain ⟨d, rfl⟩ := Nat.exists_eq_add_of_lt (Nat.lt_of_lt_of_le (Nat.succ_pos _) hd)
    rw [Nat.zero_add]
    show DecodeFromStream max_size junk (run (DecodeFromStream max_size junk) d) (_, _) = _
    cases values with
    | nil =>
      obtain rfl : olds = [] := List.map_eq_nil_iff.mp ht
      show DecodeFromStream _ _ _ ([.fixed old], _) = _
      rw [decode_fixed, List.flatten_singleton, read_append post hlen]
      rfl
    | cons value' values =>
      obtain ⟨old', olds, rfl⟩ : ∃ o l, olds = o :: l := by
        cases olds with
        | nil => cases ht
        | cons o l => exact ⟨o, l, rfl⟩
      have hd' : (value' :: values).length ≤ d := by
        rw [List.length_cons] at hd
        omega
      have hone : run (DecodeFromStream max_size junk) d
          ([.fixed old], ⟨value ++ ((value' :: values).flatten ++ post), true⟩) =
          some (.returned true, [.fixed value], ⟨(value' :: values).flatten ++ post, true⟩) := by
        obtain ⟨k, rfl⟩ := Nat.exists_eq_add_of_lt (Nat.lt_of_lt_of_le (Nat.succ_pos _) hd')
        rw [Nat.zero_add]
        show DecodeFromStream _ _ _ ([.fixed old], _) = _
        rw [decode_fixed, read_append _ hlen]
      have hrest := ih (old' :: olds) (List.cons_ne_nil _ _) ht hd'
      rw [List.map_cons] at hrest
      rw [List.flatten_cons, List.append_assoc, List.map_cons, List.map_cons, decode_two, hone,
        Option.bind_some, if_pos rfl, hrest]
      rfl

theorem encode_returns {values : List (List UInt8)} (hne : values ≠ []) (pre : List UInt8)
    (r : Bool × OStream) : Returns EncodeToStream (values.map .fixed, ⟨pre, true⟩) r ↔
      r = (true, ⟨pre ++ values.flatten, true⟩) := by
  have hrun : Returns EncodeToStream (values.map .fixed, ⟨pre, true⟩) _ :=
    ⟨values.length, encode_run values hne pre (Nat.le_refl _)⟩
  constructor
  · intro h
    exact h.unique encode_mono hrun
  · intro h
    rw [h]
    exact hrun

theorem decode_returns {values olds : List (List UInt8)} (hne : values ≠ [])
    (ht : olds.map List.length = values.map List.length) (post : List UInt8)
    (r : Outcome × List Value × IStream) :
    Returns (DecodeFromStream max_size junk) (olds.map .fixed, ⟨values.flatten ++ post, true⟩) r ↔
      r = (.returned true, values.map .fixed, ⟨post, true⟩) := by
  have hrun : Returns (DecodeFromStream max_size junk) (olds.map .fixed, ⟨values.flatten ++ post, true⟩) _ :=
    ⟨values.length, decode_run values olds hne ht post (Nat.le_refl _)⟩
  constructor
  · intro h
    exact h.unique decode_mono hrun
  · intro h
    rw [h]
    exact hrun

/-! ## strings -/

/-- **Encoding values among which there is a string does not return.** -/
theorem encode_diverges {values : List Value} {value : List UInt8} (h : .str value ∈ values)
    (pre : List UInt8) : Diverges EncodeToStream (values, ⟨pre, true⟩) := by
  refine Diverges.of_closed
    (S := fun a => (∃ value, .str value ∈ a.1) ∧ a.2.good = true) ?_ ⟨⟨value, h⟩, rfl⟩
  intro depth ih a ha
  obtain ⟨values, os⟩ := a
  obtain ⟨⟨value, hv⟩, hgood⟩ := ha
  cases values with
  | nil => cases hv
  | cons t args =>
    cases args with
    | nil =>
      obtain rfl := List.mem_singleton.mp hv
      rw [encode_str]
      exact ih _ ⟨⟨value, hv⟩, hgood⟩
    | cons u args =>
      rw [encode_two]
      cases t with
      | str first => rw [ih ([.str first], os) ⟨⟨first, List.mem_cons_self⟩, hgood⟩, Option.bind_none]
      | fixed first =>
        have hrest : .str value ∈ u :: args := (List.mem_cons.mp hv).resolve_left nofun
        cases depth with
        | zero => rfl
        | succ depth =>
          have hwrite : (os.write first).good = true := by
            rw [OStream.write, if_pos hgood]
            exact hgood
          show ((EncodeToStream _ ([.fixed first], os)).bind _) = _
          rw [encode_fixed, Option.bind_some, if_pos hwrite]
          exact ih _ ⟨⟨value, hrest⟩, hwrite⟩

/-- decoding one string does not return, whatever is in the stream -/
theorem decode_diverges (value : List UInt8) (is : IStream) :
    Diverges (DecodeFromStream max_size junk) ([.str value], is) := by
  refine Diverges.of_closed (S := fun a => a = ([.str value], is)) ?_ rfl
  intro depth ih a ha
  rw [ha, decode_str]
  exact ih _ rfl

/-! ## the round trip -/

/-- what is encoded is decoded to the same values, into any variables of their types -/
def RoundTrips (values : List Value) : Prop :=
  ∀ (pre post junk : List UInt8) (max_size : ℕ) (vars : List Value),
    vars.map Value.type = values.map Value.type →
      ∃ written, Returns EncodeToStream (values, ⟨pre, true⟩) (true, ⟨pre ++ written, true⟩) ∧
        Returns (DecodeFromStream max_size junk) (vars, ⟨written ++ post, true⟩)
          (.returned true, values, ⟨post, true⟩)

theorem exists_fixed {values : List Value} (h : ∀ s, .str s ∉ values) :
    ∃ l : List (List UInt8), values = l.map .fixed := by
  induction values with
  | nil => exact ⟨[], rfl⟩
  | cons v values ih =>
    obtain ⟨l, rfl⟩ := ih fun s hs => h s (List.mem_cons_of_mem _ hs)
    cases v with
    | fixed b => exact ⟨b :: l, rfl⟩
    | str s => exact absurd List.mem_cons_self (h s)

theorem types_fixed (l : List (List UInt8)) :
    (l.map Value.fixed).map Value.type = (l.map List.length).map Ty.fixed := by
  rw [List.map_map, List.map_map]
  rfl

/-- **A sequence of values makes the round trip iff no value is a string.** -/
theorem roundTrips_iff (values : List Value) (hne : values ≠ []) :
    RoundTrips values ↔ ∀ s, .str s ∉ values := by
  constructor
  · intro h s hs
    obtain ⟨written, he, -⟩ := h [] [] [] 0 values rfl
    exact (encode_diverges hs []).not_returns he
  · intro h pre post junk max_size vars ht
    obtain ⟨l, rfl⟩ := exists_fixed h
    have hvar : ∀ s, Value.str s ∉ vars := by
      intro s hs
      have hmem : Ty.string ∈ vars.map Value.type := List.mem_map.mpr ⟨_, hs, rfl⟩
      rw [ht, types_fixed, List.mem_map] at hmem
      obtain ⟨n, -, hn⟩ := hmem
      cases hn
    obtain ⟨olds, rfl⟩ := exists_fixed hvar
    have hlen : olds.map List.length = l.map List.length := by
      rw [types_fixed, types_fixed] at ht
      exact List.map_injective_iff.mpr (fun a b => Ty.fixed.inj) ht
    have hl : l ≠ [] := fun e => hne (by rw [e]; rfl)
    exact ⟨l.flatten, (encode_returns hl pre _).mpr rfl, (decode_returns hl hlen post _).mpr rfl⟩

/-- an `int` and a `float` -/
theorem roundTrips_two : RoundTrips [.fixed [42, 0, 0, 0], .fixed [195, 245, 72, 64]] :=
  (roundTrips_iff _ (List.cons_ne_nil _ _)).mpr (by simp)

/-- not with a string behind them -/
theorem not_roundTrips : ¬ ∀ values, values ≠ [] → RoundTrips values := by
  intro hall
  have h := hall [.fixed [42, 0, 0, 0], .fixed [195, 245, 72, 64], .str [104, 101, 108, 108, 111]]
    (List.cons_ne_nil _ _)
  obtain ⟨written, he, -⟩ := h [] [] [] 0 _ rfl
  have hstr : Value.str [104, 101, 108, 108, 111] ∈
      [.fixed [42, 0, 0, 0], .fixed [195, 245, 72, 64], .str [104, 101, 108, 108, 111]] := by simp
  exact (encode_diverges hstr []).not_returns he

theorem decode_string_overload
    (call : List Value × IStream → Option (Outcome × List Value × IStream)) (value : List UInt8)
    (is : IStream) : decodeOverload max_size junk call .string [.str value] is =
      (call ([.fixed junk], is)).map fun r =>
        let size := sizeIn r.2.1
        if max_size < size then (.thrown, [.str value], r.2.2)
        else
          let x := r.2.2.read (paddedTo size 0 (value.take size))
          (.returned x.2.good, [.str x.1], x.2) := rfl

/-- **The overloads for strings would make the round trip**, were they chosen. -/
theorem string_overload (value old pre post : List UInt8) (hj : junk.length = 8)
    (hlen : value.length < 2 ^ 64) (hmax : value.length ≤ max_size) (depth : ℕ) :
    encodeOverload (run EncodeToStream (depth + 1)) .string [.str value] ⟨pre, true⟩ =
        some (true, ⟨pre ++ leBytes 8 value.length ++ value, true⟩) ∧
      decodeOverload max_size junk (run (DecodeFromStream max_size junk) (depth + 1)) .string
          [.str old] ⟨leBytes 8 value.length ++ value ++ post, true⟩ =
        some (.returned true, [.str value], ⟨post, true⟩) := by
  constructor
  · rfl
  · have hsize : ofLe (leBytes 8 value.length) = value.length := by
      rw [ofLe_leBytes, Nat.mod_eq_of_lt]
      exact hlen
    have hread : run (DecodeFromStream max_size junk) (depth + 1)
        ([.fixed junk], ⟨leBytes 8 value.length ++ (value ++ post), true⟩) =
        some (.returned true, [.fixed (leBytes 8 value.length)], ⟨value ++ post, true⟩) := by
      show DecodeFromStream _ _ _ ([.fixed junk], _) = _
      rw [decode_fixed, read_append _ (by rw [hj, length_leBytes])]
    have hpad : (paddedTo value.length 0 (old.take value.length)).length = value.length := by
      rw [paddedTo, List.length_append, List.length_replicate, List.length_take]
      omega
    rw [List.append_assoc, decode_string_overload, hread, Option.map_some]
    have hle : ¬ max_size < value.length := Nat.not_lt_of_le hmax
    simp only [sizeIn, hsize, if_neg hle, read_append post hpad]

end SimpleOstream
end CppCores
