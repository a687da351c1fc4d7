import CppCores.Lib.Bits
import CppCores.Lib.Blocks

/-!
# Hex strings: `hexstring_from_data` and `data_from_hexstring` of `utils/hash.cc`

A string is the list of its bytes.  The two functions write into a result that was sized before;
a write behind its end, or a read behind the end of the input, is `none` or `out_of_bounds`.

* `hexLoop_eq`, `dataLoop_eq`   the loops compute `hexOf` and `dataOf`, two digits for a byte;
* `dataOf_hexOf`, `hexOf_dataOf`   these two undo each other, up to the case of the digits;
* `hex_codec`                   the round trips, and the strings that are accepted.
-/

namespace CppCores
namespace Hex

/-! ## the code -/

/-- one digit: `c = (c > 9) ? c + 'a' - 10 : c + '0'` -/
def digitChar (c : UInt8) : UInt8 :=
  if c > 9 then c + 'a'.toUInt8 - 10 else c + '0'.toUInt8

/-- the loop of `hexstring_from_data` -/
def hexLoop : List UInt8 → List UInt8 → ℕ → Option (List UInt8)
  | [], output, _ => some output
  | byte :: buf, output, j =>
    (writeAt output j (digitChar ((byte >>> 4) &&& 0xf))).bind fun output =>
      (writeAt output (j + 1) (digitChar (byte &&& 0xf))).bind fun output =>
        hexLoop buf output (j + 2)

def hexstring_from_data (data : List UInt8) : Option (List UInt8) :=
  if data.length = 0 then some []
  else hexLoop data (List.replicate (data.length * 2) 0) 0

inductive Error where
  /-- the exception `std::invalid_argument` -/
  | invalid_argument (what : String)
  | out_of_bounds
  deriving DecidableEq, Repr

/-- a `switch` over a digit: the number it stands for -/
def digit (c : UInt8) : Option UInt8 :=
  if c ∈ ['a', 'b', 'c', 'd', 'e', 'f'].map Char.toUInt8 then some (c - 'a'.toUInt8 + 10)
  else if c ∈ ['A', 'B', 'C', 'D', 'E', 'F'].map Char.toUInt8 then some (c - 'A'.toUInt8 + 10)
  else if c ∈ ['0', '1', '2', '3', '4', '5', '6', '7', '8', '9'].map Char.toUInt8 then
    some (c - '0'.toUInt8)
  else none

def readDigit (hexstring : List UInt8) (i : ℕ) : Except Error UInt8 :=
  match hexstring[i]? with
  | none => .error .out_of_bounds
  | some c =>
    match digit c with
    | none => .error (.invalid_argument "data_from_hexstring invalid hexstring")
    | some v => .ok v

/-- the loop of `data_from_hexstring`; the second digit is read after `++i` -/
def dataLoop (hexstring : List UInt8) (i : ℕ) (output : List UInt8) (buf : ℕ) :
    Except Error (List UInt8) :=
  if i < hexstring.length then
    match readDigit hexstring i with
    | .error e => .error e
    | .ok high =>
      match readDigit hexstring (i + 1) with
      | .error e => .error e
      | .ok low =>
        match writeAt output buf ((high <<< 4) ||| low) with
        | none => .error .out_of_bounds
        | some output => dataLoop hexstring (i + 1 + 1) output (buf + 1)
  else .ok output
termination_by hexstring.length - i

/-- `data_from_hexstring` into a result that is there -/
def dataInto (hexstring output : List UInt8) : Except Error (List UInt8) :=
  if hexstring.length % 2 ≠ 0 then
    .error (.invalid_argument "data_from_hexstring length % 2 != 0")
  else dataLoop hexstring 0 output 0

def data_from_hexstring (hexstring : List UInt8) : Except Error (List UInt8) :=
  if hexstring.length % 2 ≠ 0 then
    .error (.invalid_argument "data_from_hexstring length % 2 != 0")
  else if hexstring.length = 0 then .ok []
  else dataInto hexstring (List.replicate (hexstring.length / 2) 0)

/-! ## what the loops compute -/

/-- two digits for each byte -/
def hexOf (data : List UInt8) : List UInt8 :=
  data.flatMap fun byte : UInt8 => [digitChar ((byte >>> 4) &&& 0xf), digitChar (byte &&& 0xf)]

/-- a byte for two digits -/
def dataOf : List UInt8 → Option (List UInt8)
  | [] => some []
  | [_] => none
  | a :: b :: s =>
    (digit a).bind fun high => (digit b).bind fun low =>
      (dataOf s).map fun data => ((high <<< 4) ||| low) :: data

theorem length_hexOf (data : List UInt8) : (hexOf data).length = 2 * data.length := by
  induction data with
  | nil => rfl
  | cons byte data ih =>
    rw [hexOf, List.flatMap_cons, List.length_append, ← hexOf, ih, List.length_cons]
    show 2 + 2 * data.length = 2 * (data.length + 1)
    omega

theorem hexLoop_eq (data : List UInt8) {n : ℕ} (ws : List UInt8)
    (hn : ws.length + 2 * data.length ≤ n) :
    hexLoop data (paddedTo n 0 ws) ws.length = some (paddedTo n 0 (ws ++ hexOf data)) := by
  induction data generalizing ws with
  | nil =>
    rw [hexLoop, hexOf, List.flatMap_nil, List.append_nil]
  | cons byte data ih =>
    rw [List.length_cons] at hn
    have h1 := writeAt_paddedTo (show ws.length < n by omega) 0 (digitChar ((byte >>> 4) &&& 0xf))
    have hlen1 : (ws ++ [digitChar ((byte >>> 4) &&& 0xf)]).length = ws.length + 1 := by simp
    have h2 := writeAt_paddedTo (show (ws ++ [digitChar ((byte >>> 4) &&& 0xf)]).length < n by omega)
      0 (digitChar (byte &&& 0xf))
    rw [hlen1, List.append_assoc] at h2
    have hlen2 : (ws ++ ([digitChar ((byte >>> 4) &&& 0xf)] ++ [digitChar (byte &&& 0xf)])).length =
        ws.length + 2 := by simp
    have h3 := ih (ws ++ ([digitChar ((byte >>> 4) &&& 0xf)] ++ [digitChar (byte &&& 0xf)]))
      (by omega)
    rw [hlen2] at h3
    rw [hexLoop, h1, Option.bind_some, h2, Option.bind_some, h3, List.append_assoc]
    rfl

theorem hexstring_from_data_eq (data : List UInt8) :
    hexstring_from_data data = some (hexOf data) := by
  rw [hexstring_from_data]
  split
  · rename_i h
    rw [List.length_eq_zero_iff.mp h]
    rfl
  · have h := hexLoop_eq data (n := data.length * 2) [] (by rw [List.length_nil]; omega)
    have hfull : data.length * 2 - (hexOf data).length = 0 := by rw [length_hexOf]; omega
    rw [List.nil_append, paddedTo, paddedTo, hfull, List.replicate_zero, List.append_nil] at h
    exact h

theorem readDigit_eq {s : List UInt8} {i : ℕ} {c : UInt8} (h : s[i]? = some c) :
    readDigit s i =
      match digit c with
      | none => .error (.invalid_argument "data_from_hexstring invalid hexstring")
      | some v => .ok v := by
  rw [readDigit, h]

theorem dataLoop_eq (s : List UInt8) {n i : ℕ} (ws : List UInt8) (hs : s.length % 2 = 0)
    (hi : i = 2 * ws.length) (hle : i ≤ s.length) (hn : n = s.length / 2) :
    dataLoop s i (paddedTo n 0 ws) ws.length =
      match dataOf (s.drop i) with
      | some data => .ok (ws ++ data)
      | none => .error (.invalid_argument "data_from_hexstring invalid hexstring") := by
  rw [dataLoop]
  split
  · rename_i hlt
    have hlt1 : i + 1 < s.length := by omega
    rw [List.drop_eq_getElem_cons hlt, List.drop_eq_getElem_cons hlt1, dataOf,
      readDigit_eq (List.getElem?_eq_getElem hlt), readDigit_eq (List.getElem?_eq_getElem hlt1)]
    cases h1 : digit s[i] with
    | none => rfl
    | some high =>
      cases h2 : digit s[i + 1] with
      | none => rfl
      | some low =>
        have hlen : (ws ++ [(high <<< 4) ||| low]).length = ws.length + 1 := by simp
        have ih := dataLoop_eq s (i := i + 1 + 1) (ws ++ [(high <<< 4) ||| low]) hs (by omega)
          (by omega) hn
        rw [hlen] at ih
        simp only [writeAt_paddedTo (show ws.length < n by omega), ih, Option.bind_some]
        cases dataOf (s.drop (i + 1 + 1)) with
        | none => rfl
        | some data =>
          exact congrArg Except.ok (List.append_assoc ..)
  · have hlen : ws.length = n := by omega
    have hfull : s.length ≤ i := by omega
    rw [List.drop_eq_nil_of_le hfull, paddedTo, hlen, Nat.sub_self, List.replicate_zero,
      List.append_nil]
    exact congrArg Except.ok (List.append_nil ws).symm
termination_by s.length - i

theorem dataOf_odd (s : List UInt8) (h : s.length % 2 ≠ 0) : dataOf s = none := by
  match s with
  | [] => exact absurd rfl h
  | [_] => rfl
  | a :: b :: s =>
    have hs : s.length % 2 ≠ 0 := by
      rw [List.length_cons, List.length_cons] at h
      omega
    rw [dataOf, dataOf_odd s hs]
    cases digit a <;> cases digit b <;> rfl

/-- **`data_from_hexstring` computes `dataOf`.** -/
theorem data_from_hexstring_eq (s : List UInt8) :
    (∃ d, dataOf s = some d ∧ data_from_hexstring s = .ok d) ∨
      (dataOf s = none ∧ ∃ what, data_from_hexstring s = .error (.invalid_argument what)) := by
  rw [data_from_hexstring]
  split
  · rename_i h
    exact .inr ⟨dataOf_odd s h, _, rfl⟩
  split
  · rename_i h
    rw [List.length_eq_zero_iff.mp h]
    exact .inl ⟨[], rfl, rfl⟩
  rename_i h _
  have hs : s.length % 2 = 0 := by omega
  have hloop := dataLoop_eq s (i := 0) [] hs rfl (Nat.zero_le _) rfl
  rw [dataInto, if_neg h]
  cases hd : dataOf s with
  | some d =>
    rw [List.drop_zero, hd] at hloop
    exact .inl ⟨d, rfl, hloop⟩
  | none =>
    rw [List.drop_zero, hd] at hloop
    exact .inr ⟨rfl, _, hloop⟩

/-! ## the two directions -/

/-- the characters `0-9`, `a-f` and `A-F` -/
def isHex (c : UInt8) : Prop :=
  ('0'.toUInt8 ≤ c ∧ c ≤ '9'.toUInt8) ∨ ('a'.toUInt8 ≤ c ∧ c ≤ 'f'.toUInt8) ∨
    ('A'.toUInt8 ≤ c ∧ c ≤ 'F'.toUInt8)

instance (c : UInt8) : Decidable (isHex c) := inferInstanceAs (Decidable (_ ∨ _ ∨ _))

/-- `A-F` turned to lower case -/
def toLower (c : UInt8) : UInt8 :=
  if 'A'.toUInt8 ≤ c ∧ c ≤ 'F'.toUInt8 then c - 'A'.toUInt8 + 'a'.toUInt8 else c

/-- the characters that are digits, and that a digit is written back in lower case -/
theorem digit_spec (c : UInt8) : ((digit c).isSome = true ↔ isHex c) ∧
    (digit c).all (fun v => v < 16 && digitChar v == toLower c) = true :=
  forall_byte (p := fun c => ((digit c).isSome = true ↔ isHex c) ∧
    (digit c).all (fun v => v < 16 && digitChar v == toLower c) = true) (by decide +kernel) c

theorem digitChar_digit {c v : UInt8} (h : digit c = some v) : v < 16 ∧ digitChar v = toLower c := by
  have hc := (digit_spec c).2
  rw [h, Option.all_some, Bool.and_eq_true, decide_eq_true_iff, beq_iff_eq] at hc
  exact hc

theorem digit_digitChar {v : UInt8} (h : v < 16) : digit (digitChar v) = some v := by
  have hall : ∀ v : Fin 16, digit (digitChar (UInt8.ofNat v)) = some (UInt8.ofNat v) := by decide
  have := hall ⟨v.toNat, h⟩
  rwa [UInt8.ofNat_toNat] at this

/-! ## a byte and its two digits -/

theorem high_toNat (b : UInt8) : ((b >>> 4) &&& 0xf).toNat = b.toNat / 16 := by
  have hb := b.toNat_lt
  rw [toNat_low _ 4 (by decide), UInt8.toNat_shiftRight]
  show b.toNat >>> 4 % 16 = _
  rw [Nat.shiftRight_eq_div_pow]
  omega

theorem low_toNat (b : UInt8) : (b &&& 0xf).toNat = b.toNat % 16 := toNat_low b 4 (by decide)

theorem join_toNat {v w : UInt8} (hv : v < 16) (hw : w < 16) :
    ((v <<< 4) ||| w).toNat = v.toNat * 16 + w.toNat := by
  have hv : v.toNat < 16 := hv
  have hw : w.toNat < 2 ^ 4 := hw
  rw [UInt8.toNat_or, UInt8.toNat_shiftLeft]
  show (v.toNat <<< 4) % 256 ||| w.toNat = _
  rw [Nat.mod_eq_of_lt (by rw [Nat.shiftLeft_eq]; omega), ← Nat.shiftLeft_add_eq_or_of_lt hw,
    Nat.shiftLeft_eq]

theorem join_nibbles {v w : UInt8} (hv : v < 16) (hw : w < 16) :
    ((((v <<< 4) ||| w) >>> 4) &&& 0xf) = v ∧ (((v <<< 4) ||| w) &&& 0xf) = w := by
  have h := join_toNat hv hw
  have hv : v.toNat < 16 := hv
  have hw : w.toNat < 16 := hw
  constructor
  · apply UInt8.toNat_inj.mp
    rw [high_toNat, h]
    omega
  · apply UInt8.toNat_inj.mp
    rw [low_toNat, h]
    omega

theorem nibbles_join (b : UInt8) :
    digit (digitChar ((b >>> 4) &&& 0xf)) = some ((b >>> 4) &&& 0xf) ∧
      digit (digitChar (b &&& 0xf)) = some (b &&& 0xf) ∧
      ((((b >>> 4) &&& 0xf) <<< 4) ||| (b &&& 0xf)) = b := by
  have h1 : ((b >>> 4) &&& 0xf).toNat < 16 := by
    have := b.toNat_lt
    rw [high_toNat]
    omega
  have h2 : (b &&& 0xf).toNat < 16 := by
    rw [low_toNat]
    omega
  refine ⟨digit_digitChar h1, digit_digitChar h2, ?_⟩
  apply UInt8.toNat_inj.mp
  rw [join_toNat h1 h2, high_toNat, low_toNat]
  omega

theorem dataOf_hexOf (data : List UInt8) : dataOf (hexOf data) = some data := by
  induction data with
  | nil => rfl
  | cons b data ih =>
    obtain ⟨h1, h2, h3⟩ := nibbles_join b
    have hcons : hexOf (b :: data) =
        digitChar ((b >>> 4) &&& 0xf) :: digitChar (b &&& 0xf) :: hexOf data := rfl
    rw [hcons, dataOf, h1, h2, ih, Option.bind_some, Option.bind_some, Option.map_some, h3]

theorem hexOf_dataOf {s d : List UInt8} (h : dataOf s = some d) : hexOf d = s.map toLower := by
  match s with
  | [] =>
    obtain rfl := Option.some.inj h
    rfl
  | [_] => cases h
  | a :: b :: s =>
    obtain ⟨high, h1, h⟩ := Option.bind_eq_some_iff.mp h
    obtain ⟨low, h2, h⟩ := Option.bind_eq_some_iff.mp h
    obtain ⟨d', h3, rfl⟩ := Option.map_eq_some_iff.mp h
    obtain ⟨l1, e1⟩ := digitChar_digit h1
    obtain ⟨l2, e2⟩ := digitChar_digit h2
    obtain ⟨n1, n2⟩ := join_nibbles l1 l2
    have hcons : hexOf (((high <<< 4) ||| low) :: d') =
        digitChar ((((high <<< 4) ||| low) >>> 4) &&& 0xf) ::
          digitChar (((high <<< 4) ||| low) &&& 0xf) :: hexOf d' := rfl
    rw [hcons, n1, n2, e1, e2, hexOf_dataOf h3, List.map_cons, List.map_cons]

/-- **The strings that are read.** -/
theorem dataOf_isSome (s : List UInt8) :
    (dataOf s).isSome = true ↔ s.length % 2 = 0 ∧ ∀ c ∈ s, isHex c := by
  match s with
  | [] => exact ⟨fun _ => ⟨rfl, by simp⟩, fun _ => rfl⟩
  | [c] => exact ⟨nofun, fun h => absurd h.1 (by simp)⟩
  | a :: b :: s =>
    have ih := dataOf_isSome s
    have hlen : (a :: b :: s).length % 2 = s.length % 2 := by
      rw [List.length_cons, List.length_cons]
      omega
    rw [hlen, List.forall_mem_cons, List.forall_mem_cons, ← (digit_spec a).1, ← (digit_spec b).1,
      dataOf]
    cases digit a with
    | none => simp
    | some high =>
      cases digit b with
      | none => simp
      | some low => simpa using ih

/-- **The hex codec.** -/
theorem hex_codec :
    (∀ x : List UInt8, ∃ h, hexstring_from_data x = some h ∧ data_from_hexstring h = .ok x) ∧
    (∀ s : List UInt8, (∃ d, data_from_hexstring s = .ok d) ↔
      s.length % 2 = 0 ∧ ∀ c ∈ s, isHex c) ∧
    (∀ s : List UInt8, (¬ ∃ d, data_from_hexstring s = .ok d) →
      ∃ what, data_from_hexstring s = .error (.invalid_argument what)) ∧
    (∀ s d : List UInt8, data_from_hexstring s = .ok d →
      hexstring_from_data d = some (s.map toLower)) := by
  have hok : ∀ s d, data_from_hexstring s = .ok d ↔ dataOf s = some d := by
    intro s d
    rcases data_from_hexstring_eq s with ⟨d', h1, h2⟩ | ⟨h1, what, h2⟩
    · rw [h1, h2]
      constructor
      · intro h; rw [Except.ok.inj h]
      · intro h; rw [Option.some.inj h]
    · rw [h1, h2]
      exact ⟨nofun, nofun⟩
  refine ⟨fun x => ⟨hexOf x, hexstring_from_data_eq x, (hok _ _).mpr (dataOf_hexOf x)⟩, ?_, ?_, ?_⟩
  · intro s
    rw [← dataOf_isSome, Option.isSome_iff_exists]
    exact exists_congr (hok s)
  · intro s hno
    rcases data_from_hexstring_eq s with ⟨d, _, h⟩ | ⟨_, h⟩
    · exact absurd ⟨d, h⟩ hno
    · exact h
  · intro s d h
    rw [hexstring_from_data_eq, hexOf_dataOf ((hok s d).mp h)]

end Hex
end CppCores
