import CppCores.Utils.Base64.Model
import Mathlib.Data.List.GetD

/-!
# Base64: what the codecs compute

The symbols stand for the numbers below 64 (`value`, `symbol`).  `encoded x` is the row of the bits
of `x` cut in sixes, and the padding; `decoded body` the row of the bits of the symbols `body` cut in
eights.

* `decoded_encodedBody`   **decoding the symbols of an encoding gives the bytes**;
* `Accepts s p`           the strings `base64decode` is for: symbols, then `p` times `=`;
* `encoded_group`, `decoded_group`   one group of three bytes or four symbols, through its packed
                          number; `encoded_last1`, .. the last groups.
-/

namespace CppCores
namespace Base64

/-! ## the alphabet -/

/-- the number a symbol stands for -/
def value (c : UInt8) : ℕ := base64_chars.idxOf c

/-- the symbol for a number below 64 -/
def symbol (v : ℕ) : UInt8 := base64_chars.getD v 0

/-- what `hash.cc` computes for a symbol, and that the symbols are in the alphabet -/
theorem alphabet_spec (c : UInt8) :
    symbolVal c = (if is_base64 c = true then some (value c) else none) ∧
      (is_base64 c = true → value c < 64) :=
  forall_byte (p := fun c => symbolVal c = (if is_base64 c = true then some (value c) else none) ∧
    (is_base64 c = true → value c < 64)) (by decide +kernel) c

theorem symbolVal_eq (c : UInt8) :
    symbolVal c = if is_base64 c = true then some (value c) else none := (alphabet_spec c).1

theorem value_lt {c : UInt8} (h : is_base64 c = true) : value c < 64 := (alphabet_spec c).2 h

theorem base64_chars_length : base64_chars.length = 64 := rfl

theorem base64_chars_nodup : base64_chars.Nodup := by decide +kernel

theorem mem_base64_chars (c : UInt8) : c ∈ base64_chars ↔ is_base64 c = true := by
  constructor
  · intro h
    have hall : base64_chars.all is_base64 = true := by decide +kernel
    exact List.all_eq_true.mp hall c h
  · intro h
    exact List.idxOf_lt_length_iff.mp (base64_chars_length ▸ value_lt h)

theorem symbol_eq {v : ℕ} (hv : v < base64_chars.length) : symbol v = base64_chars[v] :=
  List.getD_eq_getElem _ _ hv

theorem base64_chars_get {v : ℕ} (h : v < 64) : base64_chars[v]? = some (symbol v) := by
  have hv : v < base64_chars.length := h
  rw [symbol_eq hv, List.getElem?_eq_getElem hv]

theorem is_base64_symbol {v : ℕ} (h : v < 64) : is_base64 (symbol v) = true :=
  (mem_base64_chars _).mp (List.mem_of_getElem? (base64_chars_get h))

theorem value_symbol {v : ℕ} (h : v < 64) : value (symbol v) = v := by
  have hv : v < base64_chars.length := h
  rw [symbol_eq hv]
  exact base64_chars_nodup.idxOf_getElem v hv

theorem find_eq {c : UInt8} (h : is_base64 c = true) : (Decoding.find c).toNat = value c := by
  have hlt := value_lt h
  have hv : value c = (base64_chars.idxOf? c).getD base64_chars.length :=
    List.idxOf_eq_getD_idxOf? c base64_chars
  have hsome := List.isSome_idxOf?.mpr ((mem_base64_chars c).mpr h)
  obtain ⟨k, hk⟩ := Option.isSome_iff_exists.mp hsome
  rw [hk, Option.getD_some] at hv
  subst hv
  rw [Decoding.find, hk]
  show (UInt8.ofNat (value c)).toNat = value c
  rw [UInt8.toNat_ofNat', Nat.mod_eq_of_lt (by omega)]

theorem is_base64_eqSign : is_base64 eqSign = false := by decide

theorem ne_eqSign {c : UInt8} (h : is_base64 c = true) : c ≠ eqSign := by
  rintro rfl
  rw [is_base64_eqSign] at h
  cases h

/-! ## the two directions -/

def padding (x : List UInt8) : ℕ := (3 - x.length % 3) % 3

/-- the symbols of an encoding -/
def encodedBody (x : List UInt8) : List UInt8 := (regroupUp 8 6 (x.map UInt8.toNat)).map symbol

def encoded (x : List UInt8) : List UInt8 := encodedBody x ++ List.replicate (padding x) eqSign

/-- the bytes of a row of symbols -/
def decoded (body : List UInt8) : List UInt8 := (regroup 6 8 (body.map value)).map UInt8.ofNat

/-- symbols, then `p` times `=`, in whole groups of four -/
structure Accepts (s : List UInt8) (p : ℕ) : Prop where
  nonempty : s ≠ []
  dvd : 4 ∣ s.length
  le : p ≤ 2
  shape : ∃ body, s = body ++ List.replicate p eqSign ∧ ∀ c ∈ body, is_base64 c = true

theorem forall_toNat_lt (x : List UInt8) : ∀ v ∈ x.map UInt8.toNat, v < 2 ^ 8 := by
  intro v hv
  obtain ⟨c, _, rfl⟩ := List.mem_map.mp hv
  exact c.toNat_lt

theorem forall_value_lt {body : List UInt8} (h : ∀ c ∈ body, is_base64 c = true) :
    ∀ v ∈ body.map value, v < 2 ^ 6 := by
  intro v hv
  obtain ⟨c, hc, rfl⟩ := List.mem_map.mp hv
  exact value_lt (h c hc)

theorem mem_regroupUp_lt {x : List UInt8} {v : ℕ} (h : v ∈ regroupUp 8 6 (x.map UInt8.toNat)) :
    v < 64 := regroupUp_lt (by decide) h

theorem is_base64_encodedBody (x : List UInt8) : ∀ c ∈ encodedBody x, is_base64 c = true := by
  intro c hc
  obtain ⟨v, hv, rfl⟩ := List.mem_map.mp hc
  exact is_base64_symbol (mem_regroupUp_lt hv)

/-- **Decoding the symbols of an encoding gives the bytes.** -/
theorem decoded_encodedBody (x : List UInt8) : decoded (encodedBody x) = x := by
  have h1 : (encodedBody x).map value = regroupUp 8 6 (x.map UInt8.toNat) := by
    rw [encodedBody, List.map_map]
    conv_rhs => rw [← List.map_id (regroupUp 8 6 _)]
    apply List.map_congr_left
    intro v hv
    exact value_symbol (mem_regroupUp_lt hv)
  rw [decoded, h1, regroup_regroupUp (by decide) (by decide) (forall_toNat_lt x), List.map_map]
  conv_rhs => rw [← List.map_id x]
  apply List.map_congr_left
  intro c _
  exact UInt8.ofNat_toNat

theorem length_encoded (x : List UInt8) : (encoded x).length = 4 * ((x.length + 2) / 3) := by
  rw [encoded, List.length_append, List.length_replicate, encodedBody, List.length_map,
    length_regroupUp (by decide), List.length_map, padding]
  omega

theorem length_decoded (body : List UInt8) : (decoded body).length = 6 * body.length / 8 := by
  rw [decoded, List.length_map, length_regroup, List.length_map]

/-! ## group by group -/

theorem shl_or (k : ℕ) {a b : ℕ} (h : b < 2 ^ k) : (a <<< k) ||| b = a * 2 ^ k + b := by
  rw [← Nat.shiftLeft_add_eq_or_of_lt h, Nat.shiftLeft_eq]

theorem encoded_nil : encoded [] = [] := rfl

theorem encoded_group (a b c : UInt8) (x : List UInt8) :
    encoded (a :: b :: c :: x) =
      (unpack 6 4 (pack 8 [a.toNat, b.toNat, c.toNat])).map symbol ++ encoded x := by
  have hb := forall_toNat_lt [a, b, c]
  have h1 := regroupUp_append (j := 8) (k := 6) (by decide) ([a, b, c].map UInt8.toNat)
    (by simp) (x.map UInt8.toNat)
  rw [regroupUp_eq_unpack (m := 4) (r := 0) hb rfl (by decide), Nat.pow_zero, Nat.mul_one] at h1
  have h2 : padding (a :: b :: c :: x) = padding x := by
    rw [padding, padding, List.length_cons, List.length_cons, List.length_cons, Nat.add_assoc,
      Nat.add_assoc, Nat.add_mod_right]
  rw [encoded, encodedBody, h2, show (a :: b :: c :: x).map UInt8.toNat =
    [a, b, c].map UInt8.toNat ++ x.map UInt8.toNat from rfl, h1, List.map_append, List.append_assoc]
  rfl

/-- the last group, of one byte or two, is filled up with zeros -/
theorem encoded_last {x : List UInt8} {m r : ℕ} (hm : 8 * x.length + r = 6 * m) (hr : r < 6) :
    encoded x = (unpack 6 m (pack 8 (x.map UInt8.toNat) * 2 ^ r)).map symbol ++
      List.replicate (padding x) eqSign := by
  rw [encoded, encodedBody, regroupUp_eq_unpack (forall_toNat_lt x) (by rwa [List.length_map]) hr]

theorem decoded_nil : decoded [] = [] := rfl

theorem decoded_group {a b c d : UInt8} (h : ∀ e ∈ [a, b, c, d], is_base64 e = true)
    (body : List UInt8) :
    decoded (a :: b :: c :: d :: body) =
      (unpack 8 3 (pack 6 [value a, value b, value c, value d])).map UInt8.ofNat ++ decoded body := by
  have h1 := regroup_append (j := 6) (k := 8) (by decide) ([a, b, c, d].map value)
    (by simp) (body.map value)
  rw [regroup_eq_unpack (m := 3) (r := 0) (forall_value_lt h) rfl (by decide), Nat.pow_zero,
    Nat.div_one] at h1
  rw [decoded, show (a :: b :: c :: d :: body).map value =
    [a, b, c, d].map value ++ body.map value from rfl, h1, List.map_append]
  rfl

theorem decoded_last {body : List UInt8} {m r : ℕ} (h : ∀ c ∈ body, is_base64 c = true)
    (hm : 6 * body.length = 8 * m + r) (hr : r < 8) :
    decoded body = (unpack 8 m (pack 6 (body.map value) / 2 ^ r)).map UInt8.ofNat := by
  rw [decoded, regroup_eq_unpack (forall_value_lt h) (by rwa [List.length_map]) hr]

end Base64
end CppCores
