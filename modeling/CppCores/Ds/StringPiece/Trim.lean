import Mathlib.Data.List.DropRight
import CppCores.Ds.StringPiece.Search
import CppCores.Lib.Ctype

/-!
# StringPiece: `trim_spaces`

Both loops count spaces, the first one from the front and the second one from the end of what is left;
`remove_prefix` and `remove_suffix` cut as many characters off.  They hand `isspace` a `char`, which is
signed; an argument that is neither an `unsigned char` nor `EOF` is undefined behaviour.

* `Trimmed s r`        `r` is `s` without the spaces around it;
* `trimSpaces_spec`    **this is what `trim_spaces` makes of a piece, and nothing else is, if it starts
                       and ends with characters that `isspace` is defined for.**
-/

namespace CppCores
namespace StringPiece
open Decimal (blank)
open Ctype

variable {self r : StringPiece}

/-! ## the code -/

/-- the length of a piece that loses more than it has would wrap around -/
def removePrefix (self : StringPiece) (n : UInt64) : Option StringPiece :=
  if n ≤ self.size then
    some ⟨self.bytes.drop n.toNat, by
      have hlen := self.length_lt
      rw [List.length_drop]
      omega⟩
  else none

def removeSuffix (self : StringPiece) (n : UInt64) : Option StringPiece :=
  if n ≤ self.size then
    some ⟨self.bytes.take (self.size - n).toNat, by
      have hlen := self.length_lt
      rw [List.length_take]
      omega⟩
  else none

/-- `for (; nsp < size() && isspace(ptr_[...]); ++nsp) {}` -/
def spaces (self : StringPiece) (index : ℕ → ℕ) (nsp : ℕ) : Option ℕ :=
  if _h : nsp < self.bytes.length then
    match self.bytes[index nsp]?.bind fun c => isspace (charToInt c) with
    | some true => spaces self index (nsp + 1)
    | some false => some nsp
    | none => none
  else some nsp
termination_by self.bytes.length - nsp

def trimSpaces (self : StringPiece) : Option StringPiece :=
  (self.spaces id 0).bind fun nsp => (self.removePrefix (.ofNat nsp)).bind fun self =>
    (self.spaces (fun nsp => self.bytes.length - 1 - nsp) 0).bind fun nsp =>
      self.removeSuffix (.ofNat nsp)

/-! ## what it is for -/

/-- `r` is `s` without the spaces around it -/
structure Trimmed (s r : StringPiece) : Prop where
  around : ∃ front back, s.bytes = front ++ r.bytes ++ back ∧
    (∀ c ∈ front, blank c = true) ∧ ∀ c ∈ back, blank c = true
  first : ∀ c, r.bytes.head? = some c → blank c = false
  last : ∀ c, r.bytes.getLast? = some c → blank c = false

/-- `isspace` is defined for the characters at both ends -/
def Ends (r : StringPiece) : Prop :=
  ∀ c, r.bytes.head? = some c ∨ r.bytes.getLast? = some c → Plain c

/-! ## the loops -/

/-- `isspace` is defined for the first character that is no space -/
def Stops (l : List UInt8) : Prop := ∀ c, (l.dropWhile blank).head? = some c → Plain c

theorem isspace_eq_some {c : UInt8} {sp : Bool} (h : isspace (charToInt c) = some sp) :
    Plain c ∧ blank c = sp := by
  rw [isspace_char] at h
  split at h
  · exact ⟨‹_›, Option.some.inj h⟩
  · cases h

theorem stops_cons_blank {c : UInt8} (h : blank c = true) (l : List UInt8) :
    Stops (c :: l) ↔ Stops l := by
  rw [Stops, List.dropWhile_cons_of_pos h]
  rfl

theorem stops_cons {c : UInt8} (h : blank c = false) (l : List UInt8) :
    Stops (c :: l) ↔ Plain c := by
  rw [Stops, List.dropWhile_cons_of_neg (by simp [h])]
  simp

theorem stops_nil : Stops [] := fun _ h => nomatch h

theorem spaces_iff (self : StringPiece) (index : ℕ → ℕ) {l : List UInt8}
    (hlen : l.length = self.bytes.length)
    (hl : ∀ i, i < self.bytes.length → self.bytes[index i]? = l[i]?) (nsp n : ℕ) :
    self.spaces index nsp = some n ↔
      Stops (l.drop nsp) ∧ n = nsp + ((l.drop nsp).takeWhile blank).length := by
  fun_induction self.spaces index nsp with
  | case1 nsp hlt hsp ih =>
    have hlt' : nsp < l.length := hlen ▸ hlt
    rw [hl nsp hlt, List.getElem?_eq_getElem hlt', Option.bind_some] at hsp
    obtain ⟨-, hb⟩ := isspace_eq_some hsp
    rw [ih, List.drop_eq_getElem_cons hlt', stops_cons_blank hb, List.takeWhile_cons_of_pos hb,
      List.length_cons, Nat.add_right_comm, Nat.add_assoc nsp]
  | case2 nsp hlt hsp =>
    have hlt' : nsp < l.length := hlen ▸ hlt
    rw [hl nsp hlt, List.getElem?_eq_getElem hlt', Option.bind_some] at hsp
    obtain ⟨hc, hb⟩ := isspace_eq_some hsp
    rw [List.drop_eq_getElem_cons hlt', stops_cons hb, List.takeWhile_cons_of_neg (by simp [hb])]
    simp [hc, eq_comm]
  | case3 nsp hlt hsp =>
    have hlt' : nsp < l.length := hlen ▸ hlt
    rw [hl nsp hlt, List.getElem?_eq_getElem hlt', Option.bind_some] at hsp
    have hc : ¬ Plain l[nsp] := by
      intro hc
      rw [isspace_char, if_pos hc] at hsp
      cases hsp
    have hb : blank l[nsp] = false := by
      by_contra hb
      exact hc (plain_of_blank (Bool.not_eq_false _ ▸ hb))
    rw [List.drop_eq_getElem_cons hlt', stops_cons hb]
    simp [hc]
  | case4 nsp h =>
    rw [List.drop_eq_nil_of_le (by omega)]
    simp [stops_nil, eq_comm]

theorem spaces_front (self : StringPiece) (n : ℕ) : self.spaces id 0 = some n ↔
    Stops self.bytes ∧ n = (self.bytes.takeWhile blank).length := by
  rw [spaces_iff self id (l := self.bytes) rfl (fun i _ => rfl), List.drop_zero, Nat.zero_add]

theorem spaces_back (self : StringPiece) (n : ℕ) :
    self.spaces (fun nsp => self.bytes.length - 1 - nsp) 0 = some n ↔
      Stops self.bytes.reverse ∧ n = (self.bytes.rtakeWhile blank).length := by
  rw [spaces_iff self _ (l := self.bytes.reverse) List.length_reverse
    (fun i hi => (List.getElem?_reverse hi).symm), List.drop_zero, Nat.zero_add, List.rtakeWhile,
    List.length_reverse]

theorem eq_of_bytes {x y : StringPiece} (h : x.bytes = y.bytes) : x = y := by
  cases x
  cases y
  subst h
  rfl

theorem toNat_of_le {n : ℕ} (h : n ≤ self.bytes.length) : (UInt64.ofNat n).toNat = n := by
  have hlen := self.length_lt
  exact UInt64.toNat_ofNat_of_lt' (by show n < 2 ^ 64; omega)

theorem drop_of_append {a b l : List UInt8} (h : a ++ b = l) : l.drop a.length = b := by
  subst h
  exact List.drop_left

theorem take_of_append {a b l : List UInt8} (h : a ++ b = l) :
    l.take (l.length - b.length) = a := by
  subst h
  rw [List.length_append, Nat.add_sub_cancel]
  exact List.take_left

theorem removePrefix_eq {n : ℕ} (h : n ≤ self.bytes.length) :
    ∃ r, self.removePrefix (.ofNat n) = some r ∧ r.bytes = self.bytes.drop n := by
  have hle : UInt64.ofNat n ≤ self.size := by
    rw [UInt64.le_iff_toNat_le, size_toNat, toNat_of_le h]
    exact h
  refine ⟨_, if_pos hle, ?_⟩
  show self.bytes.drop _ = _
  rw [toNat_of_le h]

theorem removeSuffix_eq {n : ℕ} (h : n ≤ self.bytes.length) :
    ∃ r, self.removeSuffix (.ofNat n) = some r ∧
      r.bytes = self.bytes.take (self.bytes.length - n) := by
  have hle : UInt64.ofNat n ≤ self.size := by
    rw [UInt64.le_iff_toNat_le, size_toNat, toNat_of_le h]
    exact h
  refine ⟨_, if_pos hle, ?_⟩
  show self.bytes.take _ = _
  rw [UInt64.toNat_sub_of_le _ _ hle, toNat_of_le h, size_toNat]

theorem trimSpaces_eq (self : StringPiece) :
    ∃ r : StringPiece, r.bytes = (self.bytes.dropWhile blank).rdropWhile blank ∧
      ∀ r', self.trimSpaces = some r' ↔
        r' = r ∧ Stops self.bytes ∧ Stops (self.bytes.dropWhile blank).reverse := by
  have hfront : (self.bytes.takeWhile blank).length ≤ self.bytes.length :=
    (List.takeWhile_prefix _).length_le
  obtain ⟨m, hm, hmb⟩ := removePrefix_eq hfront
  have hdrop : m.bytes = self.bytes.dropWhile blank := by
    rw [hmb]
    exact drop_of_append List.takeWhile_append_dropWhile
  have hback : (m.bytes.rtakeWhile blank).length ≤ m.bytes.length :=
    (List.rtakeWhile_suffix blank m.bytes).length_le
  obtain ⟨r, hr, hrb⟩ := removeSuffix_eq hback
  refine ⟨r, ?_, fun r' => ⟨fun h => ?_, fun h => ?_⟩⟩
  · rw [hrb, ← hdrop]
    exact take_of_append List.rdropWhile_append_rtakeWhile
  · obtain ⟨n, hn, h⟩ := Option.bind_eq_some_iff.mp h
    obtain ⟨hs, rfl⟩ := (spaces_front self n).mp hn
    rw [hm, Option.bind_some] at h
    obtain ⟨k, hk, h⟩ := Option.bind_eq_some_iff.mp h
    obtain ⟨hs', rfl⟩ := (spaces_back m k).mp hk
    rw [hdrop] at hs'
    exact ⟨Option.some.inj (h.symm.trans hr), hs, hs'⟩
  · obtain ⟨rfl, hs, hs'⟩ := h
    rw [trimSpaces, (spaces_front self _).mpr ⟨hs, rfl⟩, Option.bind_some, hm, Option.bind_some,
      (spaces_back m _).mpr ⟨hdrop ▸ hs', rfl⟩, Option.bind_some]
    exact hr

/-! ## the result -/

theorem trimmed_bytes (h : Trimmed self r) :
    r.bytes = (self.bytes.dropWhile blank).rdropWhile blank := by
  obtain ⟨front, back, hself, hfront, hback⟩ := h.around
  rw [hself, List.append_assoc, List.dropWhile_append_of_pos hfront]
  cases hr : r.bytes with
  | nil =>
    rw [List.nil_append, List.dropWhile_eq_nil_iff.mpr hback]
    rfl
  | cons c q =>
    have hc := h.first c (by rw [hr]; rfl)
    have hd : (c :: q ++ back).dropWhile blank = c :: q ++ back :=
      List.dropWhile_cons_of_neg (by simp [hc])
    rw [hd, List.rdropWhile, List.reverse_append, List.dropWhile_append_of_pos (by simpa using hback)]
    have hlast : (c :: q).rdropWhile blank = c :: q := by
      apply List.rdropWhile_eq_self_iff.mpr
      intro hl
      have hl' := h.last ((c :: q).getLast hl) (by rw [hr, List.getLast?_eq_some_getLast hl])
      simp [hl']
    exact hlast.symm

theorem trimmed_of_bytes (hb : r.bytes = (self.bytes.dropWhile blank).rdropWhile blank) :
    Trimmed self r := by
  refine ⟨⟨self.bytes.takeWhile blank, (self.bytes.dropWhile blank).rtakeWhile blank, ?_,
    fun c hc => List.mem_takeWhile_imp hc, fun c hc => List.mem_rtakeWhile_imp hc⟩, ?_, ?_⟩
  · rw [hb, List.append_assoc, List.rdropWhile_append_rtakeWhile, List.takeWhile_append_dropWhile]
  · intro c hc
    rw [hb] at hc
    -- the first character of what is left is the first one that is no space
    have hd := List.head?_dropWhile_not blank self.bytes
    rw [← List.rdropWhile_append_rtakeWhile (p := blank) (l := self.bytes.dropWhile blank),
      List.head?_append, hc] at hd
    exact hd
  · intro c hc
    rw [hb] at hc
    have hne : (self.bytes.dropWhile blank).rdropWhile blank ≠ [] := by
      intro he
      rw [he] at hc
      cases hc
    rw [List.getLast?_eq_some_getLast hne] at hc
    obtain rfl := Option.some.inj hc
    simpa using List.rdropWhile_last_not blank _ hne

/-- the loops stop at the ends of what is left -/
theorem ends_iff (hb : r.bytes = (self.bytes.dropWhile blank).rdropWhile blank) :
    Ends r ↔ Stops self.bytes ∧ Stops (self.bytes.dropWhile blank).reverse := by
  have hlast : r.bytes.getLast? = ((self.bytes.dropWhile blank).reverse.dropWhile blank).head? := by
    rw [hb, List.rdropWhile, List.getLast?_reverse]
  have hhead : r.bytes.head? = (self.bytes.dropWhile blank).head? := by
    have happ := List.rdropWhile_append_rtakeWhile (p := blank) (l := self.bytes.dropWhile blank)
    rw [← hb] at happ
    cases hr : r.bytes with
    | cons c q =>
      rw [← happ, hr]
      rfl
    | nil =>
      rw [hr, List.nil_append] at happ
      -- only spaces are left behind the spaces in front
      have hd := List.head?_dropWhile_not blank self.bytes
      cases hc : (self.bytes.dropWhile blank).head? with
      | none => rfl
      | some c =>
        rw [hc] at hd
        have hmem : c ∈ self.bytes.dropWhile blank := List.mem_of_mem_head? hc
        rw [← happ] at hmem
        have hbc := List.mem_rtakeWhile_imp hmem
        rw [hd] at hbc
        cases hbc
  rw [Ends, hlast, hhead]
  constructor
  · intro h
    exact ⟨fun c hc => h c (.inl hc), fun c hc => h c (.inr hc)⟩
  · rintro ⟨h1, h2⟩ c (hc | hc)
    · exact h1 c hc
    · exact h2 c hc

theorem trimSpaces_iff (ht : Trimmed self r) (r' : StringPiece) :
    self.trimSpaces = some r' ↔ r' = r ∧ Ends r := by
  obtain ⟨r₀, hb, hr₀⟩ := trimSpaces_eq self
  obtain rfl : r = r₀ := eq_of_bytes ((trimmed_bytes ht).trans hb.symm)
  rw [hr₀, ends_iff hb]

/-- **`trim_spaces` removes the spaces around a piece, all of them and nothing else**, if `isspace` is
defined for both ends of what is left; otherwise it is undefined.  Then there is nothing left to
remove. -/
theorem trimSpaces_spec (self : StringPiece) : ∃ r, Trimmed self r ∧
    (∀ r', Trimmed self r' → r' = r) ∧ (∀ r', self.trimSpaces = some r' ↔ r' = r ∧ Ends r) ∧
      r.trimSpaces = self.trimSpaces := by
  obtain ⟨r, hb, -⟩ := trimSpaces_eq self
  have ht : Trimmed self r := trimmed_of_bytes hb
  have htr : Trimmed r r := ⟨⟨[], [], by simp⟩, ht.first, ht.last⟩
  refine ⟨r, ht, fun r' h => eq_of_bytes ((trimmed_bytes h).trans hb.symm), trimSpaces_iff ht, ?_⟩
  apply Option.ext
  intro r'
  rw [trimSpaces_iff htr, trimSpaces_iff ht]

end StringPiece
end CppCores
