import Mathlib.Algebra.BigOperators.Ring.Finset
import Mathlib.Data.List.GetD
import Mathlib.Tactic.Ring
import CppCores.Utils.Hash.Overloads

/-!
# Hash: `quick_hash`

The four overloads share the recurrence `h = 31 * h + *str` on signed chars (`addChar`).  The one for
memory never moves `str`, and the one for `std::string_view` drops the size.

* `foldl_addChar`      the recurrence is the polynomial `poly` at 31, modulo `2 ^ 32`;
* `polyHash_ne`        one other byte gives another polynomial;
* `quick_hash_eq`      the overload for memory hashes the first byte as often as there are bytes;
* `quick_hash_iff`     **the kinds of memory and views for which the overloads compute the polynomial.**
-/

namespace CppCores
namespace HashUtils

/-! ## the code -/

/-- a byte as a signed char -/
def signed (c : UInt8) : ℤ := c.toInt8.toInt

/-- `h = 31 * h + *str` -/
def addChar (h : UInt32) (c : UInt8) : UInt32 := 31 * h + UInt32.ofInt (signed c)

/-- the loop up to the byte 0 -/
def quickLoop : List UInt8 → UInt32 → Option UInt32
  | [], _ => none
  | c :: str, h => if c = 0 then some h else quickLoop str (addChar h c)

/-- the overload for `const char *` -/
def quick_hash_str (str : Option (List UInt8)) : Option UInt32 :=
  str.bind fun mem => quickLoop mem 0

/-- the overload for `std::string`, whose `c_str()` ends with a byte 0 -/
def quick_hash_string (str : List UInt8) : Option UInt32 := quick_hash_str (some (str ++ [0]))

/-- the overload for `std::string_view` -/
def quick_hash_view (str : StringView) : Option UInt32 := quick_hash_str str.data

/-- the loop over `i < size`, which reads `*str` each time -/
def quickSized (str : Option (List UInt8)) : ℕ → UInt32 → Option UInt32
  | 0, h => some h
  | k + 1, h => (str.bind (·[0]?)).bind fun c => quickSized str k (addChar h c)

def quick_hash (tmp : Option (List UInt8)) (size : UInt32) : Option UInt32 :=
  quickSized tmp size.toNat 0

/-! ## the polynomial -/

/-- the sum of `l[i] * 31 ^ (n - 1 - i)` -/
def poly (l : List ℤ) : ℤ := ∑ i ∈ Finset.range l.length, l.getD i 0 * 31 ^ (l.length - 1 - i)

/-- what every overload has to compute for the bytes `b` -/
def polyHash (b : List UInt8) : UInt32 := UInt32.ofInt (poly (b.map signed))

theorem poly_concat (l : List ℤ) (c : ℤ) : poly (l ++ [c]) = 31 * poly l + c := by
  have hlen : (l ++ [c]).length = l.length + 1 := List.length_append
  unfold poly
  rw [hlen, Finset.sum_range_succ, Finset.mul_sum]
  congr 1
  · apply Finset.sum_congr rfl
    intro i hi
    have hlt := Finset.mem_range.mp hi
    have hexp : l.length + 1 - 1 - i = (l.length - 1 - i) + 1 := by omega
    rw [hexp, pow_succ, List.getD_append _ _ _ _ hlt]
    ring
  · simp

/-- **The recurrence computes the polynomial.** -/
theorem foldl_addChar (b : List UInt8) : b.foldl addChar 0 = polyHash b := by
  induction b using List.reverseRecOn with
  | nil => rfl
  | append_singleton b c ih =>
    rw [List.foldl_append, ih, polyHash, polyHash, List.map_append, List.map_singleton, poly_concat,
      UInt32.ofInt_add, UInt32.ofInt_mul]
    rfl

theorem ofInt_eq_iff (x y : ℤ) : UInt32.ofInt x = UInt32.ofInt y ↔ (0x100000000 : ℤ) ∣ x - y := by
  have hnat : ∀ z : ℤ, (UInt32.ofInt z).toNat = (z % 0x100000000).toNat := fun z => by
    have hlt := Int.emod_lt_of_pos z (by decide : (0 : ℤ) < 0x100000000)
    rw [UInt32.ofInt, UInt32.toNat_ofNat']
    exact Nat.mod_eq_of_lt (by omega)
  rw [← UInt32.toNat_inj, hnat, hnat]
  omega

theorem char_inj {c d : UInt8} (h : UInt32.ofInt (signed c) = UInt32.ofInt (signed d)) : c = d := by
  have hdvd := (ofInt_eq_iff _ _).mp h
  have hc := c.toInt8.toInt_lt
  have hc' := c.toInt8.le_toInt
  have hd := d.toInt8.toInt_lt
  have hd' := d.toInt8.le_toInt
  have heq : c.toInt8.toInt = d.toInt8.toInt := by
    unfold signed at hdvd
    omega
  exact congrArg Int8.toUInt8 (Int8.toInt_inj.mp heq)

/-- 31 has an inverse modulo `2 ^ 32` -/
theorem addChar_mixes : Mixes addChar where
  state _ x y h := by
    have hmul : 31 * x = 31 * y := (UInt32.add_left_inj _).mp h
    rw [UInt32.mul_comm, UInt32.mul_comm 31 y] at hmul
    exact mul_inj (m := 31) (w := 0xbdef7bdf) (by decide) hmul
  word _ _ _ h := char_inj ((UInt32.add_right_inj _).mp h)

/-- **One other byte gives another polynomial.** -/
theorem polyHash_ne {l m : List UInt8} {i : ℕ} (hi : l[i]? ≠ m[i]?) (hlen : l.length = m.length)
    (hrest : ∀ j, j ≠ i → l[j]? = m[j]?) : polyHash l ≠ polyHash m := by
  rw [← foldl_addChar, ← foldl_addChar]
  exact addChar_mixes.foldl_ne hi hlen hrest 0

theorem polyHash_middle_ne (p q : List UInt8) {x y : UInt8} (h : x ≠ y) :
    polyHash (p ++ x :: q) ≠ polyHash (p ++ y :: q) := by
  rw [← foldl_addChar, ← foldl_addChar, List.foldl_append, List.foldl_append, List.foldl_cons,
    List.foldl_cons]
  exact fun he => h (addChar_mixes.word _ (addChar_mixes.foldl_inj q he))

/-! ## the loops -/

theorem quickLoop_eq {c : List UInt8} (hc : ∀ x ∈ c, x ≠ 0) (rest : List UInt8) (h : UInt32) :
    quickLoop (c ++ 0 :: rest) h = some (c.foldl addChar h) := by
  induction c generalizing h with
  | nil => rfl
  | cons x c ih =>
    rw [List.cons_append, quickLoop, if_neg (hc x List.mem_cons_self),
      ih (fun y hy => hc y (List.mem_cons_of_mem x hy))]
    rfl

theorem quickSized_eq {mem : List UInt8} {c : UInt8} (hc : mem[0]? = some c) (k : ℕ) (h : UInt32) :
    quickSized (some mem) k h = some ((List.replicate k c).foldl addChar h) := by
  induction k generalizing h with
  | zero => rfl
  | succ k ih =>
    rw [quickSized, Option.bind_some, hc, Option.bind_some, ih]
    rfl

theorem quickLoop_none {mem : List UInt8} (h : strlen mem = none) (x : UInt32) :
    quickLoop mem x = none := by
  induction mem generalizing x with
  | nil => rfl
  | cons c mem ih =>
    rw [strlen] at h
    rw [quickLoop]
    split
    · next h0 =>
      rw [if_pos h0] at h
      cases h
    · next h0 =>
      rw [if_neg h0, Option.map_eq_none_iff] at h
      exact ih h _

theorem strlen_split {mem : List UInt8} {len : ℕ} (h : strlen mem = some len) :
    ∃ c rest, mem = c ++ 0 :: rest ∧ c.length = len ∧ ∀ x ∈ c, x ≠ 0 := by
  induction mem generalizing len with
  | nil => cases h
  | cons x mem ih =>
    rw [strlen] at h
    split at h
    · next h0 =>
      obtain rfl := Option.some.inj h
      exact ⟨[], mem, congrArg (· :: mem) h0, rfl, fun _ hx => absurd hx List.not_mem_nil⟩
    · next h0 =>
      obtain ⟨k, hk, rfl⟩ := Option.map_eq_some_iff.mp h
      obtain ⟨c, rest, rfl, rfl, hc⟩ := ih hk
      refine ⟨x :: c, rest, rfl, rfl, fun y hy => ?_⟩
      rcases List.mem_cons.mp hy with rfl | hy
      · exact h0
      · exact hc y hy

theorem quick_hash_str_eq {b : List UInt8} (hb : ∀ x ∈ b, x ≠ 0) (rest : List UInt8) :
    quick_hash_str (some (b ++ 0 :: rest)) = some (polyHash b) := by
  rw [quick_hash_str, Option.bind_some, quickLoop_eq hb, foldl_addChar]

/-- **The overload for memory hashes the first byte over and over.** -/
theorem quick_hash_eq {mem : List UInt8} {size : UInt32} (h : size.toNat ≤ mem.length) :
    quick_hash (some mem) size = some (polyHash (List.replicate size.toNat (mem.headD 0))) := by
  cases mem with
  | nil =>
    rw [quick_hash, Nat.le_zero.mp h]
    rfl
  | cons c mem => rw [quick_hash, quickSized_eq (c := c) rfl, foldl_addChar]; rfl

/-! ## the overload for memory -/

/-- the polynomial of the first `size` bytes is computed -/
def SizedRight (tmp : Option (List UInt8)) (size : UInt32) : Prop :=
  quick_hash tmp size = some (polyHash ((tmp.getD []).take size.toNat))

instance (tmp : Option (List UInt8)) (size : UInt32) : Decidable (SizedRight tmp size) :=
  inferInstanceAs (Decidable (_ = _))

/-- `D` tells the places of the bytes that are not the first one -/
def Pattern (D : ℕ → Bool) (n : ℕ) (mem : List UInt8) : Prop :=
  ∀ i < n, 0 < i → (D i = true ↔ mem[i]? ≠ mem[0]?)

theorem sizedRight_of_pattern {D : ℕ → Bool} {mem : List UInt8} {size : UInt32}
    (hle : size.toNat ≤ mem.length) (hp : Pattern D size.toNat mem)
    (hD : ∀ i < size.toNat, 0 < i → D i = false) : SizedRight (some mem) size := by
  have hall : List.replicate size.toNat (mem.headD 0) = mem.take size.toNat := by
    apply List.ext_getElem?
    intro i
    by_cases hi : i < size.toNat
    · have hfirst : mem[i]? = mem[0]? := by
        rcases Nat.eq_zero_or_pos i with rfl | hpos
        · rfl
        · by_contra hne
          exact Bool.false_ne_true ((hD i hi hpos).symm.trans ((hp i hi hpos).mpr hne))
      have hne : mem ≠ [] := List.ne_nil_of_length_pos (by omega)
      obtain ⟨c, mem, rfl⟩ := List.exists_cons_of_ne_nil hne
      rw [List.getElem?_take_of_lt hi, hfirst, List.getElem?_replicate, if_pos hi]
      rfl
    · rw [List.getElem?_eq_none (by rw [List.length_replicate]; omega),
        List.getElem?_eq_none (by rw [List.length_take]; omega)]
  rw [SizedRight, quick_hash_eq hle, hall, Option.getD_some]

/-- the byte `x` at `k`, 1 at the other places of `D`, 0 elsewhere -/
def filling (D : ℕ → Bool) (n k : ℕ) (x : UInt8) : List UInt8 :=
  List.ofFn fun i : Fin n =>
    if i.val = 0 then 0 else if i.val = k then x else if D i.val then 1 else 0

theorem filling_getElem? {D : ℕ → Bool} {n k i : ℕ} {x : UInt8} (hi : i < n) :
    (filling D n k x)[i]? =
      some (if i = 0 then 0 else if i = k then x else if D i then 1 else 0) := by
  rw [filling, List.getElem?_ofFn, dif_pos hi]

theorem filling_length {D : ℕ → Bool} {n k : ℕ} {x : UInt8} : (filling D n k x).length = n :=
  List.length_ofFn

theorem filling_pattern {D : ℕ → Bool} {n k : ℕ} {x : UInt8} (hk : D k = true) (hx : x ≠ 0) :
    Pattern D n (filling D n k x) := by
  intro i hi hpos
  rw [filling_getElem? hi, filling_getElem? (Nat.zero_lt_of_lt hi), if_pos rfl,
    if_neg (Nat.ne_of_gt hpos)]
  by_cases hik : i = k
  · subst hik
    rw [if_pos rfl]
    exact iff_of_true hk fun h => hx (Option.some.inj h)
  · rw [if_neg hik]
    split
    · next hm => exact iff_of_true hm (by decide)
    · next hm => exact iff_of_false hm fun h => h rfl

/-- **Two bytes that differ are too many**, whatever the others are. -/
theorem not_sizedRight {D : ℕ → Bool} {size : UInt32} {k : ℕ} (hk : k < size.toNat) (hpos : 0 < k)
    (hD : D k = true) :
    ∃ mem, size.toNat ≤ mem.length ∧ Pattern D size.toNat mem ∧ ¬ SizedRight (some mem) size := by
  by_contra hall
  have hright : ∀ x, x ≠ 0 →
      polyHash (List.replicate size.toNat 0) = polyHash (filling D size.toNat k x) := by
    intro x hx
    have hr : SizedRight (some (filling D size.toNat k x)) size := by
      by_contra hr
      exact hall ⟨_, filling_length.ge, filling_pattern hD hx, hr⟩
    have hhead : (filling D size.toNat k x).headD 0 = 0 := by
      rw [List.headD_eq_head?_getD, List.head?_eq_getElem?, filling_getElem? (Nat.zero_lt_of_lt hk),
        if_pos rfl, Option.getD_some]
    rw [SizedRight, quick_hash_eq filling_length.ge, hhead, Option.getD_some,
      List.take_of_length_le filling_length.le] at hr
    exact Option.some.inj hr
  have hne : polyHash (filling D size.toNat k 1) ≠ polyHash (filling D size.toNat k 2) := by
    refine polyHash_ne (i := k) ?_ ?_ ?_
    · rw [filling_getElem? hk, filling_getElem? hk, if_neg (Nat.ne_of_gt hpos),
        if_neg (Nat.ne_of_gt hpos), if_pos rfl, if_pos rfl]
      decide
    · rw [filling_length, filling_length]
    · intro j hj
      by_cases hjn : j < size.toNat
      · rw [filling_getElem? hjn, filling_getElem? hjn, if_neg hj, if_neg hj]
      · rw [List.getElem?_eq_none (by rw [filling_length]; omega),
          List.getElem?_eq_none (by rw [filling_length]; omega)]
  exact hne ((hright 1 (by decide)).symm.trans (hright 2 (by decide)))

/-! ## the overload for views -/

/-- the polynomial of the bytes of the view is computed -/
def ViewRight (str : StringView) : Prop :=
  quick_hash_view str = some (polyHash ((str.data.getD []).take str.size))

instance (str : StringView) : Decidable (ViewRight str) := inferInstanceAs (Decidable (_ = _))

theorem viewRight_iff {b c rest rest' : List UInt8} (hc : ∀ x ∈ c, x ≠ 0)
    (he : c ++ 0 :: rest = b ++ rest') :
    ViewRight ⟨some (c ++ 0 :: rest), b.length⟩ ↔ polyHash c = polyHash b := by
  show quick_hash_str (some (c ++ 0 :: rest)) = some (polyHash ((c ++ 0 :: rest).take b.length)) ↔ _
  rw [quick_hash_str_eq hc, he, List.take_left, Option.some_inj]

/-- a view whose string ends elsewhere, the 0 byte not being its last -/
theorem not_viewRight_ends {n k : ℕ} (hnk : n < k ∨ k + 1 < n) :
    ∃ mem, n ≤ mem.length ∧ strlen mem = some k ∧ ¬ ViewRight ⟨some mem, n⟩ := by
  obtain ⟨c, b, rest, rest', hc, rfl, rfl, he, hne⟩ := exists_ends_ne
    (fun p q => polyHash_middle_ne p q (by decide)) hnk
  refine ⟨c ++ 0 :: rest, ?_, strlen_append hc rest, fun hv => hne ((viewRight_iff hc he).mp hv)⟩
  rw [he, List.length_append]
  exact Nat.le_add_right _ _

/-- a view whose last byte is the 0 byte, if it is not the only one -/
theorem not_viewRight_last (k : ℕ) :
    ∃ mem, k + 2 ≤ mem.length ∧ strlen mem = some (k + 1) ∧ ¬ ViewRight ⟨some mem, k + 2⟩ := by
  let c := fun x : UInt8 => List.replicate k 1 ++ [x]
  have hlen : ∀ x, (c x).length = k + 1 := fun x => by
    rw [List.length_append, List.length_replicate, List.length_singleton]
  have hlen0 : ∀ x, (c x ++ [0]).length = k + 2 := fun x => by
    rw [List.length_append, hlen, List.length_singleton]
  have hc : ∀ x, x ≠ 0 → ∀ y ∈ c x, y ≠ 0 := by
    intro x hx y hy
    rcases List.mem_append.mp hy with hy | hy
    · exact not_zero_of_replicate y hy
    · rw [List.mem_singleton.mp hy]
      exact hx
  by_contra hall
  -- the polynomial is 31 times itself, for two that are next to each other
  have hfix : ∀ x, x ≠ 0 → polyHash (c x) = 31 * polyHash (c x) := by
    intro x hx
    have hv : ViewRight ⟨some (c x ++ [0]), (c x ++ [0]).length⟩ := by
      by_contra hv
      rw [hlen0] at hv
      refine hall ⟨_, (hlen0 x).ge, ?_, hv⟩
      rw [strlen_append (hc x hx), hlen]
    have heq := (viewRight_iff (hc x hx) (List.append_nil _).symm).mp hv
    calc polyHash (c x) = polyHash (c x ++ [0]) := heq
      _ = addChar (polyHash (c x)) 0 := by
        rw [← foldl_addChar, ← foldl_addChar, List.foldl_append, List.foldl_cons, List.foldl_nil]
      _ = 31 * polyHash (c x) := UInt32.add_zero _
  have hnext : polyHash (c 2) = polyHash (c 1) + 1 := by
    rw [← foldl_addChar, ← foldl_addChar, List.foldl_append, List.foldl_append]
    exact (UInt32.add_assoc _ 1 1).symm
  have h1 := hfix 1 (by decide)
  have h2 := hfix 2 (by decide)
  rw [hnext, UInt32.mul_add, ← h1] at h2
  exact absurd ((UInt32.add_right_inj _).mp h2) (by decide)

theorem not_viewRight_none (n : ℕ) :
    ∃ mem, n ≤ mem.length ∧ strlen mem = none ∧ ¬ ViewRight ⟨some mem, n⟩ := by
  have hnone : strlen (List.replicate n 1) = none := strlen_none not_zero_of_replicate
  refine ⟨_, List.length_replicate.ge, hnone, fun hv => ?_⟩
  have hleft : quick_hash_view ⟨some (List.replicate n 1), n⟩ = none := quickLoop_none hnone 0
  rw [ViewRight, hleft] at hv
  cases hv

/-- **The kinds of views, by their size and the length of the string at `data()`.** -/
theorem viewRight_kind_iff (n : ℕ) (len : Option ℕ) :
    (∀ mem, n ≤ mem.length → strlen mem = len → ViewRight ⟨some mem, n⟩) ↔
      len = some n ∨ (n = 1 ∧ len = some 0) := by
  constructor
  · intro hall
    by_contra hne
    obtain ⟨hn, h1⟩ := not_or.mp hne
    obtain ⟨mem, hle, hs, hv⟩ :
        ∃ mem, n ≤ mem.length ∧ strlen mem = len ∧ ¬ ViewRight ⟨some mem, n⟩ := by
      cases len with
      | none => exact not_viewRight_none n
      | some k =>
        have hkn : k ≠ n := fun h => hn (congrArg some h)
        by_cases hk : n = k + 1
        · subst hk
          cases k with
          | zero => exact absurd ⟨rfl, rfl⟩ h1
          | succ k => exact not_viewRight_last k
        · exact not_viewRight_ends (by omega)
    exact hv (hall mem hle hs)
  · intro hlen mem hle hs
    rcases hlen with rfl | ⟨rfl, rfl⟩
    · obtain ⟨c, rest, rfl, rfl, hc⟩ := strlen_split hs
      have hiff : ViewRight ⟨some (c ++ 0 :: rest), c.length⟩ ↔ polyHash c = polyHash c :=
        viewRight_iff hc rfl
      exact hiff.mpr rfl
    · obtain ⟨c, rest, rfl, hc0, hc⟩ := strlen_split hs
      obtain rfl := List.eq_nil_of_length_eq_zero hc0
      have hiff : ViewRight ⟨some (0 :: rest), 1⟩ ↔ polyHash [] = polyHash [0] :=
        viewRight_iff (b := [0]) hc rfl
      exact hiff.mpr (by decide)

/-- **The overload for memory is right for the bytes that are all the first one, null included, and for
no other pattern of bytes; the one for views is right if the view ends with its string or is the 0
byte alone, for no other pair of lengths, and never at null; the ones for strings are right.** -/
theorem quick_hash_iff (D : ℕ → Bool) (size : UInt32) (n : ℕ) (len : Option ℕ) :
    ((∀ mem, size.toNat ≤ mem.length → Pattern D size.toNat mem → SizedRight (some mem) size) ↔
      ∀ i < size.toNat, 0 < i → D i = false) ∧
    SizedRight none 0 ∧
    ((∀ mem, n ≤ mem.length → strlen mem = len → ViewRight ⟨some mem, n⟩) ↔
      len = some n ∨ (n = 1 ∧ len = some 0)) ∧
    ¬ ViewRight ⟨none, n⟩ ∧
    ∀ b rest, (∀ x ∈ b, x ≠ 0) →
      quick_hash_str (some (b ++ 0 :: rest)) = some (polyHash b) ∧
        quick_hash_string b = some (polyHash b) := by
  refine ⟨⟨fun hall i hi hpos => ?_, fun hD mem hle hp => sizedRight_of_pattern hle hp hD⟩, rfl,
    viewRight_kind_iff n len, fun h => ?_,
    fun b rest hb => ⟨quick_hash_str_eq hb rest, quick_hash_str_eq hb []⟩⟩
  · by_contra hD
    obtain ⟨mem, hle, hp, hr⟩ := not_sizedRight hi hpos (Bool.not_eq_false _ ▸ hD)
    exact hr (hall mem hle hp)
  · cases h

/-- equal bytes, a view that ends with its string, and a string with a byte above 127 -/
theorem quick_hash_three :
    SizedRight (some [97, 97, 97]) 3 ∧ ViewRight ⟨some [97, 200, 0, 5], 2⟩ ∧
      quick_hash_str (some [97, 200, 0]) = some (polyHash [97, 200]) := by
  obtain ⟨hsized, -, hview, -, hstr⟩ := quick_hash_iff (fun _ => false) 3 2 (some 2)
  refine ⟨hsized.mpr (fun _ _ _ => rfl) [97, 97, 97] (by decide) ?_,
    hview.mpr (.inl rfl) [97, 200, 0, 5] (by decide) (by decide), (hstr [97, 200] [] (by simp)).1⟩
  intro i hi hpos
  match i, hi, hpos with
  | 1, _, _ | 2, _, _ => decide

/-- bytes that differ can be right by accident -/
example : SizedRight (some [32, 33, 1]) 3 := by decide

/-- two bytes: the first is hashed twice -/
theorem not_quick_hash : ¬ ∀ (b : List UInt8) (size : UInt32), size.toNat = b.length →
    quick_hash (some b) size = some (polyHash b) := by
  intro hall
  exact absurd (hall [97, 98] 2 rfl) (by decide)

end HashUtils
end CppCores
