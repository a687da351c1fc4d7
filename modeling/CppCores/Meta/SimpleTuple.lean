import Mathlib.Data.List.Basic
import Mathlib.Tactic.Common

/-!
# SimpleTuple: the two hashes of `meta/simple_tuple.h`

`Ty` stands for the element types of C++ and `Val` for their values, so that a `TupleImpl` has
elements of any types; `hash` is the family `std::hash`.  A `tuple_get` with an index that no leaf has
does not compile: here it is `none`.

* `hash_tuple_fold_eq`     `hash_tuple_fold` combines the hashes of all elements;
* `hash_tuple_struct_eq`   `hash_tuple_struct` combines those behind the first: its recursion ends at
                           the index 0 with the seed, and not with the element;
* `hash_tuple_iff`         **the two agree iff the first hash leaves no trace, and for no tuple do
                           they agree whatever the hash functions are.**
-/

namespace CppCores
namespace SimpleTuple

/-- an element with its type -/
structure Leaf {Ty : Type*} (Val : Ty → Type*) where
  type : Ty
  value_ : Val type

/-- the elements from the index `Index` on; there is at least one -/
inductive TupleImpl {Ty : Type*} (Val : Ty → Type*) : ℕ → List Ty → Type _ where
  | base {Index : ℕ} {T : Ty} (value : Val T) : TupleImpl Val Index [T]
  | cons {Index : ℕ} {T U : Ty} {Ts : List Ty} (head : Val T)
      (tails : TupleImpl Val (Index + 1) (U :: Ts)) : TupleImpl Val Index (T :: U :: Ts)

abbrev Tuple {Ty : Type*} (Val : Ty → Type*) (Ts : List Ty) := TupleImpl Val 0 Ts

section
variable {Ty : Type*} {Val : Ty → Type*} {Index : ℕ} {Ts : List Ty}

def tuple_get : {Index : ℕ} → {Ts : List Ty} → TupleImpl Val Index Ts → ℕ → Option (Leaf Val)
  | Index, [T], .base value, i => if i = Index then some ⟨T, value⟩ else none
  | Index, T :: _ :: _, .cons head tails, i =>
    if i = Index then some ⟨T, head⟩ else tuple_get tails i

/-- `seed ^= hash + 0x9e3779b9 + (seed << 6) + (seed >> 2)` -/
def combine_hash (seed hash : UInt64) : UInt64 :=
  seed ^^^ (hash + 0x9e3779b9 + (seed <<< (6 : UInt64)) + (seed >>> (2 : UInt64)))

def hash_combine (lhs rhs : UInt64) : UInt64 := combine_hash lhs rhs

variable (hash : (T : Ty) → Val T → UInt64)

def TupleHashHelper (tuple : Tuple Val Ts) : ℕ → Option UInt64
  | 0 => some 0
  | Index + 1 =>
    (TupleHashHelper tuple Index).bind fun seed =>
      (tuple_get tuple (Index + 1)).map fun leaf => hash_combine seed (hash leaf.type leaf.value_)

def HashTuple (tuple : Tuple Val Ts) : Option UInt64 :=
  if Ts.length = 0 then some 0 else TupleHashHelper hash tuple (Ts.length - 1)

def hash_tuple_struct (t : Tuple Val Ts) : Option UInt64 := HashTuple hash t

/-- the fold expression over the indices `Is`, from the left -/
def hash_tuple_impl (t : Tuple Val Ts) (Is : List ℕ) : Option UInt64 :=
  Is.foldlM (fun seed i =>
    (tuple_get t i).map fun leaf => combine_hash seed (hash leaf.type leaf.value_)) 0

def hash_tuple_fold (t : Tuple Val Ts) : Option UInt64 :=
  hash_tuple_impl hash t (List.range Ts.length)

/-! ## the elements in order -/

def leaves : {Index : ℕ} → {Ts : List Ty} → TupleImpl Val Index Ts → List (Leaf Val)
  | _, [T], .base value => [⟨T, value⟩]
  | _, T :: _ :: _, .cons head tails => ⟨T, head⟩ :: leaves tails

/-- the hashes of the elements -/
def hashes (t : TupleImpl Val Index Ts) : List UInt64 :=
  (leaves t).map fun leaf => hash leaf.type leaf.value_

/-- the hashes combined from the left, from the seed 0 -/
def leftFold (l : List UInt64) : UInt64 := l.foldl combine_hash 0

/-- the two hashes agree, and leave out no element -/
def Agree (t : Tuple Val Ts) : Prop :=
  hash_tuple_struct hash t = hash_tuple_fold hash t ∧
    hash_tuple_fold hash t = some (leftFold (hashes hash t))

/-- the others combined from the hash of the first are what they are from 0 -/
def FirstForgotten (t : Tuple Val Ts) : Prop :=
  ∀ h ∈ (hashes hash t).head?,
    (hashes hash t).tail.foldl combine_hash (h + 0x9e3779b9) = leftFold (hashes hash t).tail

theorem length_leaves (t : TupleImpl Val Index Ts) : (leaves t).length = Ts.length := by
  induction t with
  | base value => rfl
  | cons head tails ih => exact congrArg (· + 1) ih

theorem length_pos (t : TupleImpl Val Index Ts) : 0 < Ts.length := by
  cases t <;> exact Nat.succ_pos _

theorem tuple_get_eq (t : TupleImpl Val Index Ts) (i : ℕ) :
    tuple_get t (Index + i) = (leaves t)[i]? := by
  induction t generalizing i with
  | base value =>
    cases i with
    | zero => exact if_pos rfl
    | succ i => exact if_neg (by omega)
  | cons head tails ih =>
    cases i with
    | zero => exact if_pos rfl
    | succ i =>
      rw [tuple_get, if_neg (by omega), ← Nat.add_assoc, Nat.add_right_comm, ih]
      rfl

theorem hash_get (t : Tuple Val Ts) (i : ℕ) :
    (tuple_get t i).map (fun leaf => hash leaf.type leaf.value_) = (hashes hash t)[i]? := by
  have hget := tuple_get_eq t i
  rw [Nat.zero_add] at hget
  rw [hget, hashes, List.getElem?_map]

theorem length_hashes (t : TupleImpl Val Index Ts) : (hashes hash t).length = Ts.length := by
  rw [hashes, List.length_map, length_leaves]

variable {hash}

theorem combine_hash_zero (h : UInt64) : combine_hash 0 h = h + 0x9e3779b9 := by
  simp [combine_hash]

theorem leftFold_take_succ {l : List UInt64} {k : ℕ} (hk : k < l.length) :
    leftFold (l.take (k + 1)) = combine_hash (leftFold (l.take k)) l[k] := by
  unfold leftFold
  rw [List.take_add_one, List.getElem?_eq_getElem hk, Option.toList_some, List.foldl_append]
  rfl

/-! ## the two hashes -/

theorem hash_tuple_impl_range (t : Tuple Val Ts) {k : ℕ} (hk : k ≤ Ts.length) :
    hash_tuple_impl hash t (List.range k) = some (leftFold ((hashes hash t).take k)) := by
  induction k with
  | zero => rfl
  | succ k ih =>
    have hlt : k < (hashes hash t).length := by rwa [length_hashes]
    have hget := hash_get hash t k
    rw [List.getElem?_eq_getElem hlt] at hget
    obtain ⟨leaf, hleaf, hhash⟩ := Option.map_eq_some_iff.mp hget
    have hk' := ih (Nat.le_of_succ_le hk)
    unfold hash_tuple_impl at hk' ⊢
    rw [List.range_succ, List.foldlM_append, hk', leftFold_take_succ hlt, ← hhash]
    show ((tuple_get t k).map fun leaf => combine_hash _ (hash leaf.type leaf.value_)).bind some = _
    rw [hleaf]
    rfl

/-- **`hash_tuple_fold` combines the hashes of all elements.** -/
theorem hash_tuple_fold_eq (t : Tuple Val Ts) :
    hash_tuple_fold hash t = some (leftFold (hashes hash t)) := by
  rw [hash_tuple_fold, hash_tuple_impl_range t (Nat.le_refl _), ← length_hashes hash t,
    List.take_length]

theorem TupleHashHelper_eq (t : Tuple Val Ts) {k : ℕ} (hk : k < Ts.length) :
    TupleHashHelper hash t k = some (leftFold ((hashes hash t).tail.take k)) := by
  induction k with
  | zero => rfl
  | succ k ih =>
    have hlt : k < (hashes hash t).tail.length := by
      rw [List.length_tail, length_hashes]
      omega
    have hget := hash_get hash t (k + 1)
    rw [← List.getElem?_tail, List.getElem?_eq_getElem hlt] at hget
    obtain ⟨leaf, hleaf, hhash⟩ := Option.map_eq_some_iff.mp hget
    rw [TupleHashHelper, ih (Nat.lt_of_succ_lt hk), Option.bind_some, hleaf, Option.map_some, hhash,
      leftFold_take_succ hlt, hash_combine]

/-- **`hash_tuple_struct` combines the hashes behind the first.** -/
theorem hash_tuple_struct_eq (t : Tuple Val Ts) :
    hash_tuple_struct hash t = some (leftFold (hashes hash t).tail) := by
  have hpos := length_pos t
  have hlen : (hashes hash t).tail.length = Ts.length - 1 := by
    rw [List.length_tail, length_hashes]
  rw [hash_tuple_struct, HashTuple, if_neg (Nat.ne_of_gt hpos), TupleHashHelper_eq t (by omega),
    ← hlen, List.take_length]

theorem agree_iff (t : Tuple Val Ts) : Agree hash t ↔ FirstForgotten hash t := by
  have hpos : 0 < (hashes hash t).length := (length_hashes hash t).symm ▸ length_pos t
  unfold Agree FirstForgotten
  rw [hash_tuple_struct_eq, hash_tuple_fold_eq]
  cases hl : hashes hash t with
  | nil =>
    rw [hl] at hpos
    exact absurd hpos (Nat.lt_irrefl 0)
  | cons h l =>
    have hfold : leftFold (h :: l) = l.foldl combine_hash (h + 0x9e3779b9) := by
      rw [leftFold, List.foldl_cons, combine_hash_zero]
    rw [hfold]
    constructor
    · intro he x hx
      obtain rfl := Option.some.inj hx
      exact (Option.some.inj he.1).symm
    · intro he
      exact ⟨congrArg some (he h rfl).symm, rfl⟩

/-! ## a hash that always leaves a trace -/

theorem mix_toNat (s : UInt64) : ((s <<< (6 : UInt64)) + (s >>> (2 : UInt64))).toNat =
    (64 * s.toNat + s.toNat / 4) % 18446744073709551616 := by
  have h6 : (6 : UInt64).toNat % 64 = 6 := by decide
  have h2 : (2 : UInt64).toNat % 64 = 2 := by decide
  rw [UInt64.toNat_add, UInt64.toNat_shiftLeft, UInt64.toNat_shiftRight, h6, h2, Nat.shiftLeft_eq,
    Nat.shiftRight_eq_div_pow]
  omega

/-- `257 * q + 64 * r` misses `-(104 + 0x9e3779b9)` modulo `2 ^ 64`, for each of the four `r` -/
theorem mix_ne {n : ℕ} (h : n < 18446744073709551616) :
    (2654435873 + (64 * n + n / 4)) % 18446744073709551616 ≠ 0 := by
  obtain ⟨q, r, hr, rfl⟩ : ∃ q r, r < 4 ∧ n = 4 * q + r := ⟨n / 4, n % 4, by omega, by omega⟩
  have hq : (4 * q + r) / 4 = q := by omega
  rw [hq]
  obtain rfl | rfl | rfl | rfl : r = 0 ∨ r = 1 ∨ r = 2 ∨ r = 3 := by omega
  all_goals omega

/-- no seed is left as it is by an element with the hash 104 -/
theorem combine_hash_ne (seed : UInt64) : combine_hash seed 104 ≠ seed := by
  intro h
  have h0 : 104 + 0x9e3779b9 + (seed <<< (6 : UInt64)) + (seed >>> (2 : UInt64)) = 0 := by
    have hx := congrArg (seed ^^^ ·) h
    simpa [combine_hash, ← UInt64.xor_assoc] using hx
  have hc : (104 + 0x9e3779b9 : UInt64).toNat = 2654435873 := by decide
  have hn := congrArg UInt64.toNat h0
  rw [UInt64.add_assoc, UInt64.toNat_add, mix_toNat, hc] at hn
  apply mix_ne seed.toNat_lt
  rw [← Nat.add_mod_mod]
  exact hn

theorem not_agree_const (t : Tuple Val Ts) : ¬ Agree (fun _ _ => 104) t := by
  intro hag
  have he : leftFold (hashes (fun _ _ => 104) t).tail = leftFold (hashes (fun _ _ => 104) t) := by
    have := hag.1
    rw [hash_tuple_struct_eq, hash_tuple_fold_eq] at this
    exact Option.some.inj this
  have hconst : hashes (fun _ _ => 104) t = List.replicate Ts.length 104 := by
    rw [hashes, List.map_const', length_leaves]
  obtain ⟨k, hk⟩ := Nat.exists_eq_succ_of_ne_zero (Nat.ne_of_gt (length_pos t))
  rw [hconst, hk, List.replicate_succ, List.tail_cons, ← List.replicate_succ,
    List.replicate_succ', leftFold, leftFold, List.foldl_append] at he
  exact combine_hash_ne _ he.symm

/-- **The two hashes agree iff the hash of the first element leaves no trace, and for no tuple do
they agree whatever the hash functions are.** -/
theorem hash_tuple_iff (t : Tuple Val Ts) :
    (∀ hash, Agree hash t ↔ FirstForgotten hash t) ∧ ¬ ∀ hash, Agree hash t :=
  ⟨fun _ => agree_iff t, fun hall => not_agree_const t (hall _)⟩

/-- a tuple of one number; `std::hash` of a number is the number -/
theorem not_agree : ¬ ∀ t : Tuple (fun _ : Unit => UInt64) [()],
    hash_tuple_struct (fun _ value => value) t = hash_tuple_fold (fun _ value => value) t := by
  intro hall
  exact absurd (hall (.base 7)) (by decide)

end
end SimpleTuple
end CppCores
