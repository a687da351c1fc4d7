import CppCores.Utils.Hash.Collisions

/-!
# Hash: the overloads of `murmur3_hash`

The overload for `std::string_view` passes `str.data()` on and drops `str.size()`, so that the bytes
it hashes go up to the first that is 0.

* `murmur3_congr`      the overload for memory reads the bytes in front of `size` alone;
* `not_viewAgrees_ends`, `not_viewAgrees_last`   a string that ends behind the view, or inside of it, has
                       another hash for some contents and seed;
* `views_iff`          **the overloads agree on the views that a 0 byte follows and that hold none, and
                       on no other kind of views.**
-/

namespace CppCores
namespace HashUtils

section
variable {mem mem' : List UInt8} {n : ℕ}

/-! ## what is read -/

theorem toInt_cases (n : ℕ) : 0 ≤ toInt n ∧ toInt n ≤ n ∨ toInt n < 0 ∧ 0x80000000 ≤ n := by
  have hmod := Int.bmod_emod (x := (n : ℤ)) (m := 0x100000000)
  have hle := Int.le_bmod (x := (n : ℤ)) (m := 0x100000000) (by decide)
  have hlt := Int.bmod_lt (x := (n : ℤ)) (m := 0x100000000) (by decide)
  unfold toInt
  omega

theorem blocks_le (n : ℕ) : 4 * ((toInt n).tdiv 4).toNat ≤ n ∧
    ∀ j < (toInt n % 4).toNat, (toInt n).tdiv 4 * 4 + (j : ℤ) < n := by
  have hcases := toInt_cases n
  have hdiv := Int.tdiv_eq_ediv (a := toInt n) (b := 4)
  have hsign : Int.sign 4 = 1 := rfl
  rw [hsign] at hdiv
  constructor
  · split at hdiv <;> omega
  · intro j hj
    split at hdiv <;> omega

theorem DecodeFixed32_congr {ptr : ℕ} (h : ∀ j < n, mem[j]? = mem'[j]?) (hp : ptr + 4 ≤ n) :
    DecodeFixed32 mem ptr = DecodeFixed32 mem' ptr := by
  rw [DecodeFixed32, DecodeFixed32, h ptr (by omega), h (ptr + 1) (by omega),
    h (ptr + 2) (by omega), h (ptr + 3) (by omega)]

theorem tailWord_congr {tail : ℤ} {k : ℕ} (h : ∀ j < k, byteAt mem (tail + j) = byteAt mem' (tail + j))
    (s : UInt32) : tailWord mem tail k s = tailWord mem' tail k s := by
  induction k generalizing s with
  | zero => rfl
  | succ k ih =>
    rw [tailWord, tailWord, h k (Nat.lt_succ_self k)]
    congr 1
    funext b
    exact ih (fun j hj => h j (Nat.lt_succ_of_lt hj)) _

/-- **The bytes behind the length are not read.** -/
theorem murmur3_congr (h : ∀ j < n, mem[j]? = mem'[j]?) (seed : UInt32) :
    murmur3 mem (toInt n) seed = murmur3 mem' (toInt n) seed := by
  obtain ⟨hblocks, htail⟩ := blocks_le n
  have hloop : ∀ k ≤ ((toInt n).tdiv 4).toNat,
      (List.range k).foldlM (fun h i => (DecodeFixed32 mem (4 * i)).map (mixBlock h)) seed =
        (List.range k).foldlM (fun h i => (DecodeFixed32 mem' (4 * i)).map (mixBlock h)) seed := by
    intro k
    induction k with
    | zero => exact fun _ => rfl
    | succ k ih =>
      intro hk
      have hlast : DecodeFixed32 mem (4 * k) = DecodeFixed32 mem' (4 * k) :=
        DecodeFixed32_congr h (by omega)
      rw [List.range_succ, List.foldlM_append, List.foldlM_append, ih (by omega)]
      congr 1
      funext x
      show ((DecodeFixed32 mem (4 * k)).map _).bind _ = ((DecodeFixed32 mem' (4 * k)).map _).bind _
      rw [hlast]
      rfl
  have hbyte : ∀ j < (toInt n % 4).toNat,
      byteAt mem ((toInt n).tdiv 4 * 4 + j) = byteAt mem' ((toInt n).tdiv 4 * 4 + j) := by
    intro j hj
    have hlt := htail j hj
    unfold byteAt
    split
    · exact h _ (by omega)
    · rfl
  rw [murmur3, murmur3, hloop _ (Nat.le_refl _), tailWord_congr hbyte]

theorem toInt_ofNat (n : ℕ) : toInt (UInt32.ofNat n).toNat = toInt n := by
  rw [UInt32.toNat_ofNat']
  exact Int.emod_bmod n 0x100000000

theorem murmur3_hash_some (mem : List UInt8) (n : ℕ) (seed : UInt32) :
    murmur3_hash (some mem) (UInt32.ofNat n) seed = murmur3 mem (toInt n) seed := by
  rw [murmur3_hash, toInt_ofNat]

theorem murmur3_hash_append {b : List UInt8} (hb : b.length < 2 ^ 31) (rest : List UInt8)
    (seed : UInt32) :
    murmur3_hash (some (b ++ rest)) (UInt32.ofNat b.length) seed = some (murmur b seed) := by
  rw [murmur3_hash_some, toInt_of_lt hb, murmur3_eq]

theorem strlen_append {c : List UInt8} (hc : ∀ x ∈ c, x ≠ 0) (rest : List UInt8) :
    strlen (c ++ 0 :: rest) = some c.length := by
  induction c with
  | nil => rfl
  | cons x c ih =>
    rw [List.cons_append, strlen, if_neg (hc x List.mem_cons_self),
      ih fun y hy => hc y (List.mem_cons_of_mem x hy)]
    rfl

theorem strlen_none {c : List UInt8} (hc : ∀ x ∈ c, x ≠ 0) : strlen c = none := by
  induction c with
  | nil => rfl
  | cons x c ih =>
    rw [strlen, if_neg (hc x List.mem_cons_self), ih fun y hy => hc y (List.mem_cons_of_mem x hy)]
    rfl

theorem murmur3_hash_str_some {len : ℕ} (h : strlen mem = some len) (seed : UInt32) :
    murmur3_hash_str (some mem) seed = murmur3_hash (some mem) (UInt32.ofNat len) seed := by
  rw [murmur3_hash_str, h, Option.bind_some, murmur3_hash_some]

/-! ## strings of different lengths -/

/-- the overloads agree on the `n` bytes that `mem` begins with, whatever the seed is -/
def ViewAgrees (mem : List UInt8) (n : ℕ) : Prop :=
  ∀ seed, murmur3_hash_view ⟨some mem, n⟩ seed = murmur3_hash (some mem) (UInt32.ofNat n) seed

theorem oneBlock_middle (p q : List UInt8) {x y : UInt8} (h : x ≠ y) :
    OneBlock (p ++ x :: q) (p ++ y :: q) where
  length := by simp
  ne := by simpa using h
  inside := by
    refine ⟨p.length / 4, fun j hj => ?_⟩
    have hpos : j = p.length := by
      by_contra hne
      apply hj
      rcases Nat.lt_or_gt_of_ne hne with hlt | hgt
      · rw [List.getElem?_append_left hlt, List.getElem?_append_left hlt]
      · obtain ⟨k, hk⟩ := Nat.exists_eq_add_of_lt hgt
        rw [List.getElem?_append_right (by omega), List.getElem?_append_right (by omega), hk,
          Nat.add_assoc, Nat.add_sub_cancel_left]
        rfl
    rw [hpos]

instance finiteUInt32 : Finite UInt32 := .of_injective UInt32.toFin fun _ _ => UInt32.toFin_inj.mp

theorem mixTail_zero (h : UInt32) {l : List UInt8} : mixTail h (l ++ [0]) = mixTail h l := by
  have hword : word (l ++ [0]) = word l := by
    rw [word, word, ofLe_concat]
    rfl
  rw [mixTail, mixTail, hword, if_neg (by simp)]
  split
  · next h0 =>
    rw [List.eq_nil_of_length_eq_zero h0]
    exact UInt32.xor_zero
  · rfl

/-- one byte more that is 0, where it does not fill a block: the lengths are told apart -/
theorem murmur_zero_short {c : List UInt8} (hc : c.length + 1 < 2 ^ 32) (h3 : c.length % 4 ≠ 3)
    (seed : UInt32) : murmur c seed ≠ murmur (c ++ [0]) seed := by
  obtain ⟨hwords, htail⟩ := words_concat_short h3 (0 : UInt8)
  intro he
  rw [murmur, murmur, hwords, htail, mixTail_zero, List.length_append, List.length_singleton] at he
  have hlen := congrArg UInt32.toNat (xor_left_inj _ (fmix32_inj he))
  rw [UInt32.toNat_ofNat_of_lt' (Nat.lt_of_succ_lt hc), UInt32.toNat_ofNat_of_lt' hc] at hlen
  exact absurd hlen (Nat.succ_ne_self _).symm

/-- where it does, some seed leads to the state 0, which the whole block does not keep -/
theorem murmur_zero_full {c : List UInt8} (hc : c.length + 1 < 2 ^ 32) (h3 : c.length % 4 = 3) :
    ∃ seed, murmur c seed ≠ murmur (c ++ [0]) seed := by
  obtain ⟨hwords, htail⟩ := words_concat_full h3 (0 : UInt8)
  obtain ⟨seed, hseed⟩ := mixBlock_mixes.foldl_surj (words c) (scramble (word (tail c)))
  have hseed : (words c).foldl mixBlock seed = scramble (word (tail c)) := hseed
  have hword : word (tail c ++ [0]) = word (tail c) := by
    rw [word, word, ofLe_concat]
    rfl
  have hne : (tail c).length ≠ 0 := by
    rw [length_tail]
    omega
  refine ⟨seed, fun he => ?_⟩
  rw [murmur, murmur, hwords, htail, List.foldl_append, hseed, List.foldl_cons, List.foldl_nil,
    hword, mixTail, if_neg hne, mixBlock, UInt32.xor_self, UInt32.zero_xor, List.length_append,
    List.length_singleton] at he
  have hx := fmix32_inj he
  -- the two lengths differ in the lowest bit, and the constant is even
  have hbit := congrArg (fun x => x.toNat.testBit 0) hx
  have hodd : (UInt32.ofNat c.length).toNat.testBit 0 = true := by
    rw [UInt32.toNat_ofNat_of_lt' (Nat.lt_of_succ_lt hc), Nat.testBit_zero]
    exact decide_eq_true (by omega)
  have heven : (UInt32.ofNat (c.length + 1)).toNat.testBit 0 = false := by
    rw [UInt32.toNat_ofNat_of_lt' hc, Nat.testBit_zero]
    exact decide_eq_false (by omega)
  have hconst : (mixTail (ROTL 0 13 * 5 + 0xe6546b64) []).toNat.testBit 0 = false := by decide
  simp only [UInt32.toNat_xor, Nat.testBit_xor, hodd, heven, hconst] at hbit
  exact absurd hbit (by decide)

/-! ## the overloads -/

theorem ViewAgrees.murmur_eq {b c : List UInt8} (rest rest' : List UInt8) (hc : ∀ x ∈ c, x ≠ 0)
    (hcl : c.length < 2 ^ 31) (hbl : b.length < 2 ^ 31) (he : c ++ 0 :: rest = b ++ rest')
    (hv : ViewAgrees (c ++ 0 :: rest) b.length) (seed : UInt32) : murmur c seed = murmur b seed := by
  have hview : murmur3_hash_view ⟨some (c ++ 0 :: rest), b.length⟩ seed = some (murmur c seed) := by
    show murmur3_hash_str (some (c ++ 0 :: rest)) seed = _
    rw [murmur3_hash_str_some (strlen_append hc rest), murmur3_hash_append hcl]
  have hsize := hv seed
  rw [hview, he, murmur3_hash_append hbl] at hsize
  exact Option.some.inj hsize

theorem not_zero_of_replicate {k : ℕ} : ∀ x ∈ List.replicate k (1 : UInt8), x ≠ 0 := by
  intro x hx
  rw [List.eq_of_mem_replicate hx]
  decide

theorem exists_ne_of_two {β : Type*} {f : UInt8 → β} (h : f 1 ≠ f 2) (v : β) :
    ∃ x, x ≠ 0 ∧ f x ≠ v := by
  by_cases h1 : f 1 = v
  · exact ⟨2, by decide, fun h2 => h (h1.trans h2.symm)⟩
  · exact ⟨1, by decide, h1⟩

/-- **A function that tells strings with one other byte apart tells some view and its string apart**,
for all lengths of the two but those that are equal or have the 0 byte as the last of the view. -/
theorem exists_ends_ne {β : Type*} {H : List UInt8 → β}
    (hH : ∀ a b, H (a ++ 1 :: b) ≠ H (a ++ 2 :: b)) {n k : ℕ} (hnk : n < k ∨ k + 1 < n) :
    ∃ c b rest rest', (∀ x ∈ c, x ≠ 0) ∧ c.length = k ∧ b.length = n ∧
      c ++ 0 :: rest = b ++ rest' ∧ H c ≠ H b := by
  rcases hnk with hnk | hkn
  · obtain ⟨m, rfl⟩ := Nat.exists_eq_add_of_lt hnk
    let b := List.replicate n (1 : UInt8)
    have hb : b.length = n := List.length_replicate
    let f := fun x => H (b ++ x :: List.replicate m 1)
    obtain ⟨x, hx, hne⟩ := exists_ne_of_two (f := f) (hH b (List.replicate m 1)) (H b)
    refine ⟨b ++ x :: List.replicate m 1, b, [], x :: List.replicate m 1 ++ [0], ?_, ?_, hb, ?_, hne⟩
    · intro y hy
      rcases List.mem_append.mp hy with hy | hy
      · exact not_zero_of_replicate y hy
      · rcases List.mem_cons.mp hy with rfl | hy
        · exact hx
        · exact not_zero_of_replicate y hy
    · rw [List.length_append, List.length_cons, hb, List.length_replicate, Nat.add_assoc]
    · rw [List.append_assoc, List.cons_append]
  · obtain ⟨m, rfl⟩ := Nat.exists_eq_add_of_lt hkn
    let c := List.replicate k (1 : UInt8)
    have hc : c.length = k := List.length_replicate
    let a := c ++ 0 :: List.replicate m 1
    let f := fun x => H (a ++ [x])
    obtain ⟨x, -, hne⟩ := exists_ne_of_two (f := f) (hH a []) (H c)
    refine ⟨c, a ++ [x], List.replicate m 1 ++ [x], [], not_zero_of_replicate, hc, ?_, ?_, hne.symm⟩
    · simp only [a, List.length_append, List.length_cons, List.length_nil, hc, List.length_replicate]
      omega
    · simp only [a, List.append_assoc, List.cons_append, List.append_nil]

/-- a view whose string ends elsewhere, the 0 byte not being its last -/
theorem not_viewAgrees_ends {n k : ℕ} (hn : n < 2 ^ 31) (hk : k < 2 ^ 31) (hnk : n < k ∨ k + 1 < n) :
    ∃ mem, n ≤ mem.length ∧ strlen mem = some k ∧ ¬ ViewAgrees mem n := by
  obtain ⟨c, b, rest, rest', hc, rfl, rfl, he, hne⟩ := exists_ends_ne
    (H := fun l => murmur l 0) (fun p q => murmur_ne (oneBlock_middle p q (by decide)) 0) hnk
  refine ⟨c ++ 0 :: rest, ?_, strlen_append hc rest, fun hv => ?_⟩
  · rw [he, List.length_append]
    exact Nat.le_add_right _ _
  · exact hne (ViewAgrees.murmur_eq rest rest' hc hk hn he hv 0)

theorem not_viewAgrees_last {k : ℕ} (hk : k + 1 < 2 ^ 31) :
    ∃ mem, k + 1 ≤ mem.length ∧ strlen mem = some k ∧ ¬ ViewAgrees mem (k + 1) := by
  let c := List.replicate k (1 : UInt8)
  have hcl : c.length = k := List.length_replicate
  have hlen : (c ++ [0]).length = k + 1 := by rw [List.length_append, hcl]; rfl
  refine ⟨c ++ [0], Nat.le_of_eq hlen.symm, ?_, fun hv => ?_⟩
  · rw [strlen_append not_zero_of_replicate, hcl]
  have hv : ViewAgrees (c ++ [0]) (c ++ [0]).length := by rwa [hlen]
  have heq := ViewAgrees.murmur_eq [] [] not_zero_of_replicate (hcl.trans_lt (Nat.lt_of_succ_lt hk))
    (hlen.trans_lt hk) (List.append_nil _).symm hv
  have hbound : c.length + 1 < 2 ^ 32 := by omega
  by_cases h3 : c.length % 4 = 3
  · obtain ⟨seed, hne⟩ := murmur_zero_full hbound h3
    exact hne (heq seed)
  · exact murmur_zero_short hbound h3 0 (heq 0)

/-- no byte is 0: `strlen` leaves the memory -/
theorem not_viewAgrees_none {n : ℕ} (hn : n < 2 ^ 31) :
    ∃ mem, n ≤ mem.length ∧ strlen mem = none ∧ ¬ ViewAgrees mem n := by
  have hlen : (List.replicate n (1 : UInt8)).length = n := List.length_replicate
  have hnone : strlen (List.replicate n 1) = none := strlen_none not_zero_of_replicate
  refine ⟨_, Nat.le_of_eq hlen.symm, hnone, fun hv => ?_⟩
  have hsize := murmur3_hash_append (b := List.replicate n 1) (by rwa [hlen]) [] 0
  have hview : murmur3_hash_view ⟨some (List.replicate n 1), n⟩ 0 = none := by
    show (strlen (List.replicate n 1)).bind _ = none
    rw [hnone]
    rfl
  rw [List.append_nil, hlen, ← hv 0, hview] at hsize
  cases hsize

/-- the string that the pointer of the view stands for ends where the view ends; or it is null -/
def Terminated (str : StringView) : Prop :=
  ∀ mem ∈ str.data, strlen mem = some str.size

/-- **The overloads agree where the view ends with its string, the result depends on the bytes of
the view alone, and no other length of the string is right for all contents and seeds.** -/
theorem views_iff (n : ℕ) :
    (∀ (data : Option (List UInt8)) (seed : UInt32), Terminated ⟨data, n⟩ →
      murmur3_hash_view ⟨data, n⟩ seed = murmur3_hash data (UInt32.ofNat n) seed ∧
        murmur3_hash_str data seed = murmur3_hash data (UInt32.ofNat n) seed) ∧
    (∀ (mem mem' : List UInt8) (seed : UInt32), (∀ j < n, mem[j]? = mem'[j]?) →
      murmur3_hash (some mem) (UInt32.ofNat n) seed =
        murmur3_hash (some mem') (UInt32.ofNat n) seed) ∧
    ∀ len : Option ℕ, n < 2 ^ 31 → (∀ k ∈ len, k < 2 ^ 31) →
      ((∀ mem, n ≤ mem.length → strlen mem = len → ViewAgrees mem n) ↔ len = some n) := by
  refine ⟨?_, ?_, ?_⟩
  · intro data seed ht
    have hstr : murmur3_hash_str data seed = murmur3_hash data (UInt32.ofNat n) seed := by
      cases data with
      | none => rfl
      | some mem => exact murmur3_hash_str_some (ht mem rfl) seed
    exact ⟨hstr, hstr⟩
  · intro mem mem' seed h
    rw [murmur3_hash_some, murmur3_hash_some]
    exact murmur3_congr h seed
  · intro len hn hlen
    constructor
    · intro hall
      by_contra hne
      obtain ⟨mem, hle, hs, hv⟩ : ∃ mem, n ≤ mem.length ∧ strlen mem = len ∧ ¬ ViewAgrees mem n := by
        cases len with
        | none => exact not_viewAgrees_none hn
        | some k =>
          have hkn : k ≠ n := fun h => hne (congrArg some h)
          by_cases hk : n = k + 1
          · subst hk
            exact not_viewAgrees_last hn
          · exact not_viewAgrees_ends hn (hlen k rfl) (by omega)
      exact hv (hall mem hle hs)
    · rintro rfl mem - hs seed
      exact murmur3_hash_str_some hs seed

/-- a view of two bytes, other bytes behind it, and the two kinds of lengths -/
theorem views_two :
    murmur3_hash_view ⟨some [97, 98, 0, 99], 2⟩ 5 = murmur3_hash (some [97, 98, 0, 99]) 2 5 ∧
      murmur3_hash (some [97, 98, 0, 99]) 2 5 = murmur3_hash (some [97, 98]) 2 5 ∧
      ((∀ mem, 2 ≤ mem.length → strlen mem = some 3 → ViewAgrees mem 2) ↔ some 3 = some 2) := by
  refine ⟨((views_iff 2).1 (some [97, 98, 0, 99]) 5 fun mem hm => ?_).1,
    (views_iff 2).2.1 [97, 98, 0, 99] [97, 98] 5 fun j hj => ?_,
    (views_iff 2).2.2 (some 3) (by decide) (by decide)⟩
  · obtain rfl := Option.some.inj hm
    decide
  · match j, hj with
    | 0, _ | 1, _ => rfl

/-- the view of the first of two bytes: both are hashed -/
theorem not_views : ¬ ∀ (mem : List UInt8) (n : ℕ) (seed : UInt32), n ≤ mem.length →
    murmur3_hash_view ⟨some mem, n⟩ seed = murmur3_hash (some mem) (UInt32.ofNat n) seed := by
  intro hall
  exact absurd (hall [97, 98, 0] 1 0 (by decide)) (by decide)

end
end HashUtils
end CppCores
