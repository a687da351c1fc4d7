import Mathlib.Algebra.Group.Nat.Defs
import Mathlib.Data.List.Basic
import Mathlib.Data.List.Induction
import Mathlib.Order.Lattice
import Mathlib.Tactic.Common

/-!
# Regrouping the bits of a list of numbers

A list of numbers below `2 ^ j` is a row of bits, `j` for each number and the highest first;
`regroup j k` cuts the row in pieces of `k` bits and reads each piece as a number.

* `bits k v`, `ofBits l`   a number as a row of `k` bits, and back;
* `chunks k l`             the whole pieces of `k` elements of `l`;
* `regroup j k vs`         bits left at the end are dropped, `regroupUp j k vs` fills them up with 0;
* `regroup_regroupUp`      **regrouping to fewer bits and back gives the list again**;
* `regroup_eq_unpack`, `regroupUp_eq_unpack`   the same through one packed number: `pack j vs` is the
                           number with the digits `vs` to the base `2 ^ j`, `unpack k m w` the `m` low
                           digits of `w` to the base `2 ^ k`;
* `leBytes k n`, `ofLe l`  a number as `k` bytes, the lowest first, and back; `ofLe_inj`: as many bytes
                           are given by their number.
-/

namespace CppCores

/-- the `k` low bits of `v`, the highest first -/
def bits : ℕ → ℕ → List Bool
  | 0, _ => []
  | k + 1, v => bits k (v / 2) ++ [v % 2 == 1]

def ofBits (l : List Bool) : ℕ := l.foldl (fun v b => 2 * v + b.toNat) 0

/-! ## bits -/

@[simp] theorem length_bits (k v : ℕ) : (bits k v).length = k := by
  induction k generalizing v with
  | zero => rfl
  | succ k ih => rw [bits, List.length_append, ih]; rfl

theorem bits_add (j k v : ℕ) : bits (j + k) v = bits j (v / 2 ^ k) ++ bits k v := by
  induction k generalizing v with
  | zero => simp [bits]
  | succ k ih =>
    rw [Nat.add_succ, bits, ih, bits, Nat.div_div_eq_div_mul, ← Nat.pow_succ', List.append_assoc]

/-- what lies above the `k` low bits does not matter -/
theorem bits_mul_add (k a b : ℕ) : bits k (a * 2 ^ k + b) = bits k b := by
  induction k generalizing b with
  | zero => rfl
  | succ k ih =>
    have h1 : (a * 2 ^ (k + 1) + b) / 2 = a * 2 ^ k + b / 2 := by
      rw [Nat.pow_succ, ← Nat.mul_assoc]
      omega
    have h2 : (a * 2 ^ (k + 1) + b) % 2 = b % 2 := by
      rw [Nat.pow_succ, ← Nat.mul_assoc]
      omega
    rw [bits, bits, h1, h2, ih]

theorem bits_append {k b : ℕ} (j a : ℕ) (hb : b < 2 ^ k) :
    bits j a ++ bits k b = bits (j + k) (a * 2 ^ k + b) := by
  have h : (a * 2 ^ k + b) / 2 ^ k = a := by
    rw [Nat.mul_comm, Nat.mul_add_div (Nat.two_pow_pos k), Nat.div_eq_of_lt hb, Nat.add_zero]
  rw [bits_add, h, bits_mul_add]

theorem bits_zero (k : ℕ) : bits k 0 = List.replicate k false := by
  induction k with
  | zero => rfl
  | succ k ih => rw [bits, Nat.zero_div, ih, List.replicate_succ']; rfl

theorem ofBits_concat (l : List Bool) (b : Bool) : ofBits (l ++ [b]) = 2 * ofBits l + b.toNat := by
  rw [ofBits, List.foldl_append]
  rfl

theorem ofBits_bits (k v : ℕ) : ofBits (bits k v) = v % 2 ^ k := by
  induction k generalizing v with
  | zero => rw [Nat.pow_zero, Nat.mod_one]; rfl
  | succ k ih =>
    rw [bits, ofBits_concat, ih, Nat.pow_succ', Nat.mod_mul, Nat.add_comm]
    have : (v % 2 == 1).toNat = v % 2 := by
      obtain h | h := Nat.mod_two_eq_zero_or_one v <;> rw [h] <;> rfl
    rw [this]

theorem ofBits_lt (l : List Bool) : ofBits l < 2 ^ l.length := by
  induction l using List.reverseRecOn with
  | nil => exact Nat.one_pos
  | append_singleton l b ih =>
    have := Bool.toNat_le b
    rw [ofBits_concat, List.length_append, List.length_singleton, Nat.pow_succ]
    omega

theorem bits_ofBits (l : List Bool) : bits l.length (ofBits l) = l := by
  induction l using List.reverseRecOn with
  | nil => rfl
  | append_singleton l b ih =>
    have h1 : (2 * ofBits l + b.toNat) / 2 = ofBits l := by cases b <;> simp; omega
    have h2 : ((2 * ofBits l + b.toNat) % 2 == 1) = b := by cases b <;> simp
    rw [List.length_append, List.length_singleton, bits, ofBits_concat, h1, h2, ih]

theorem forall_byte {p : UInt8 → Prop} (h : ∀ n : Fin 256, p (UInt8.ofNat n)) (c : UInt8) : p c := by
  have := h ⟨c.toNat, c.toNat_lt⟩
  rwa [UInt8.ofNat_toNat] at this

/-! ## the fields of a byte -/

theorem toNat_low (x : UInt8) {m : UInt8} (w : ℕ) (hm : m.toNat = 2 ^ w - 1) :
    (x &&& m).toNat = x.toNat % 2 ^ w := by
  rw [UInt8.toNat_and, hm, Nat.and_two_pow_sub_one_eq_mod]

theorem toNat_field (x : UInt8) {m s : UInt8} (i w : ℕ) (hs : s.toNat % 8 = i)
    (hm : m.toNat >>> i = 2 ^ w - 1) : ((x &&& m) >>> s).toNat = x.toNat / 2 ^ i % 2 ^ w := by
  rw [UInt8.toNat_shiftRight, UInt8.toNat_and, hs, Nat.shiftRight_and_distrib, hm,
    Nat.and_two_pow_sub_one_eq_mod, Nat.shiftRight_eq_div_pow]

theorem toNat_shift (x : UInt8) {s : UInt8} (i : ℕ) (hs : s.toNat % 8 = i) :
    (x <<< s).toNat = x.toNat * 2 ^ i % 2 ^ 8 := by
  rw [UInt8.toNat_shiftLeft, hs, Nat.shiftLeft_eq]

/-! ## pieces of one length -/

section
variable {α : Type*} {k : ℕ}

/-- the whole pieces of `k` elements; what is left at the end is dropped -/
def chunks (k : ℕ) (l : List α) : List (List α) :=
  (List.range (l.length / k)).map fun i => (l.drop (k * i)).take k

@[simp] theorem length_chunks (k : ℕ) (l : List α) : (chunks k l).length = l.length / k := by
  simp [chunks]

theorem chunks_short {l : List α} (h : l.length < k) : chunks k l = [] := by
  rw [chunks, Nat.div_eq_of_lt h]
  rfl

theorem chunks_cons (hk : 0 < k) {x : List α} (hx : x.length = k) (l : List α) :
    chunks k (x ++ l) = x :: chunks k l := by
  have h : (x ++ l).length / k = l.length / k + 1 := by
    rw [List.length_append, hx, Nat.add_comm, Nat.add_div_right _ hk]
  rw [chunks, h, List.range_succ_eq_map, List.map_cons, Nat.mul_zero, List.drop_zero,
    List.take_left' hx, List.map_map]
  congr 1
  apply List.map_congr_left
  intro i _
  have : k * (i + 1) = x.length + k * i := by rw [hx, Nat.mul_succ, Nat.add_comm]
  simp only [Function.comp, Nat.succ_eq_add_one, this, List.drop_length_add_append]

/-- pieces of the right length are found again -/
theorem chunks_flatten (hk : 0 < k) {L : List (List α)} (hL : ∀ x ∈ L, x.length = k) (l : List α) :
    chunks k (L.flatten ++ l) = L ++ chunks k l := by
  induction L with
  | nil => rfl
  | cons x L ih =>
    rw [List.flatten_cons, List.append_assoc, chunks_cons hk (hL x List.mem_cons_self),
      ih fun y hy => hL y (List.mem_cons_of_mem _ hy), List.cons_append]

/-- a list of `k * m` elements is its pieces -/
theorem exists_chunks (hk : 0 < k) (m : ℕ) {l : List α} (hl : l.length = k * m) :
    ∃ L : List (List α), L.flatten = l ∧ (∀ x ∈ L, x.length = k) ∧ chunks k l = L := by
  have hflat : ∃ L : List (List α), L.flatten = l ∧ ∀ x ∈ L, x.length = k := by
    induction m generalizing l with
    | zero => exact ⟨[], (List.length_eq_zero_iff.mp hl).symm, by simp⟩
    | succ m ih =>
      rw [Nat.mul_succ] at hl
      have hd : (l.drop k).length = k * m := by rw [List.length_drop]; omega
      obtain ⟨L, h1, h2⟩ := ih hd
      refine ⟨l.take k :: L, by rw [List.flatten_cons, h1, List.take_append_drop], ?_⟩
      intro x hx
      rcases List.mem_cons.mp hx with rfl | hx
      · rw [List.length_take]; omega
      · exact h2 x hx
  obtain ⟨L, h1, h2⟩ := hflat
  refine ⟨L, h1, h2, ?_⟩
  have := chunks_flatten hk h2 []
  rwa [List.append_nil, h1, chunks_short (l := []) hk, List.append_nil] at this

end

/-! ## regrouping -/

def regroup (j k : ℕ) (vs : List ℕ) : List ℕ := (chunks k (vs.flatMap (bits j))).map ofBits

/-- `l` with zeros behind it up to a multiple of `k` -/
def fillUp (k : ℕ) (l : List Bool) : List Bool :=
  l ++ List.replicate ((k - l.length % k) % k) false

def regroupUp (j k : ℕ) (vs : List ℕ) : List ℕ :=
  (chunks k (fillUp k (vs.flatMap (bits j)))).map ofBits

section
variable {j k : ℕ} {vs : List ℕ}

@[simp] theorem length_flatMap_bits (j : ℕ) (vs : List ℕ) :
    (vs.flatMap (bits j)).length = j * vs.length := by
  induction vs with
  | nil => rfl
  | cons v vs ih =>
    rw [List.flatMap_cons, List.length_append, length_bits, ih, List.length_cons, Nat.mul_succ,
      Nat.add_comm]

theorem length_regroup (j k : ℕ) (vs : List ℕ) : (regroup j k vs).length = j * vs.length / k := by
  rw [regroup, List.length_map, length_chunks, length_flatMap_bits]

theorem dvd_length_fillUp (hk : 0 < k) (l : List Bool) : k ∣ (fillUp k l).length := by
  rw [fillUp, List.length_append, List.length_replicate]
  have := Nat.mod_lt l.length hk
  apply Nat.dvd_of_mod_eq_zero
  rw [Nat.add_mod_mod, ← Nat.mod_add_mod]
  have : l.length % k + (k - l.length % k) = k := by omega
  rw [this, Nat.mod_self]

theorem flatMap_bits_ofBits (hk : 0 < k) {l : List Bool} (hl : k ∣ l.length) :
    ((chunks k l).map ofBits).flatMap (bits k) = l := by
  obtain ⟨m, hm⟩ := hl
  obtain ⟨L, h1, h2, h3⟩ := exists_chunks hk m hm
  rw [h3, List.flatMap_map, List.flatMap_def]
  have : L.map (fun x => bits k (ofBits x)) = L := by
    conv_rhs => rw [← List.map_id L]
    apply List.map_congr_left
    intro x hx
    rw [← h2 x hx, bits_ofBits, id]
  rw [this, h1]

theorem length_regroupUp (hk : 0 < k) (vs : List ℕ) :
    (regroupUp j k vs).length = (j * vs.length + (k - 1)) / k := by
  have hdiv : ∀ {a q : ℕ}, k * q ≤ a → a < k * q + k → a / k = q := by
    intro a q h1 h2
    rw [Nat.mul_comm] at h1 h2
    exact Nat.div_eq_of_lt_le h1 (by rwa [Nat.succ_mul])
  have hlt := Nat.mod_lt (j * vs.length) hk
  have hn := Nat.div_add_mod (j * vs.length) k
  rw [regroupUp, List.length_map, length_chunks, fillUp, List.length_append, List.length_replicate,
    length_flatMap_bits]
  rcases Nat.eq_zero_or_pos (j * vs.length % k) with h | h
  · rw [h, Nat.sub_zero, Nat.mod_self]
    trans j * vs.length / k
    · exact hdiv (by omega) (by omega)
    · exact (hdiv (by omega) (by omega)).symm
  · have hs : k * (j * vs.length / k + 1) = k * (j * vs.length / k) + k := Nat.mul_succ ..
    rw [Nat.mod_eq_of_lt (show k - j * vs.length % k < k by omega)]
    trans j * vs.length / k + 1
    · exact hdiv (by omega) (by omega)
    · exact (hdiv (by omega) (by omega)).symm

theorem regroupUp_lt (hk : 0 < k) {v : ℕ} (hv : v ∈ regroupUp j k vs) : v < 2 ^ k := by
  obtain ⟨m, hm⟩ := dvd_length_fillUp hk (vs.flatMap (bits j))
  obtain ⟨L, _, h2, h3⟩ := exists_chunks hk m hm
  obtain ⟨l, hl, rfl⟩ := List.mem_map.mp hv
  have := ofBits_lt l
  rwa [h2 l (h3 ▸ hl)] at this

/-- **Regrouping to fewer bits, the last group filled up, and back.** -/
theorem regroup_regroupUp (hk : 0 < k) (hkj : k ≤ j) (h : ∀ v ∈ vs, v < 2 ^ j) :
    regroup k j (regroupUp j k vs) = vs := by
  have hlen : (List.replicate ((k - (vs.flatMap (bits j)).length % k) % k) false).length < j := by
    rw [List.length_replicate]
    exact Nat.lt_of_lt_of_le (Nat.mod_lt _ hk) hkj
  rw [regroup, regroupUp, flatMap_bits_ofBits hk (dvd_length_fillUp hk _), fillUp, List.flatMap_def,
    chunks_flatten (Nat.lt_of_lt_of_le hk hkj) (by simp)]
  rw [← List.flatMap_def, chunks_short hlen, List.append_nil, List.map_map]
  conv_rhs => rw [← List.map_id vs]
  apply List.map_congr_left
  intro v hv
  rw [Function.comp, ofBits_bits, Nat.mod_eq_of_lt (h v hv), id]

/-- a first part that fills whole groups is regrouped by itself -/
theorem regroup_append (hk : 0 < k) (us : List ℕ) (h : k ∣ j * us.length) (vs : List ℕ) :
    regroup j k (us ++ vs) = regroup j k us ++ regroup j k vs := by
  obtain ⟨m, hm⟩ := h
  obtain ⟨L, h1, h2, h3⟩ := exists_chunks hk m ((length_flatMap_bits j us).trans hm)
  rw [regroup, regroup, regroup, List.flatMap_append, h3, ← h1, chunks_flatten hk h2,
    List.map_append]

theorem regroupUp_append (hk : 0 < k) (us : List ℕ) (h : k ∣ j * us.length) (vs : List ℕ) :
    regroupUp j k (us ++ vs) = regroupUp j k us ++ regroupUp j k vs := by
  obtain ⟨m, hm⟩ := h
  obtain ⟨L, h1, h2, h3⟩ := exists_chunks hk m ((length_flatMap_bits j us).trans hm)
  have hus : fillUp k (us.flatMap (bits j)) = us.flatMap (bits j) := by
    rw [fillUp, length_flatMap_bits, hm, Nat.mul_mod_right, Nat.sub_zero, Nat.mod_self]
    exact List.append_nil _
  have happ : fillUp k (us.flatMap (bits j) ++ vs.flatMap (bits j)) =
      us.flatMap (bits j) ++ fillUp k (vs.flatMap (bits j)) := by
    rw [fillUp, fillUp, List.append_assoc, List.length_append, length_flatMap_bits j us, hm,
      Nat.mul_add_mod]
  rw [regroupUp, regroupUp, regroupUp, List.flatMap_append, happ, hus, h3, ← h1,
    chunks_flatten hk h2, List.map_append]

end

/-! ## regrouping through one packed number -/

/-- the number with the digits `vs` to the base `2 ^ j`, the first digit highest -/
def pack (j : ℕ) (vs : List ℕ) : ℕ := vs.foldl (fun w v => w * 2 ^ j + v) 0

/-- the `m` low digits of `w` to the base `2 ^ k`, the highest first -/
def unpack (k : ℕ) : ℕ → ℕ → List ℕ
  | 0, _ => []
  | m + 1, w => w / 2 ^ (k * m) % 2 ^ k :: unpack k m w

section
variable {j k : ℕ} {vs : List ℕ}

theorem pack_concat (j : ℕ) (vs : List ℕ) (v : ℕ) :
    pack j (vs ++ [v]) = pack j vs * 2 ^ j + v := by
  rw [pack, List.foldl_append]
  rfl

theorem take_unpack (k m e w : ℕ) : (unpack k (m + e) w).take m = unpack k m (w / 2 ^ (k * e)) := by
  induction m with
  | zero => rfl
  | succ m ih =>
    rw [Nat.succ_add, unpack, List.take_succ_cons, ih, unpack, Nat.mul_add, Nat.pow_add,
      Nat.mul_comm (2 ^ (k * m)), ← Nat.div_div_eq_div_mul]

theorem flatMap_bits_eq (h : ∀ v ∈ vs, v < 2 ^ j) :
    vs.flatMap (bits j) = bits (j * vs.length) (pack j vs) := by
  induction vs using List.reverseRecOn with
  | nil => rfl
  | append_singleton vs v ih =>
    have hv : v < 2 ^ j := h v (List.mem_append_right _ (List.mem_singleton_self v))
    rw [List.flatMap_append, ih fun u hu => h u (List.mem_append_left _ hu), List.flatMap_singleton,
      bits_append _ _ hv, pack_concat, List.length_append, List.length_singleton, Nat.mul_succ]

theorem chunks_bits (hk : 0 < k) (m w : ℕ) {r : List Bool} (hr : r.length < k) :
    (chunks k (bits (k * m) w ++ r)).map ofBits = unpack k m w := by
  induction m with
  | zero => rw [Nat.mul_zero, bits, List.nil_append, chunks_short hr]; rfl
  | succ m ih =>
    rw [Nat.mul_succ, Nat.add_comm, bits_add, List.append_assoc, chunks_cons hk (length_bits _ _),
      List.map_cons, ih, ofBits_bits, unpack]

theorem regroup_eq_unpack {m r : ℕ} (h : ∀ v ∈ vs, v < 2 ^ j) (hm : j * vs.length = k * m + r)
    (hr : r < k) : regroup j k vs = unpack k m (pack j vs / 2 ^ r) := by
  rw [regroup, flatMap_bits_eq h, hm, bits_add]
  exact chunks_bits (by omega) _ _ (by rwa [length_bits])

theorem regroupUp_eq_unpack {m r : ℕ} (h : ∀ v ∈ vs, v < 2 ^ j) (hm : j * vs.length + r = k * m)
    (hr : r < k) : regroupUp j k vs = unpack k m (pack j vs * 2 ^ r) := by
  have hfill : (k - (vs.flatMap (bits j)).length % k) % k = r := by
    rw [length_flatMap_bits]
    have hmod : (j * vs.length + r) % k = 0 := by rw [hm, Nat.mul_mod_right]
    have hlt := Nat.mod_lt (j * vs.length) (show 0 < k by omega)
    rw [Nat.add_mod, Nat.mod_eq_of_lt hr] at hmod
    obtain ⟨q, hq⟩ := Nat.dvd_of_mod_eq_zero hmod
    rcases Nat.eq_zero_or_pos q with rfl | hpos
    · have h0 : j * vs.length % k = 0 := by omega
      rw [h0, Nat.sub_zero, Nat.mod_self]
      omega
    · have hq1 : q = 1 := by
        by_contra hne
        have : k * 2 ≤ k * q := Nat.mul_le_mul_left k (by omega)
        omega
      rw [hq1, Nat.mul_one] at hq
      rw [show k - j * vs.length % k = r by omega, Nat.mod_eq_of_lt hr]
  have hb : bits (j * vs.length) (pack j vs) ++ List.replicate r false =
      bits (k * m) (pack j vs * 2 ^ r) := by
    rw [← bits_zero, bits_append _ _ (Nat.two_pow_pos r), hm, Nat.add_zero]
  rw [regroupUp, fillUp, hfill, flatMap_bits_eq h, hb, ← List.append_nil (bits _ _)]
  exact chunks_bits (by omega) _ _ (by rw [List.length_nil]; omega)

end

/-! ## bytes, the lowest first -/

def leBytes : ℕ → ℕ → List UInt8
  | 0, _ => []
  | k + 1, n => UInt8.ofNat n :: leBytes k (n / 256)

def ofLe (l : List UInt8) : ℕ := l.foldr (fun b n => b.toNat + 256 * n) 0

@[simp] theorem length_leBytes (k n : ℕ) : (leBytes k n).length = k := by
  induction k generalizing n with
  | zero => rfl
  | succ k ih => rw [leBytes, List.length_cons, ih]

theorem ofLe_leBytes (k n : ℕ) : ofLe (leBytes k n) = n % 256 ^ k := by
  induction k generalizing n with
  | zero => rw [Nat.pow_zero, Nat.mod_one]; rfl
  | succ k ih =>
    show (UInt8.ofNat n).toNat + 256 * ofLe (leBytes k (n / 256)) = _
    rw [ih, Nat.pow_succ', Nat.mod_mul]
    rfl

theorem ofLe_cons (b : UInt8) (l : List UInt8) : ofLe (b :: l) = b.toNat + 256 * ofLe l := rfl

theorem ofLe_append (l m : List UInt8) : ofLe (l ++ m) = ofLe l + 256 ^ l.length * ofLe m := by
  induction l with
  | nil => simp [ofLe]
  | cons b l ih =>
    rw [List.cons_append, ofLe_cons, ofLe_cons, ih, List.length_cons, Nat.pow_succ', Nat.mul_add,
      Nat.mul_assoc, Nat.add_assoc]

theorem ofLe_lt (l : List UInt8) : ofLe l < 256 ^ l.length := by
  induction l with
  | nil => exact Nat.one_pos
  | cons b l ih =>
    have hb := b.toNat_lt
    rw [ofLe_cons, List.length_cons, Nat.pow_succ']
    omega

theorem ofLe_inj {l m : List UInt8} (hlen : l.length = m.length) (h : ofLe l = ofLe m) : l = m := by
  induction l generalizing m with
  | nil => exact (List.eq_nil_of_length_eq_zero hlen.symm).symm
  | cons b l ih =>
    cases m with
    | nil => exact absurd hlen (Nat.succ_ne_zero _)
    | cons c m =>
      have hb := b.toNat_lt
      have hc := c.toNat_lt
      rw [ofLe_cons, ofLe_cons] at h
      have hbc : b = c := UInt8.toNat_inj.mp (by omega)
      rw [hbc, ih (Nat.succ.inj hlen) (by omega)]

end CppCores
