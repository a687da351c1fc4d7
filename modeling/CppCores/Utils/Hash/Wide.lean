import CppCores.Utils.Hash.Overloads

/-!
# Hash: `murmur3_hash64`

Two hashes with seeds of their own, side by side.

* `join_inj`, `join_surj`     two words side by side are a word of twice the size, and every one;
* `murmur3_hash64_spec`       **for each text the seeds and the hashes are in bijection**, and where two texts
                              differ inside one block, so do both halves of their hashes.
-/

namespace CppCores
namespace HashUtils

/-! ## the code -/

/-- `((uint64_t) hi) << 32 | lo` -/
def join (hi lo : UInt32) : UInt64 := hi.toUInt64 <<< 32 ||| lo.toUInt64

def murmur3_hash64 (str : Option (List UInt8)) (size seed seed2 : UInt32) : Option UInt64 :=
  (murmur3_hash str size seed).bind fun hi => (murmur3_hash str size seed2).map (join hi)

/-- the overload for `const char *` -/
def murmur3_hash64_str (str : Option (List UInt8)) (seed seed2 : UInt32) : Option UInt64 :=
  (murmur3_hash_str str seed).bind fun hi => (murmur3_hash_str str seed2).map (join hi)

/-! ## the halves -/

variable {hi hi' lo lo' : UInt32} {b c : List UInt8}

theorem toNat_join (hi lo : UInt32) : (join hi lo).toNat = 2 ^ 32 * hi.toNat + lo.toNat := by
  have hhi := hi.toNat_lt
  have hlo := lo.toNat_lt
  have hshift : hi.toNat <<< 32 % 2 ^ 64 = hi.toNat <<< 32 := by
    rw [Nat.shiftLeft_eq]
    omega
  rw [join, UInt64.toNat_or, UInt64.toNat_shiftLeft, UInt32.toNat_toUInt64, UInt32.toNat_toUInt64]
  show hi.toNat <<< 32 % 2 ^ 64 ||| lo.toNat = _
  rw [hshift, ← Nat.shiftLeft_add_eq_or_of_lt hlo, Nat.shiftLeft_eq, Nat.mul_comm]

theorem join_inj (h : join hi lo = join hi' lo') : hi = hi' ∧ lo = lo' := by
  have hn := congrArg UInt64.toNat h
  have hlo := lo.toNat_lt
  have hlo' := lo'.toNat_lt
  rw [toNat_join, toNat_join] at hn
  constructor
  · apply UInt32.toNat_inj.mp
    omega
  · apply UInt32.toNat_inj.mp
    omega

theorem join_surj (h : UInt64) : ∃ hi lo, join hi lo = h := by
  have hh := h.toNat_lt
  refine ⟨UInt32.ofNat (h.toNat / 2 ^ 32), UInt32.ofNat (h.toNat % 2 ^ 32), ?_⟩
  apply UInt64.toNat_inj.mp
  rw [toNat_join, UInt32.toNat_ofNat_of_lt' (by show _ < 2 ^ 32; omega),
    UInt32.toNat_ofNat_of_lt' (by show _ < 2 ^ 32; omega)]
  exact Nat.div_add_mod _ _

/-! ## the hash -/

theorem murmur3_hash64_eq (hb : b.length < 2 ^ 31) (rest : List UInt8) (seed seed2 : UInt32) :
    murmur3_hash64 (some (b ++ rest)) (UInt32.ofNat b.length) seed seed2 =
      some (join (murmur b seed) (murmur b seed2)) := by
  rw [murmur3_hash64, murmur3_hash_append hb, murmur3_hash_append hb]
  rfl

theorem murmur3_hash64_str_eq (hb : b.length < 2 ^ 31) (h0 : ∀ x ∈ b, x ≠ 0) (rest : List UInt8)
    (seed seed2 : UInt32) : murmur3_hash64_str (some (b ++ 0 :: rest)) seed seed2 =
      some (join (murmur b seed) (murmur b seed2)) := by
  have hlen := strlen_append h0 rest
  rw [murmur3_hash64_str, murmur3_hash_str_some hlen, murmur3_hash_str_some hlen, murmur3_hash_append hb,
    murmur3_hash_append hb]
  rfl

/-- some seed leads to a given hash, and one only -/
theorem murmur_surj (b : List UInt8) (h : UInt32) : ∃ seed, murmur b seed = h :=
  Finite.injective_iff_surjective.mp (murmur_inj b) h

/-- **The seeds and the hashes of a text are in bijection, and a difference inside one block shows in
both halves**; a string is hashed up to its 0. -/
theorem murmur3_hash64_spec (hb : b.length < 2 ^ 31) (rest : List UInt8) :
    (∀ h, ∃! p : UInt32 × UInt32,
      murmur3_hash64 (some (b ++ rest)) (UInt32.ofNat b.length) p.1 p.2 = some h) ∧
    (∀ c, OneBlock b c → ∀ rest' seed seed2, ∃ hi lo hi' lo', hi ≠ hi' ∧ lo ≠ lo' ∧
      murmur3_hash64 (some (b ++ rest)) (UInt32.ofNat b.length) seed seed2 = some (join hi lo) ∧
      murmur3_hash64 (some (c ++ rest')) (UInt32.ofNat c.length) seed seed2 = some (join hi' lo')) ∧
    ((∀ x ∈ b, x ≠ 0) → ∀ rest' seed seed2, murmur3_hash64_str (some (b ++ 0 :: rest')) seed seed2 =
      murmur3_hash64 (some (b ++ rest)) (UInt32.ofNat b.length) seed seed2) := by
  refine ⟨fun h => ?_, fun c hbc rest' seed seed2 => ?_, fun h0 rest' seed seed2 => ?_⟩
  · obtain ⟨hi, lo, rfl⟩ := join_surj h
    obtain ⟨seed, rfl⟩ := murmur_surj b hi
    obtain ⟨seed2, rfl⟩ := murmur_surj b lo
    refine ⟨(seed, seed2), murmur3_hash64_eq hb rest seed seed2, fun p hp => ?_⟩
    obtain ⟨h1, h2⟩ := join_inj (Option.some.inj ((murmur3_hash64_eq hb rest p.1 p.2).symm.trans hp))
    exact Prod.ext (murmur_inj b h1) (murmur_inj b h2)
  · exact ⟨_, _, _, _, murmur_ne hbc seed, murmur_ne hbc seed2, murmur3_hash64_eq hb rest seed seed2,
      murmur3_hash64_eq (hbc.length ▸ hb) rest' seed seed2⟩
  · rw [murmur3_hash64_eq hb, murmur3_hash64_str_eq hb h0]

theorem murmur3_hash64_spec_abc : ∃! p : UInt32 × UInt32,
    murmur3_hash64 (some [97, 98, 99]) 3 p.1 p.2 = some 0 :=
  (murmur3_hash64_spec (b := [97, 98, 99]) (by decide) []).1 0

end HashUtils
end CppCores
