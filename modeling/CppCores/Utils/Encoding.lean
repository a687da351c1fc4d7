import CppCores.Lib.Cells
import CppCores.Utils.Hash.Words

/-!
# EncodeFixed32, EncodeFixed64 and their decoders: `utils/encoding.h`

A value is written to memory byte by byte, the lowest first, and read back so.  `Put` is a call of
one of the two encoders; calls may overlap.

* `Put.run_eq`        a call writes the bytes of its value;
* `Put.readBack_iff`   a value is read back iff its bytes are in memory;
* `fixed_run`         **which calls fit, what each byte is behind any number of them, and that a value is
                      read back which no later call touches.**
-/

namespace CppCores
namespace Encoding
open HashUtils Cells

/-! ## the code -/

def EncodeFixed32 (mem : List UInt8) (dst : ℕ) (value : UInt32) : Option (List UInt8) :=
  (store mem dst value.toUInt8).bind fun mem =>
  (store mem (dst + 1) (value >>> (8 : UInt32)).toUInt8).bind fun mem =>
  (store mem (dst + 2) (value >>> (16 : UInt32)).toUInt8).bind fun mem =>
  store mem (dst + 3) (value >>> (24 : UInt32)).toUInt8

def EncodeFixed64 (mem : List UInt8) (dst : ℕ) (value : UInt64) : Option (List UInt8) :=
  (store mem dst value.toUInt8).bind fun mem =>
  (store mem (dst + 1) (value >>> (8 : UInt64)).toUInt8).bind fun mem =>
  (store mem (dst + 2) (value >>> (16 : UInt64)).toUInt8).bind fun mem =>
  (store mem (dst + 3) (value >>> (24 : UInt64)).toUInt8).bind fun mem =>
  (store mem (dst + 4) (value >>> (32 : UInt64)).toUInt8).bind fun mem =>
  (store mem (dst + 5) (value >>> (40 : UInt64)).toUInt8).bind fun mem =>
  (store mem (dst + 6) (value >>> (48 : UInt64)).toUInt8).bind fun mem =>
  store mem (dst + 7) (value >>> (56 : UInt64)).toUInt8

def DecodeFixed64 (mem : List UInt8) (ptr : ℕ) : Option UInt64 :=
  match mem[ptr]?, mem[ptr + 1]?, mem[ptr + 2]?, mem[ptr + 3]?,
    mem[ptr + 4]?, mem[ptr + 5]?, mem[ptr + 6]?, mem[ptr + 7]? with
  | some b0, some b1, some b2, some b3, some b4, some b5, some b6, some b7 =>
    some (b0.toUInt64 ||| b1.toUInt64 <<< (8 : UInt64) ||| b2.toUInt64 <<< (16 : UInt64) |||
      b3.toUInt64 <<< (24 : UInt64) ||| b4.toUInt64 <<< (32 : UInt64) |||
      b5.toUInt64 <<< (40 : UInt64) ||| b6.toUInt64 <<< (48 : UInt64) |||
      b7.toUInt64 <<< (56 : UInt64))
  | _, _, _, _, _, _, _, _ => none

/-- a call of an encoder -/
inductive Put where
  | fixed32 (dst : ℕ) (value : UInt32)
  | fixed64 (dst : ℕ) (value : UInt64)
  deriving DecidableEq, Repr

namespace Put

def run (mem : List UInt8) : Put → Option (List UInt8)
  | .fixed32 dst value => EncodeFixed32 mem dst value
  | .fixed64 dst value => EncodeFixed64 mem dst value

/-- its value is read back at its address -/
def Decodes (mem : List UInt8) : Put → Prop
  | .fixed32 dst value => DecodeFixed32 mem dst = some value
  | .fixed64 dst value => DecodeFixed64 mem dst = some value

/-- the bytes that it writes -/
def block : Put → Block UInt8
  | .fixed32 dst value => (dst, leBytes 4 value.toNat)
  | .fixed64 dst value => (dst, leBytes 8 value.toNat)

end Put

/-! ## encoding -/

theorem toUInt8_shift32 (value : UInt32) {k : UInt32} {n : ℕ} (hk : k.toNat % 32 = n) :
    (value >>> k).toUInt8 = UInt8.ofNat (value.toNat / 2 ^ n) := by
  apply UInt8.toNat_inj.mp
  rw [UInt32.toNat_toUInt8, UInt32.toNat_shiftRight, hk, Nat.shiftRight_eq_div_pow, UInt8.toNat_ofNat']

theorem toUInt8_shift64 (value : UInt64) {k : UInt64} {n : ℕ} (hk : k.toNat % 64 = n) :
    (value >>> k).toUInt8 = UInt8.ofNat (value.toNat / 2 ^ n) := by
  apply UInt8.toNat_inj.mp
  rw [UInt64.toNat_toUInt8, UInt64.toNat_shiftRight, hk, Nat.shiftRight_eq_div_pow, UInt8.toNat_ofNat']

theorem encode32_eq (mem : List UInt8) (dst : ℕ) (value : UInt32) :
    EncodeFixed32 mem dst value = stores mem dst (leBytes 4 value.toNat) := by
  have h0 : value.toUInt8 = UInt8.ofNat value.toNat := rfl
  have h1 : (value >>> (8 : UInt32)).toUInt8 = UInt8.ofNat (value.toNat / 256) :=
    toUInt8_shift32 value (n := 8) rfl
  have h2 : (value >>> (16 : UInt32)).toUInt8 = UInt8.ofNat (value.toNat / 65536) :=
    toUInt8_shift32 value (n := 16) rfl
  have h3 : (value >>> (24 : UInt32)).toUInt8 = UInt8.ofNat (value.toNat / 16777216) :=
    toUInt8_shift32 value (n := 24) rfl
  rw [EncodeFixed32, h0, h1, h2, h3]
  simp only [leBytes, stores, Nat.div_div_eq_div_mul, Option.bind_fun_some, Nat.add_assoc]

theorem encode64_eq (mem : List UInt8) (dst : ℕ) (value : UInt64) :
    EncodeFixed64 mem dst value = stores mem dst (leBytes 8 value.toNat) := by
  have h0 : value.toUInt8 = UInt8.ofNat value.toNat := rfl
  have h1 : (value >>> (8 : UInt64)).toUInt8 = UInt8.ofNat (value.toNat / 256) :=
    toUInt8_shift64 value (n := 8) rfl
  have h2 : (value >>> (16 : UInt64)).toUInt8 = UInt8.ofNat (value.toNat / 65536) :=
    toUInt8_shift64 value (n := 16) rfl
  have h3 : (value >>> (24 : UInt64)).toUInt8 = UInt8.ofNat (value.toNat / 16777216) :=
    toUInt8_shift64 value (n := 24) rfl
  have h4 : (value >>> (32 : UInt64)).toUInt8 = UInt8.ofNat (value.toNat / 4294967296) :=
    toUInt8_shift64 value (n := 32) rfl
  have h5 : (value >>> (40 : UInt64)).toUInt8 = UInt8.ofNat (value.toNat / 1099511627776) :=
    toUInt8_shift64 value (n := 40) rfl
  have h6 : (value >>> (48 : UInt64)).toUInt8 = UInt8.ofNat (value.toNat / 281474976710656) :=
    toUInt8_shift64 value (n := 48) rfl
  have h7 : (value >>> (56 : UInt64)).toUInt8 = UInt8.ofNat (value.toNat / 72057594037927936) :=
    toUInt8_shift64 value (n := 56) rfl
  rw [EncodeFixed64, h0, h1, h2, h3, h4, h5, h6, h7]
  simp only [leBytes, stores, Nat.div_div_eq_div_mul, Option.bind_fun_some, Nat.add_assoc]

/-- **A call writes the bytes of its value.** -/
theorem Put.run_eq (mem : List UInt8) (p : Put) : p.run mem = stores mem p.block.1 p.block.2 := by
  cases p with
  | fixed32 dst value => exact encode32_eq mem dst value
  | fixed64 dst value => exact encode64_eq mem dst value

/-! ## decoding -/

theorem ofLe_or (l : List UInt8) (c : UInt8) :
    ofLe l ||| c.toNat <<< (8 * l.length) = ofLe (l ++ [c]) := by
  have hlt := ofLe_lt l
  have hpow : 256 ^ l.length = 2 ^ (8 * l.length) := by rw [Nat.pow_mul]
  rw [ofLe_concat, Nat.or_comm, Nat.shiftLeft_eq, Nat.mul_comm]
  rw [hpow] at hlt ⊢
  rw [← Nat.two_pow_add_eq_or_of_lt hlt, Nat.add_comm]

theorem toNat_byte32 (c : UInt8) {k : UInt32} {n : ℕ} (hk : k.toNat = n) (hn : n ≤ 24) :
    (c.toUInt32 <<< k).toNat = c.toNat <<< n := by
  have hc := c.toNat_lt
  have hpow : 2 ^ n ≤ 2 ^ 24 := Nat.pow_le_pow_right (by decide) hn
  have hfit : c.toNat * 2 ^ n < 2 ^ 32 :=
    calc c.toNat * 2 ^ n ≤ 255 * 2 ^ 24 := Nat.mul_le_mul (by omega) hpow
      _ < 2 ^ 32 := by decide
  rw [UInt32.toNat_shiftLeft, UInt8.toNat_toUInt32, hk, Nat.mod_eq_of_lt (a := n) (by omega),
    Nat.shiftLeft_eq, Nat.mod_eq_of_lt hfit]

theorem toNat_byte64 (c : UInt8) {k : UInt64} {n : ℕ} (hk : k.toNat = n) (hn : n ≤ 56) :
    (c.toUInt64 <<< k).toNat = c.toNat <<< n := by
  have hc := c.toNat_lt
  have hpow : 2 ^ n ≤ 2 ^ 56 := Nat.pow_le_pow_right (by decide) hn
  have hfit : c.toNat * 2 ^ n < 2 ^ 64 :=
    calc c.toNat * 2 ^ n ≤ 255 * 2 ^ 56 := Nat.mul_le_mul (by omega) hpow
      _ < 2 ^ 64 := by decide
  rw [UInt64.toNat_shiftLeft, UInt8.toNat_toUInt64, hk, Nat.mod_eq_of_lt (a := n) (by omega),
    Nat.shiftLeft_eq, Nat.mod_eq_of_lt hfit]

theorem decode32_cells {mem : List UInt8} {ptr : ℕ} {value : UInt32} :
    DecodeFixed32 mem ptr = some value ↔
      ∃ l, l.length = 4 ∧ Cells.Holds mem (ptr, l) ∧ ofLe l = value.toNat := by
  have hword : ∀ b0 b1 b2 b3 : UInt8, (b0.toUInt32 ||| b1.toUInt32 <<< (8 : UInt32) |||
      b2.toUInt32 <<< (16 : UInt32) ||| b3.toUInt32 <<< (24 : UInt32)).toNat =
        ofLe [b0, b1, b2, b3] := by
    intro b0 b1 b2 b3
    rw [UInt32.toNat_or, UInt32.toNat_or, UInt32.toNat_or, toNat_byte32 b1 rfl (by decide),
      toNat_byte32 b2 rfl (by decide), toNat_byte32 b3 rfl (by decide), UInt8.toNat_toUInt32]
    have e1 : b0.toNat ||| b1.toNat <<< 8 = ofLe [b0, b1] := ofLe_or [b0] b1
    have e2 : ofLe [b0, b1] ||| b2.toNat <<< 16 = ofLe [b0, b1, b2] := ofLe_or [b0, b1] b2
    have e3 : ofLe [b0, b1, b2] ||| b3.toNat <<< 24 = ofLe [b0, b1, b2, b3] :=
      ofLe_or [b0, b1, b2] b3
    exact (congrArg (fun x => x ||| _ ||| _) e1).trans ((congrArg (fun x => x ||| _) e2).trans e3)
  constructor
  · intro h
    unfold DecodeFixed32 at h
    split at h
    · rename_i b0 b1 b2 b3 h0 h1 h2 h3
      obtain rfl := Option.some.inj h
      refine ⟨[b0, b1, b2, b3], rfl, ?_, (hword b0 b1 b2 b3).symm⟩
      simp only [holds_cons, holds_nil, and_true, Nat.add_assoc]
      exact ⟨h0, h1, h2, h3⟩
    · cases h
  · rintro ⟨l, hlen, hl, hv⟩
    match l, hlen with
    | [b0, b1, b2, b3], _ =>
      simp only [holds_cons, holds_nil, and_true, Nat.add_assoc] at hl
      obtain ⟨h0, h1, h2, h3⟩ := hl
      have e : DecodeFixed32 mem ptr = some (b0.toUInt32 ||| b1.toUInt32 <<< (8 : UInt32) |||
          b2.toUInt32 <<< (16 : UInt32) ||| b3.toUInt32 <<< (24 : UInt32)) := by
        rw [DecodeFixed32, h0, h1, h2, h3]
      rw [e]
      exact congrArg some (UInt32.toNat_inj.mp ((hword b0 b1 b2 b3).trans hv))

theorem decode64_cells {mem : List UInt8} {ptr : ℕ} {value : UInt64} :
    DecodeFixed64 mem ptr = some value ↔
      ∃ l, l.length = 8 ∧ Cells.Holds mem (ptr, l) ∧ ofLe l = value.toNat := by
  have hword : ∀ b0 b1 b2 b3 b4 b5 b6 b7 : UInt8, (b0.toUInt64 ||| b1.toUInt64 <<< (8 : UInt64) |||
      b2.toUInt64 <<< (16 : UInt64) ||| b3.toUInt64 <<< (24 : UInt64) |||
      b4.toUInt64 <<< (32 : UInt64) ||| b5.toUInt64 <<< (40 : UInt64) |||
      b6.toUInt64 <<< (48 : UInt64) ||| b7.toUInt64 <<< (56 : UInt64)).toNat =
        ofLe [b0, b1, b2, b3, b4, b5, b6, b7] := by
    intro b0 b1 b2 b3 b4 b5 b6 b7
    have e1 : b0.toNat ||| b1.toNat <<< 8 = ofLe [b0, b1] := ofLe_or [b0] b1
    have e2 : _ ||| b2.toNat <<< 16 = ofLe [b0, b1, b2] := ofLe_or [b0, b1] b2
    have e3 : _ ||| b3.toNat <<< 24 = ofLe [b0, b1, b2, b3] := ofLe_or [b0, b1, b2] b3
    have e4 : _ ||| b4.toNat <<< 32 = ofLe [b0, b1, b2, b3, b4] := ofLe_or [b0, b1, b2, b3] b4
    have e5 : _ ||| b5.toNat <<< 40 = ofLe [b0, b1, b2, b3, b4, b5] :=
      ofLe_or [b0, b1, b2, b3, b4] b5
    have e6 : _ ||| b6.toNat <<< 48 = ofLe [b0, b1, b2, b3, b4, b5, b6] :=
      ofLe_or [b0, b1, b2, b3, b4, b5] b6
    have e7 : _ ||| b7.toNat <<< 56 = ofLe [b0, b1, b2, b3, b4, b5, b6, b7] :=
      ofLe_or [b0, b1, b2, b3, b4, b5, b6] b7
    have f1 := toNat_byte64 b1 (k := 8) (n := 8) rfl (by decide)
    have f2 := toNat_byte64 b2 (k := 16) (n := 16) rfl (by decide)
    have f3 := toNat_byte64 b3 (k := 24) (n := 24) rfl (by decide)
    have f4 := toNat_byte64 b4 (k := 32) (n := 32) rfl (by decide)
    have f5 := toNat_byte64 b5 (k := 40) (n := 40) rfl (by decide)
    have f6 := toNat_byte64 b6 (k := 48) (n := 48) rfl (by decide)
    have f7 := toNat_byte64 b7 (k := 56) (n := 56) rfl (by decide)
    simp only [UInt64.toNat_or, UInt8.toNat_toUInt64, f1, f2, f3, f4, f5, f6, f7]
    rw [e1, e2, e3, e4, e5, e6, e7]
  constructor
  · intro h
    unfold DecodeFixed64 at h
    split at h
    · rename_i b0 b1 b2 b3 b4 b5 b6 b7 h0 h1 h2 h3 h4 h5 h6 h7
      obtain rfl := Option.some.inj h
      refine ⟨[b0, b1, b2, b3, b4, b5, b6, b7], rfl, ?_, (hword b0 b1 b2 b3 b4 b5 b6 b7).symm⟩
      simp only [holds_cons, holds_nil, and_true, Nat.add_assoc]
      exact ⟨h0, h1, h2, h3, h4, h5, h6, h7⟩
    · cases h
  · rintro ⟨l, hlen, hl, hv⟩
    match l, hlen with
    | [b0, b1, b2, b3, b4, b5, b6, b7], _ =>
      simp only [holds_cons, holds_nil, and_true, Nat.add_assoc] at hl
      obtain ⟨h0, h1, h2, h3, h4, h5, h6, h7⟩ := hl
      simp only [DecodeFixed64, h0, h1, h2, h3, h4, h5, h6, h7]
      exact congrArg some (UInt64.toNat_inj.mp ((hword b0 b1 b2 b3 b4 b5 b6 b7).trans hv))

theorem holds_leBytes {mem : List UInt8} {ptr k n : ℕ} (hn : n < 256 ^ k) :
    (∃ l, l.length = k ∧ Cells.Holds mem (ptr, l) ∧ ofLe l = n) ↔
      Cells.Holds mem (ptr, leBytes k n) := by
  constructor
  · rintro ⟨l, hlen, hl, hv⟩
    have he : l = leBytes k n := by
      apply ofLe_inj
      · rw [hlen, length_leBytes]
      · rw [hv, ofLe_leBytes, Nat.mod_eq_of_lt hn]
    rwa [← he]
  · intro h
    exact ⟨leBytes k n, length_leBytes k n, h, by rw [ofLe_leBytes, Nat.mod_eq_of_lt hn]⟩

/-- **A value is read back iff its bytes are in memory.** -/
theorem Put.readBack_iff (mem : List UInt8) (p : Put) : p.Decodes mem ↔ Cells.Holds mem p.block := by
  cases p with
  | fixed32 dst value => exact decode32_cells.trans (holds_leBytes value.toNat_lt)
  | fixed64 dst value => exact decode64_cells.trans (holds_leBytes value.toNat_lt)

/-! ## runs -/

/-- one call after the other -/
def runAll (mem : List UInt8) (ps : List Put) : Option (List UInt8) := ps.foldlM Put.run mem

theorem runAll_eq (mem : List UInt8) (ps : List Put) :
    runAll mem ps = writes mem (ps.map Put.block) := by
  rw [runAll, writes, List.foldlM_map]
  congr 1
  funext mem p
  exact p.run_eq mem

/-- **Which calls fit, what each byte is behind them, and when a value is read back.** -/
theorem fixed_run (mem : List UInt8) (ps : List Put) :
    ((runAll mem ps).isSome ↔ ∀ p ∈ ps, p.block.1 + p.block.2.length ≤ mem.length) ∧
      ∀ mem', runAll mem ps = some mem' →
        mem'.length = mem.length ∧
        (∀ a, mem'[a]? = (last? (ps.map Put.block) a).or mem[a]?) ∧
        (∀ p : Put, p.Decodes mem' ↔ ∀ j < p.block.2.length,
          (last? (ps.map Put.block) (p.block.1 + j)).or mem[p.block.1 + j]? = p.block.2[j]?) ∧
        ∀ pre p post, ps = pre ++ p :: post → (∀ q ∈ post, p.block.Apart q.block) →
          p.Decodes mem' := by
  rw [runAll_eq]
  refine ⟨?_, fun mem' h => ?_⟩
  · rw [writes_isSome, List.forall_mem_map]
    refine forall₂_congr fun p _ => ?_
    have hne : p.block.2 ≠ [] := by cases p <;> exact List.cons_ne_nil _ _
    exact ⟨fun h => h hne, fun h _ => h⟩
  · obtain ⟨hlen, hget⟩ := getElem?_writes h
    refine ⟨hlen, hget, fun p => (p.readBack_iff mem').trans (holds_writes_iff h p.block), ?_⟩
    rintro pre p post rfl hpost
    rw [List.map_append, List.map_cons] at h
    apply (p.readBack_iff mem').mpr
    exact holds_of_apart h (List.forall_mem_map.mpr hpost)

end Encoding
end CppCores
