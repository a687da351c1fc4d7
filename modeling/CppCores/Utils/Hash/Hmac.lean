import CppCores.Lib.Blocks
import Mathlib.Data.List.Basic
import Mathlib.Tactic.Common

/-!
# Hash: `hmac`

The template `hmac` of `utils/hash.cc`, whose digest is a parameter: `DigestApi` has the functions of
the library that it is instantiated with, and `Computes api H L` is what is relied on, that they compute
the hash `H`, with `L` bytes, of the updates one after the other.  A `std::string` is the list of its
bytes; a `char` is signed and is promoted to `int` before it is xor-ed.

* `transform_xorStruct`  on the bytes, `xorStruct` is the xor of bytes;
* `hashKey_long`         a key that is too long is replaced by its hash: the buffer has just the size
                         of the digest when that is written into it;
* `hmac_rfc2104`         **`hmac` is the construction of RFC 2104, for every digest with `L ≤ B`.**
-/

set_option linter.unusedSectionVars false

namespace CppCores
namespace HashUtils

/-- the functions of a digest, by what they do to the context -/
structure DigestApi (CTX : Type) where
  Init : CTX → CTX
  Update : CTX → List UInt8 → CTX
  Final : CTX → List UInt8 × CTX

/-! ## the strings -/

structure xorStruct where
  m_value : Int8

/-- `in ^ m_value`, as an `int`, converted to `char` -/
def xorStruct.call (x : xorStruct) (c : Int8) : Int8 := (c.toInt32 ^^^ x.m_value.toInt32).toInt8

def transform (s : List UInt8) (op : Int8 → Int8) : List UInt8 :=
  s.map fun c => (op c.toInt8).toUInt8

def resize (s : List UInt8) (n : ℕ) : List UInt8 := s.take n ++ List.replicate (n - s.length) 0

/-- `append(B - size(), '\0')`, which throws when the difference of `size_t` wraps -/
def appendZeros (s : List UInt8) (B : ℕ) : Option (List UInt8) :=
  if s.length ≤ B then some (s ++ List.replicate (B - s.length) 0) else none

/-- `n` bytes from `c_str()` on, which ends with a NUL -/
def load (s : List UInt8) (n : ℕ) : Option (List UInt8) :=
  if n ≤ s.length + 1 then some ((s ++ [0]).take n) else none

/-- the bytes `md` written from `&s[0]` on -/
def store (s md : List UInt8) : Option (List UInt8) :=
  if md.length ≤ s.length then some (patch s 0 md) else none

/-! ## hmac -/

section
variable {CTX : Type}

/-- `if (keyLocal.size() > B)` and its body -/
def hashKey (api : DigestApi CTX) (B L : ℕ) (keyLocal : List UInt8) (ctx : CTX) :
    Option (List UInt8 × CTX) :=
  if keyLocal.length > B then do
    let ctx := api.Init ctx
    let ctx := api.Update ctx (← load keyLocal keyLocal.length)
    let keyLocal := resize keyLocal L
    let (md, ctx) := api.Final ctx
    return (← store keyLocal md, ctx)
  else some (keyLocal, ctx)

def hmac (api : DigestApi CTX) (B L : ℕ) (text key : List UInt8) (ctx : CTX) :
    Option (List UInt8) := do
  let (keyLocal, ctx) ← hashKey api B L key ctx
  let keyLocal ← appendZeros keyLocal B
  let ipad := transform keyLocal (xorStruct.mk 0x36).call
  let opad := transform keyLocal (xorStruct.mk 0x5c).call
  let ctx := api.Init ctx
  let ctx := api.Update ctx (← load ipad B)
  let ctx := api.Update ctx (← load text text.length)
  let result := resize [] L
  let (md, ctx) := api.Final ctx
  let result ← store result md
  let ctx := api.Init ctx
  let ctx := api.Update ctx (← load opad B)
  let ctx := api.Update ctx (← load result L)
  store result (api.Final ctx).1

/-- `MD5_CBLOCK` and `MD5_DIGEST_LENGTH` -/
def hmac_md5 (MD5 : DigestApi CTX) := hmac MD5 64 16

def hmac_sha1 (SHA1 : DigestApi CTX) := hmac SHA1 64 20

def hmac_sha256 (SHA256 : DigestApi CTX) := hmac SHA256 64 32

/-! ## RFC 2104 -/

/-- the functions compute the hash `H`, of `L` bytes, of the updates one after the other -/
structure Computes (api : DigestApi CTX) (H : List UInt8 → List UInt8) (L : ℕ) : Prop where
  digest : ∀ ctx (updates : List (List UInt8)),
    (api.Final (updates.foldl api.Update (api.Init ctx))).1 = H updates.flatten
  length : ∀ message, (H message).length = L

/-- `K`: the key, or its hash if it is longer than `B`, and zero bytes up to `B` -/
def paddedKey (H : List UInt8 → List UInt8) (B : ℕ) (key : List UInt8) : List UInt8 :=
  paddedTo B 0 (if B < key.length then H key else key)

def rfc2104 (H : List UInt8 → List UInt8) (B : ℕ) (text key : List UInt8) : List UInt8 :=
  let K := paddedKey H B key
  H (K.map (· ^^^ 0x5c) ++ H (K.map (· ^^^ 0x36) ++ text))

end

theorem transform_xorStruct (s : List UInt8) (m : Int8) :
    transform s (xorStruct.mk m).call = s.map (· ^^^ m.toUInt8) := by
  refine List.map_congr_left fun c _ => ?_
  rw [xorStruct.call, Int32.toInt8_xor, Int8.toInt8_toInt32, Int8.toInt8_toInt32, Int8.toUInt8_xor,
    UInt8.toUInt8_toInt8]

theorem load_length (s : List UInt8) : load s s.length = some s := by
  rw [load, if_pos (Nat.le_succ _), List.take_left]

theorem store_length {s md : List UInt8} (h : md.length = s.length) : store s md = some md := by
  rw [store, if_pos (Nat.le_of_eq h), patch, Nat.zero_add, h, List.drop_length, List.take_zero,
    List.nil_append, List.append_nil]

theorem length_resize (s : List UInt8) (n : ℕ) : (resize s n).length = n := by
  rw [resize, List.length_append, List.length_take, List.length_replicate]
  omega

section
variable {CTX : Type} {api : DigestApi CTX} {H : List UInt8 → List UInt8} {B L : ℕ}

theorem hashKey_long (h : Computes api H L) {key : List UInt8} (hB : B < key.length) (ctx : CTX) :
    ∃ ctx', hashKey api B L key ctx = some (H key, ctx') := by
  have hfinal : (api.Final (api.Update (api.Init ctx) key)).1 = H key := by
    have hd := h.digest ctx [key]
    rwa [List.flatten_singleton] at hd
  have hlen : (H key).length = (resize key L).length := by
    rw [h.length, length_resize]
  refine ⟨(api.Final (api.Update (api.Init ctx) key)).2, ?_⟩
  unfold hashKey
  rw [if_pos hB]
  simp only [load_length, Option.bind_eq_bind, Option.bind_some, hfinal, store_length hlen]
  rfl

theorem length_paddedKey (h : Computes api H L) (hL : L ≤ B) (key : List UInt8) :
    (paddedKey H B key).length = B := by
  refine length_paddedTo 0 ?_
  split
  · rwa [h.length]
  · omega

theorem padKey_eq (h : Computes api H L) (hL : L ≤ B) (key : List UInt8) (ctx : CTX) :
    ∃ keyLocal ctx', hashKey api B L key ctx = some (keyLocal, ctx') ∧
      appendZeros keyLocal B = some (paddedKey H B key) := by
  by_cases hB : B < key.length
  · obtain ⟨ctx', hk⟩ := hashKey_long h hB ctx
    refine ⟨H key, ctx', hk, ?_⟩
    rw [appendZeros, if_pos (by rwa [h.length]), paddedKey, if_pos hB, paddedTo]
  · refine ⟨key, ctx, if_neg hB, ?_⟩
    rw [appendZeros, if_pos (Nat.le_of_not_lt hB), paddedKey, if_neg hB, paddedTo]

theorem Computes.digest_two (h : Computes api H L) (ctx : CTX) (a b : List UInt8) :
    (api.Final (api.Update (api.Update (api.Init ctx) a) b)).1 = H (a ++ b) := by
  have hd := h.digest ctx [a, b]
  rwa [List.flatten_cons, List.flatten_singleton] at hd

theorem hmac_eq (h : Computes api H L) (hL : L ≤ B) (text key : List UInt8) (ctx : CTX) :
    hmac api B L text key ctx = some (rfc2104 H B text key) := by
  obtain ⟨keyLocal, ctx', hkey, hpad⟩ := padKey_eq h hL key ctx
  have hload : ∀ m, load ((paddedKey H B key).map (· ^^^ m)) B =
      some ((paddedKey H B key).map (· ^^^ m)) := by
    intro m
    have hm := load_length ((paddedKey H B key).map (· ^^^ m))
    rwa [List.length_map, length_paddedKey h hL] at hm
  have hresult : ∀ message, store (resize [] L) (H message) = some (H message) := fun message =>
    store_length (by rw [h.length, length_resize])
  have hresult' : ∀ message message', store (H message') (H message) = some (H message) :=
    fun message message' => store_length (by rw [h.length, h.length])
  have hloadL : ∀ message, load (H message) L = some (H message) := by
    intro message
    have hm := load_length (H message)
    rwa [h.length] at hm
  unfold hmac
  simp only [hkey, hpad, Option.bind_eq_bind, Option.bind_some, transform_xorStruct, hload,
    load_length, h.digest_two, hresult, hloadL, hresult']
  rfl

/-- **`hmac` follows RFC 2104.**  `K` has exactly `B` bytes, whatever the length of the key. -/
theorem hmac_rfc2104 (h : Computes api H L) (hL : L ≤ B) (text key : List UInt8) (ctx : CTX) :
    (paddedKey H B key).length = B ∧
      hmac api B L text key ctx = some (rfc2104 H B text key) :=
  ⟨length_paddedKey h hL key, hmac_eq h hL text key ctx⟩

end

/-- the instances, for the hash of their digest -/
theorem hmac_instances {CTX : Type} {api : DigestApi CTX} {H : List UInt8 → List UInt8}
    (text key : List UInt8) (ctx : CTX) :
    (Computes api H 16 → hmac_md5 api text key ctx = some (rfc2104 H 64 text key)) ∧
      (Computes api H 20 → hmac_sha1 api text key ctx = some (rfc2104 H 64 text key)) ∧
      (Computes api H 32 → hmac_sha256 api text key ctx = some (rfc2104 H 64 text key)) := by
  refine ⟨?_, ?_, ?_⟩
  all_goals
    intro h
    exact hmac_eq h (by decide) text key ctx

/-- a digest that keeps the message in the context, and looks it up when it is finished -/
def keep (H : List UInt8 → List UInt8) : DigestApi (List UInt8) where
  Init _ := []
  Update ctx data := ctx ++ data
  Final ctx := (H ctx, [])

theorem keep_computes {H : List UInt8 → List UInt8} {L : ℕ} (h : ∀ message, (H message).length = L) :
    Computes (keep H) H L where
  digest ctx updates := by
    have hfold : ∀ c : List UInt8, updates.foldl (keep H).Update c = c ++ updates.flatten := by
      induction updates with
      | nil => exact fun c => (List.append_nil c).symm
      | cons u updates ih =>
        intro c
        rw [List.foldl_cons, ih, List.flatten_cons]
        exact List.append_assoc c u _
    exact congrArg H (hfold [])
  length := h

/-- MD5 at three messages: a key of 81 bytes, and what is hashed with it for the text `Hi There` -/
def md5Table (message : List UInt8) : List UInt8 :=
  let K := [0xa7, 0xa0, 0x2a, 0x51, 0x74, 0x96, 0xd6, 0x42, 0x3a, 0x8e, 0x78, 0x78, 0xba, 0x1e, 0x6b,
    0x38]
  let inner := [0xbd, 0xe1, 0x25, 0xcb, 0x86, 0x49, 0x06, 0xc7, 0xdd, 0xae, 0x8b, 0xcf, 0xf7, 0x0b,
    0x17, 0x7c]
  let text := [0x48, 0x69, 0x20, 0x54, 0x68, 0x65, 0x72, 0x65]
  if message = List.replicate 81 0xaa then K
  else if message = (paddedTo 64 0 K).map (· ^^^ 0x36) ++ text then inner
  else if message = (paddedTo 64 0 K).map (· ^^^ 0x5c) ++ inner then
    [0xd3, 0x22, 0x1e, 0x6e, 0x27, 0x41, 0xe5, 0xd7, 0xac, 0xc1, 0xf3, 0x90, 0xc3, 0x95, 0x82, 0x1b]
  else List.replicate 16 0

theorem length_md5Table (message : List UInt8) : (md5Table message).length = 16 := by
  simp only [md5Table]
  split
  · rfl
  · split
    · rfl
    · split <;> rfl

/-- a key longer than a block -/
theorem hmac_rfc2104_long :
    (paddedKey md5Table 64 (List.replicate 81 0xaa)).length = 64 ∧
      hmac (keep md5Table) 64 16 [0x48, 0x69, 0x20, 0x54, 0x68, 0x65, 0x72, 0x65]
          (List.replicate 81 0xaa) [] =
        some (rfc2104 md5Table 64 [0x48, 0x69, 0x20, 0x54, 0x68, 0x65, 0x72, 0x65]
          (List.replicate 81 0xaa)) :=
  hmac_rfc2104 (keep_computes length_md5Table) (by decide) _ _ _

example : hmac (keep md5Table) 64 16 [0x48, 0x69, 0x20, 0x54, 0x68, 0x65, 0x72, 0x65]
    (List.replicate 81 0xaa) [] = some [0xd3, 0x22, 0x1e, 0x6e, 0x27, 0x41, 0xe5, 0xd7, 0xac, 0xc1,
      0xf3, 0x90, 0xc3, 0x95, 0x82, 0x1b] := by decide +kernel

end HashUtils
end CppCores
