import CppCores.Utils.Hash.Hmac
import CppCores.Utils.Hex

/-!
# Digests and their text: `md5sum`, `sha0sum`, `sha1sum`, `md5`, `sha1`

The other functions of `utils/hash.cc` over a digest of the library.  Each is one update with `len`
bytes from `data` on, for a `std::string` from `c_str()` on, for a `std::string_view` from its first
byte on; `md5` and `sha1` write the result in hexadecimal digits.

* `dataOf_iff`        a string is read as `d` iff it is the text of `d` in some case of the letters;
* `digestSum_spec`    the digest of the first `len` bytes, whatever stands behind them;
* `hexText_spec`      the text: its length, its digits, and the strings that it stands for;
* `hmac_digestSum`    `hmac` is made of two such digests, and of a third one for a long key;
* `digests_spec`      **all of it for the functions of the source**; `sha0sum` computes SHA-1.
-/

namespace CppCores
namespace Hex

theorem data_from_hexstring_ok (s d : List UInt8) :
    data_from_hexstring s = .ok d ↔ dataOf s = some d := by
  rcases data_from_hexstring_eq s with ⟨d', h1, h2⟩ | ⟨h1, what, h2⟩
  · rw [h1, h2]
    constructor
    · intro h; rw [Except.ok.inj h]
    · intro h; rw [Option.some.inj h]
  · rw [h1, h2]
    constructor
    · intro h; cases h
    · intro h; cases h

theorem digit_toLower (c : UInt8) : digit (toLower c) = digit c :=
  forall_byte (p := fun c => digit (toLower c) = digit c) (by decide +kernel) c

theorem dataOf_toLower (s : List UInt8) : dataOf (s.map toLower) = dataOf s := by
  match s with
  | [] => rfl
  | [_] => rfl
  | a :: b :: s =>
    show dataOf (toLower a :: toLower b :: s.map toLower) = dataOf (a :: b :: s)
    rw [dataOf, dataOf, digit_toLower, digit_toLower, dataOf_toLower s]

/-- **what is read as `d`**: the digits of `d`, in some case of the letters -/
theorem dataOf_iff (s d : List UInt8) : dataOf s = some d ↔ s.map toLower = hexOf d := by
  constructor
  · intro h
    exact (hexOf_dataOf h).symm
  · intro h
    rw [← dataOf_toLower, h, dataOf_hexOf]

end Hex

namespace HashUtils

/-! ## the code -/

/-- `len` bytes from `data` on, where the bytes of the list can be read -/
def readBytes (data : List UInt8) (len : ℕ) : Option (List UInt8) :=
  if len ≤ data.length then some (data.take len) else none

section
variable {CTX : Type}

/-- `md5sum`, `sha0sum` and `sha1sum` differ in the functions and in the size -/
def digestSum (api : DigestApi CTX) (L : ℕ) (data : List UInt8) (len : ℕ) (ctx : CTX) :
    Option (List UInt8) := do
  let ctx := api.Init ctx
  let ctx := api.Update ctx (← readBytes data len)
  let result := resize [] L
  store result (api.Final ctx).1

/-- `c_str()` ends with a NUL behind the `size()` bytes -/
def ofString (sum : List UInt8 → ℕ → CTX → Option (List UInt8)) (data : List UInt8) (ctx : CTX) :
    Option (List UInt8) :=
  sum (data ++ [0]) data.length ctx

def ofView (sum : List UInt8 → ℕ → CTX → Option (List UInt8)) (data : List UInt8) (ctx : CTX) :
    Option (List UInt8) :=
  sum data data.length ctx

def md5sum (MD5 : DigestApi CTX) := digestSum MD5 16

/-- it calls `SHA1_Init`, `SHA1_Update` and `SHA1_Final` -/
def sha0sum (SHA1 : DigestApi CTX) := digestSum SHA1 20

def sha1sum (SHA1 : DigestApi CTX) := digestSum SHA1 20

/-- `hexstring_from_data(sum(data).c_str(), L)` -/
def hexText (sum : List UInt8 → ℕ → CTX → Option (List UInt8)) (L : ℕ) (data : List UInt8)
    (ctx : CTX) : Option (List UInt8) := do
  let result ← ofString sum data ctx
  Hex.hexstring_from_data (← load result L)

def md5 (MD5 : DigestApi CTX) := hexText (md5sum MD5) 16

def sha1 (SHA1 : DigestApi CTX) := hexText (sha1sum SHA1) 20

end

/-! ## what they compute -/

/-- the hash `H` of the first `len` bytes; more bytes than there are cannot be read -/
def DigestOf (H : List UInt8 → List UInt8) (sum : List UInt8 → ℕ → Option (List UInt8)) : Prop :=
  ∀ data len, sum data len = if len ≤ data.length then some (H (data.take len)) else none

/-- `text` is the digest `md` in lower case digits, and what is read as `md` is `text` in some case -/
structure TextOf (md text : List UInt8) : Prop where
  length : text.length = 2 * md.length
  lower : ∀ c ∈ text, Hex.isHex c ∧ Hex.toLower c = c
  reads : ∀ s, Hex.data_from_hexstring s = .ok md ↔ s.map Hex.toLower = text

theorem textOf_hexOf (md : List UInt8) : TextOf md (Hex.hexOf md) where
  length := Hex.length_hexOf md
  lower c hc := by
    have hread := Hex.dataOf_hexOf md
    have hsome : (Hex.dataOf (Hex.hexOf md)).isSome = true := by rw [hread]; rfl
    have hmap : (Hex.hexOf md).map Hex.toLower = (Hex.hexOf md).map id := by
      rw [List.map_id, ← Hex.hexOf_dataOf hread]
    exact ⟨((Hex.dataOf_isSome _).mp hsome).2 c hc, List.map_inj_left.mp hmap c hc⟩
  reads s := by rw [Hex.data_from_hexstring_ok, Hex.dataOf_iff]

section
variable {CTX : Type} {api : DigestApi CTX} {H : List UInt8 → List UInt8} {L B : ℕ}

theorem Computes.digest_one (h : Computes api H L) (ctx : CTX) (a : List UInt8) :
    (api.Final (api.Update (api.Init ctx) a)).1 = H a := by
  have hd := h.digest ctx [a]
  rwa [List.flatten_singleton] at hd

theorem digestSum_spec (h : Computes api H L) (ctx : CTX) :
    DigestOf H fun data len => digestSum api L data len ctx := by
  intro data len
  have hstore : ∀ message, store (resize [] L) (H message) = some (H message) := fun message =>
    store_length (by rw [h.length, length_resize])
  simp only [digestSum, readBytes, Option.bind_eq_bind]
  split
  · rw [Option.bind_some, h.digest_one, hstore]
  · rfl

theorem DigestOf.ofString {sum : List UInt8 → ℕ → CTX → Option (List UInt8)} {ctx : CTX}
    (h : DigestOf H fun data len => sum data len ctx) (s : List UInt8) :
    HashUtils.ofString sum s ctx = some (H s) := by
  have hlen : s.length ≤ (s ++ [0]).length := by
    rw [List.length_append]
    exact Nat.le_add_right _ _
  have hs := h (s ++ [0]) s.length
  rwa [if_pos hlen, List.take_left] at hs

theorem DigestOf.ofView {sum : List UInt8 → ℕ → CTX → Option (List UInt8)} {ctx : CTX}
    (h : DigestOf H fun data len => sum data len ctx) (s : List UInt8) :
    HashUtils.ofView sum s ctx = some (H s) := by
  have hs := h s s.length
  rwa [if_pos (Nat.le_refl _), List.take_length] at hs

/-- **The text of a digest.** -/
theorem hexText_spec (h : Computes api H L) (s : List UInt8) (ctx : CTX) :
    ∃ text, hexText (digestSum api L) L s ctx = some text ∧ TextOf (H s) text := by
  refine ⟨Hex.hexOf (H s), ?_, textOf_hexOf (H s)⟩
  have hload := load_length (H s)
  rw [h.length] at hload
  rw [hexText, (digestSum_spec h ctx).ofString s]
  show (load (H s) L).bind Hex.hexstring_from_data = _
  rw [hload, Option.bind_some, Hex.hexstring_from_data_eq]

/-- what `hmac` hashes with the key `keyLocal`, one message after the other -/
def hmacOf (digest : List UInt8 → Option (List UInt8)) (B : ℕ) (text keyLocal : List UInt8) :
    Option (List UInt8) := do
  let inner ← digest ((paddedTo B 0 keyLocal).map (· ^^^ 0x36) ++ text)
  digest ((paddedTo B 0 keyLocal).map (· ^^^ 0x5c) ++ inner)

/-- **`hmac` in terms of the digests**: that of the inner text goes behind the outer key, and a key that
is longer than a block is replaced by its own. -/
theorem hmac_digestSum (h : Computes api H L) (hL : L ≤ B) (text key : List UInt8)
    (ctx ctx' : CTX) :
    hmac api B L text key ctx =
      (if B < key.length then ofString (digestSum api L) key ctx' else some key).bind
        (hmacOf (fun message => ofString (digestSum api L) message ctx') B text) := by
  have hsum := (digestSum_spec h ctx').ofString
  have hkey : (if B < key.length then ofString (digestSum api L) key ctx' else some key) =
      some (if B < key.length then H key else key) := by
    split
    · exact hsum key
    · rfl
  rw [hmac_eq h hL, hkey, Option.bind_some, hmacOf, hsum]
  show _ = ofString (digestSum api L) _ ctx'
  rw [hsum]
  rfl

end

/-- **The digests of the source, and their text.** -/
theorem digests_spec {CTX CTX1 : Type} {MD5 : DigestApi CTX} {SHA1 : DigestApi CTX1}
    {H5 H1 : List UInt8 → List UInt8} (h5 : Computes MD5 H5 16) (h1 : Computes SHA1 H1 20)
    (ctx : CTX) (ctx1 : CTX1) :
    (DigestOf H5 (fun data len => md5sum MD5 data len ctx) ∧
      DigestOf H1 (fun data len => sha1sum SHA1 data len ctx1) ∧
      DigestOf H1 (fun data len => sha0sum SHA1 data len ctx1)) ∧
    (∀ s, ∃ text, md5 MD5 s ctx = some text ∧ text.length = 32 ∧ TextOf (H5 s) text) ∧
    (∀ s, ∃ text, sha1 SHA1 s ctx1 = some text ∧ text.length = 40 ∧ TextOf (H1 s) text) ∧
    (∀ text key, hmac_md5 MD5 text key ctx =
      (if 64 < key.length then ofString (md5sum MD5) key ctx else some key).bind
        (hmacOf (fun message => ofString (md5sum MD5) message ctx) 64 text)) ∧
    (∀ text key, hmac_sha1 SHA1 text key ctx1 =
      (if 64 < key.length then ofString (sha1sum SHA1) key ctx1 else some key).bind
        (hmacOf (fun message => ofString (sha1sum SHA1) message ctx1) 64 text)) := by
  refine ⟨⟨digestSum_spec h5 ctx, digestSum_spec h1 ctx1, digestSum_spec h1 ctx1⟩, ?_, ?_, ?_, ?_⟩
  · intro s
    obtain ⟨text, htext, hof⟩ := hexText_spec h5 s ctx
    exact ⟨text, htext, by rw [hof.length, h5.length], hof⟩
  · intro s
    obtain ⟨text, htext, hof⟩ := hexText_spec h1 s ctx1
    exact ⟨text, htext, by rw [hof.length, h1.length], hof⟩
  · intro text key
    exact hmac_digestSum h5 (by decide) text key ctx ctx
  · intro text key
    exact hmac_digestSum h1 (by decide) text key ctx1 ctx1

/-- SHA-1 at a message of 81 bytes -/
def sha1Table (message : List UInt8) : List UInt8 :=
  if message = List.replicate 81 0xaa then
    [0x9c, 0x55, 0x97, 0x7d, 0x21, 0x5e, 0x20, 0x18, 0xac, 0xa5, 0x2d, 0xf1, 0x37, 0xbf, 0x27, 0x60,
      0xa2, 0x23, 0xd5, 0x97]
  else List.replicate 20 0

theorem length_sha1Table (message : List UInt8) : (sha1Table message).length = 20 := by
  rw [sha1Table]
  split <;> rfl

/-- the digests of a key that is longer than a block -/
theorem digests_spec_long :
    (DigestOf md5Table (fun data len => md5sum (keep md5Table) data len []) ∧
      DigestOf sha1Table (fun data len => sha1sum (keep sha1Table) data len []) ∧
      DigestOf sha1Table (fun data len => sha0sum (keep sha1Table) data len [])) ∧
    (∃ text, md5 (keep md5Table) (List.replicate 81 0xaa) [] = some text ∧ text.length = 32 ∧
      TextOf (md5Table (List.replicate 81 0xaa)) text) ∧
    (∃ text, sha1 (keep sha1Table) (List.replicate 81 0xaa) [] = some text ∧ text.length = 40 ∧
      TextOf (sha1Table (List.replicate 81 0xaa)) text) := by
  obtain ⟨hsums, hmd5, hsha1, -, -⟩ := digests_spec (keep_computes length_md5Table)
    (keep_computes length_sha1Table) [] []
  exact ⟨hsums, hmd5 _, hsha1 _⟩

example : md5 (keep md5Table) (List.replicate 81 0xaa) [] =
    some ("a7a02a517496d6423a8e7878ba1e6b38".toList.map Char.toUInt8) := by
  decide +kernel

end HashUtils
end CppCores
