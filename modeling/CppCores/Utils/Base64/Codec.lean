import CppCores.Utils.Base64.Decode
import CppCores.Utils.Base64.Encode

/-!
# Base64: round trips, agreement of the two codecs, the strings that are accepted

* `base64_round_trip`      both codecs return the bytes that were encoded;
* `codecs_agree`           the encoders write the same string, and where `base64decode` returns bytes
                           `Base64Decoding` returns the same;
* `base64decode_accepts`   `base64decode` accepts the strings `Accepts` and no others.
-/

namespace CppCores
namespace Base64

theorem base64decode_of_accepts {s body : List UInt8} {p : ℕ}
    (hs : s = body ++ List.replicate p eqSign) (hbody : ∀ c ∈ body, is_base64 c = true)
    (hdvd : 4 ∣ s.length) (hp : p ≤ 2) :
    ∃ n, base64decodeRun s = some (.done (Out.buf n (decoded body))) ∧
      base64decode s = some (decoded body) := by
  have hlen := shape_length hs
  have hrun : base64decodeRun s = some (.done (Out.buf (s.length * 3 / 4) (decoded body))) := by
    have := decodeLoop_done (n := s.length * 3 / 4) [] hbody (hlen ▸ hdvd) hp
      (by rw [List.length_nil]; omega)
    rw [← hs] at this
    rw [base64decodeRun]
    exact this
  refine ⟨_, hrun, ?_⟩
  rw [base64decode, hrun]
  show some ((decoded body ++ _).take (decoded body).length) = _
  rw [List.take_left]

/-- how `base64decode` ends on any string -/
theorem base64decode_run (s : List UInt8) :
    ∃ e, base64decodeRun s = some e ∧ base64decode s = some e.ret ∧
      e.out.writeBuf ≤ s.length * 3 / 4 ∧
      ((∃ body p, s = body ++ List.replicate p eqSign ∧ (∀ c ∈ body, is_base64 c = true) ∧ p ≤ 2 ∧
        4 ∣ s.length) ∨ e.ret = []) := by
  obtain ⟨e, h1, h2, h3⟩ := decodeLoop_spec (n := s.length * 3 / 4) (s := s) []
    (by rw [List.length_nil]; omega)
  have hrun : base64decodeRun s = some e := h1
  refine ⟨e, hrun, by rw [base64decode, hrun]; rfl, h2, ?_⟩
  cases e with
  | empty o => exact .inr rfl
  | done o => exact .inl (h3 o rfl)

/-! ## the round trip -/

/-- symbols up to the padding, in groups of four for three bytes -/
structure EncodingShape (x e : List UInt8) : Prop where
  length : e.length = 4 * ((x.length + 2) / 3)
  shape : ∃ body, e = body ++ List.replicate ((3 - x.length % 3) % 3) eqSign ∧
    ∀ c ∈ body, c ∈ base64_chars

theorem encoded_shape (x : List UInt8) : EncodingShape x (encoded x) where
  length := length_encoded x
  shape := ⟨encodedBody x, rfl, fun c hc => (mem_base64_chars c).mpr (is_base64_encodedBody x c hc)⟩

/-- **Round trip.**  What either encoder writes, its decoder turns back. -/
theorem base64_round_trip (x : List UInt8) :
    (∃ e, base64encode x = some e ∧ EncodingShape x e ∧ base64decode e = some x) ∧
    (∀ junk3 junk4, x.length < 2 ^ 32 →
      ∃ e, Base64Encoding junk3 junk4 x (UInt32.ofNat x.length) = some e ∧ EncodingShape x e ∧
        (e.length < 2 ^ 31 → ∀ junk4 junk3, Base64Decoding junk4 junk3 e = x)) := by
  have hbody := is_base64_encodedBody x
  have hdvd : 4 ∣ (encoded x).length := ⟨_, length_encoded x⟩
  constructor
  · obtain ⟨_, _, h⟩ := base64decode_of_accepts (p := padding x) rfl hbody hdvd
      (by rw [padding]; omega)
    exact ⟨encoded x, base64encode_eq x, encoded_shape x, h.trans (congrArg some (decoded_encodedBody x))⟩
  · intro junk3 junk4 hx
    refine ⟨encoded x, ?_, encoded_shape x, ?_⟩
    · exact Base64Encoding_eq junk3 junk4 (UInt32.toNat_ofNat_of_lt' hx)
    · intro hlen junk4 junk3
      exact (Base64Decoding_eq junk4 junk3 hbody (stops_padding _) hlen).trans
        (decoded_encodedBody x)

/-! ## the two codecs -/

/-- **The codecs agree.** -/
theorem codecs_agree (junk3 junk4 : ℕ → UInt8) :
    (∀ x : List UInt8, x.length < 2 ^ 32 →
      ∃ e, Base64Encoding junk3 junk4 x (UInt32.ofNat x.length) = some e ∧ base64encode x = some e) ∧
    (∀ s r : List UInt8, s.length < 2 ^ 31 → base64decode s = some r → r ≠ [] →
      Base64Decoding junk4 junk3 s = r) := by
  constructor
  · intro x hx
    exact ⟨encoded x, Base64Encoding_eq junk3 junk4 (UInt32.toNat_ofNat_of_lt' hx), base64encode_eq x⟩
  · intro s r hlen hr hne
    obtain ⟨e, _, h2, _, h⟩ := base64decode_run s
    rw [hr] at h2
    obtain rfl := Option.some.inj h2
    obtain ⟨body, p, hs, hbody, hp, hdvd⟩ := h.resolve_right hne
    obtain ⟨_, _, hd⟩ := base64decode_of_accepts hs hbody hdvd hp
    rw [hr] at hd
    rw [Option.some.inj hd, hs]
    exact Base64Decoding_eq junk4 junk3 hbody (stops_padding p) (hs ▸ hlen)

/-- the unused bits of the last symbol are not looked at -/
theorem codecs_agree_unused_bits :
    Base64Decoding (fun _ => 0) (fun _ => 0) (['Q', 'R', '=', '='].map Char.toUInt8) = [0x41] :=
  (codecs_agree (fun _ => 0) (fun _ => 0)).2 _ _ (by decide) (by decide +kernel) (by decide)

/-! ## the strings that are accepted -/

/-- **`base64decode` accepts its strings and no others.** -/
theorem base64decode_accepts (s : List UInt8) :
    ∃ e r, base64decodeRun s = some e ∧ base64decode s = some r ∧
      e.out.writeBuf ≤ s.length * 3 / 4 ∧
      (r ≠ [] ↔ ∃ p, Accepts s p) ∧
      (∀ p, Accepts s p → r.length = 3 * s.length / 4 - p ∧
        ∀ body, s = body ++ List.replicate p eqSign →
          r = (regroup 6 8 (body.map value)).map UInt8.ofNat) ∧
      ((¬ ∃ p, Accepts s p) → r = []) := by
  obtain ⟨e, h1, h2, h3, h4⟩ := base64decode_run s
  have hacc : ∀ p, Accepts s p → e.ret.length = 3 * s.length / 4 - p ∧
      ∀ body, s = body ++ List.replicate p eqSign → e.ret = decoded body := by
    intro p h
    obtain ⟨body, hs, hbody⟩ := h.shape
    obtain ⟨_, _, hd⟩ := base64decode_of_accepts hs hbody h.dvd h.le
    rw [h2] at hd
    have hlen := shape_length hs
    obtain ⟨k, hk⟩ := h.dvd
    refine ⟨?_, ?_⟩
    · have := h.le
      rw [Option.some.inj hd, length_decoded]
      omega
    · intro body' hs'
      have : body = body' := List.append_cancel_right (hs.symm.trans hs')
      rw [Option.some.inj hd, this]
  have hrej : (¬ ∃ p, Accepts s p) → e.ret = [] := by
    intro hno
    rcases h4 with ⟨body, p, hs, hbody, hp, hdvd⟩ | h4
    · have hs0 : s = [] := by
        by_contra hne
        exact hno ⟨p, hne, hdvd, hp, body, hs, hbody⟩
      obtain ⟨_, _, hd⟩ := base64decode_of_accepts hs hbody hdvd hp
      have hb : body = [] := by
        have := shape_length hs
        rw [hs0, List.length_nil] at this
        exact List.length_eq_zero_iff.mp (by omega)
      rw [h2, hb] at hd
      exact Option.some.inj hd
    · exact h4
  refine ⟨e, e.ret, h1, h2, h3, ⟨?_, ?_⟩, hacc, hrej⟩
  · intro hne
    by_contra hno
    exact hne (hrej hno)
  · rintro ⟨p, h⟩ h0
    have hlen := (hacc p h).1
    obtain ⟨k, hk⟩ := h.dvd
    have hpos := List.length_pos_iff.mpr h.nonempty
    have := h.le
    rw [h0, List.length_nil] at hlen
    omega

end Base64
end CppCores
