import CppCores.Utils.Base64.Spec

/-!
# Base64: what the two decoders compute

* `Base64Decoding_eq`   `Base64Decoding` returns `decoded` of the symbols in front of the first
                        character that is none;
* `decodeLoop_done`     on symbols and at most two `=` in whole groups of four, `base64decode` writes
                        `decoded` of the symbols;
* `decodeLoop_spec`     on any string it writes within the buffer, and only on these strings it
                        comes to the end.
-/

namespace CppCores
namespace Base64

/-! ## encoding.cc -/

namespace Decoding

theorem shl2 (x : UInt8) : (x <<< 2).toNat = x.toNat * 4 % 256 := toNat_shift x 2 (by decide)

theorem mid2 (x : UInt8) : ((x &&& 0x30) >>> 4).toNat = x.toNat % 64 / 16 := by
  rw [toNat_field x 4 2 (by decide) (by decide)]
  omega

theorem low4 (x : UInt8) : ((x &&& 0xf) <<< 4).toNat = x.toNat % 16 * 16 := by
  rw [toNat_shift _ 4 (by decide), toNat_low x 4 (by decide)]
  omega

theorem mid4 (x : UInt8) : ((x &&& 0x3c) >>> 2).toNat = x.toNat % 64 / 4 := by
  rw [toNat_field x 2 4 (by decide) (by decide)]
  omega

theorem low2 (x : UInt8) : ((x &&& 0x3) <<< 6).toNat = x.toNat % 4 * 64 := by
  rw [toNat_shift _ 6 (by decide), toNat_low x 2 (by decide)]
  omega

section
variable {a : ℕ → UInt8} (b : ℕ → UInt8) {v0 v1 v2 v3 : ℕ}

theorem join_zero (h0 : (a 0).toNat = v0) (h1 : (a 1).toNat = v1) (hw : v1 < 64) :
    join a b 0 = UInt8.ofNat (v0 * 4 + v1 / 16) := by
  apply UInt8.toNat_inj.mp
  show ((a 0 <<< 2) + ((a 1 &&& 0x30) >>> 4)).toNat = _
  rw [UInt8.toNat_add, shl2, mid2, h0, h1, UInt8.toNat_ofNat']
  omega

theorem join_one (h1 : (a 1).toNat = v1) (h2 : (a 2).toNat = v2) (hw : v2 < 64) :
    join a b 1 = UInt8.ofNat (v1 % 16 * 16 + v2 / 4) := by
  apply UInt8.toNat_inj.mp
  show (((a 1 &&& 0xf) <<< 4) + ((a 2 &&& 0x3c) >>> 2)).toNat = _
  rw [UInt8.toNat_add, low4, mid4, h1, h2, UInt8.toNat_ofNat']
  omega

theorem join_two (h2 : (a 2).toNat = v2) (h3 : (a 3).toNat = v3) :
    join a b 2 = UInt8.ofNat (v2 % 4 * 64 + v3) := by
  apply UInt8.toNat_inj.mp
  show (((a 2 &&& 0x3) <<< 6) + a 3).toNat = _
  rw [UInt8.toNat_add, low2, h2, h3, UInt8.toNat_ofNat']

end

/-- the bytes of the symbols with the numbers `v0` to `v3` -/
def octets (v0 v1 v2 v3 : ℕ) : List ℕ := [v0 * 4 + v1 / 16, v1 % 16 * 16 + v2 / 4, v2 % 4 * 64 + v3]

theorem octets_eq {v0 v1 v2 v3 : ℕ} (h0 : v0 < 64) (h1 : v1 < 64) (h2 : v2 < 64) (h3 : v3 < 64) :
    octets v0 v1 v2 v3 = unpack 8 3 (pack 6 [v0, v1, v2, v3]) := by
  simp only [octets, unpack, pack, List.foldl_cons, List.foldl_nil, List.cons.injEq, and_true]
  omega

theorem push_group {s : Decoding} (h0 : s.i = 0) {c0 c1 c2 c3 : UInt8}
    (h : ∀ c ∈ [c0, c1, c2, c3], is_base64 c = true) :
    (((((s.push c0).push c1).push c2).push c3).i = 0) ∧
      ((((s.push c0).push c1).push c2).push c3).ret = s.ret ++
        (unpack 8 3 (pack 6 [value c0, value c1, value c2, value c3])).map UInt8.ofNat := by
  obtain ⟨i, a, b, ret⟩ := s
  obtain rfl : i = 0 := h0
  simp only [List.forall_mem_cons] at h
  obtain ⟨h0, h1, h2, h3, _⟩ := h
  refine ⟨rfl, congrArg (ret ++ ·) ?_⟩
  show [join _ b 0, join _ b 1, join _ b 2] = _
  rw [join_zero b (find_eq h0) (find_eq h1) (value_lt h1), join_one b (find_eq h1) (find_eq h2)
    (value_lt h2), join_two b (find_eq h2) (find_eq h3), ← octets_eq (value_lt h0) (value_lt h1)
    (value_lt h2) (value_lt h3)]
  rfl

/-- the last group: of `i` symbols `i - 1` bytes are written, whatever else the array holds -/
theorem finish_two {s : Decoding} (hi : s.i = 2) {c0 c1 : UInt8} (e0 : s.char_array_4 0 = c0)
    (e1 : s.char_array_4 1 = c1) (h0 : is_base64 c0 = true) (h1 : is_base64 c1 = true) :
    s.finish = s.ret ++ decoded [c0, c1] := by
  obtain ⟨i, a, b, ret⟩ := s
  obtain rfl : i = 2 := hi
  have h : ∀ c ∈ [c0, c1], is_base64 c = true := by simp [h0, h1]
  have hv := value_lt h0
  have hw := value_lt h1
  have he : [value c0 * 4 + value c1 / 16] = unpack 8 1 (pack 6 ([c0, c1].map value) / 2 ^ 4) := by
    simp only [unpack, pack, List.map_cons, List.map_nil, List.foldl_cons, List.foldl_nil,
      List.cons.injEq, and_true]
    omega
  subst e0 e1
  rw [decoded_last (m := 1) (r := 4) h rfl (by decide), ← he]
  show ret ++ [join _ b 0] = _
  rw [join_zero b (find_eq h0) (find_eq h1) (value_lt h1)]
  rfl

theorem finish_three {s : Decoding} (hi : s.i = 3) {c0 c1 c2 : UInt8} (e0 : s.char_array_4 0 = c0)
    (e1 : s.char_array_4 1 = c1) (e2 : s.char_array_4 2 = c2) (h0 : is_base64 c0 = true)
    (h1 : is_base64 c1 = true) (h2 : is_base64 c2 = true) :
    s.finish = s.ret ++ decoded [c0, c1, c2] := by
  obtain ⟨i, a, b, ret⟩ := s
  obtain rfl : i = 3 := hi
  have h : ∀ c ∈ [c0, c1, c2], is_base64 c = true := by simp [h0, h1, h2]
  have hv := value_lt h0
  have hw := value_lt h1
  have hu := value_lt h2
  have he : [value c0 * 4 + value c1 / 16, value c1 % 16 * 16 + value c2 / 4] =
      unpack 8 2 (pack 6 ([c0, c1, c2].map value) / 2 ^ 2) := by
    simp only [unpack, pack, List.map_cons, List.map_nil, List.foldl_cons, List.foldl_nil,
      List.cons.injEq, and_true]
    omega
  subst e0 e1 e2
  rw [decoded_last (m := 2) (r := 2) h rfl (by decide), ← he]
  show ret ++ [join _ b 0, join _ b 1] = _
  rw [join_zero b (find_eq h0) (find_eq h1) (value_lt h1), join_one b (find_eq h1) (find_eq h2)
    (value_lt h2)]
  rfl

/-! ### the loop -/

/-- the loop stops in front of `t` -/
def Stops (t : List UInt8) : Prop := ∀ c cs, t = c :: cs → is_base64 c = false

theorem loop_stops {t : List UInt8} (ht : Stops t) (in_len : Int32) (s : Decoding) :
    loop in_len t s = s := by
  cases t with
  | nil => rfl
  | cons c cs =>
    have := ht c cs rfl
    rw [loop, if_neg (by simp [this])]

theorem loop_symbol {c : UInt8} {cs : List UInt8} (h : is_base64 c = true)
    (hlen : cs.length + 1 < 2 ^ 31) (s : Decoding) :
    loop (Int32.ofNat (c :: cs).length) (c :: cs) s = loop (Int32.ofNat cs.length) cs (s.push c) := by
  have h0 : Int32.ofNat (c :: cs).length ≠ 0 := by
    intro e
    have := congrArg Int32.toInt e
    rw [List.length_cons, Int32.toInt_ofNat_of_lt hlen, Int32.toInt_zero] at this
    omega
  have h1 : Int32.ofNat (c :: cs).length - 1 = Int32.ofNat cs.length := by
    rw [List.length_cons, Int32.ofNat_add]
    simp
  rw [loop, if_pos ⟨h0, ne_eqSign h, h⟩, h1]

theorem loop_symbols {g : List UInt8} (cs : List UInt8) (h : ∀ c ∈ g, is_base64 c = true)
    (hlen : (g ++ cs).length < 2 ^ 31) (s : Decoding) :
    loop (Int32.ofNat (g ++ cs).length) (g ++ cs) s =
      loop (Int32.ofNat cs.length) cs (g.foldl push s) := by
  induction g generalizing s with
  | nil => rfl
  | cons c g ih =>
    have hlt : (g ++ cs).length + 1 < 2 ^ 31 := hlen
    rw [List.cons_append, loop_symbol (h c List.mem_cons_self) hlt,
      ih (fun e he => h e (List.mem_cons_of_mem _ he)) (Nat.lt_of_succ_lt hlt), List.foldl_cons]

/-- **The loop and the last group write `decoded` of the symbols in front.** -/
theorem loop_eq {t : List UInt8} (ht : Stops t) (body : List UInt8) (s : Decoding) (h0 : s.i = 0)
    (h : ∀ c ∈ body, is_base64 c = true) (hlen : (body ++ t).length < 2 ^ 31) :
    (loop (Int32.ofNat (body ++ t).length) (body ++ t) s).finish = s.ret ++ decoded body := by
  match body with
  | [] => rw [List.nil_append, loop_stops ht, finish, if_pos h0, decoded_nil, List.append_nil]
  | [a] =>
    obtain ⟨i, a4, a3, ret⟩ := s
    obtain rfl : i = 0 := h0
    rw [loop_symbols t h hlen, loop_stops ht, decoded_last (m := 0) (r := 6) h rfl (by decide)]
    rfl
  | [a, b] =>
    obtain ⟨i, a4, a3, ret⟩ := s
    obtain rfl : i = 0 := h0
    rw [loop_symbols t h hlen, loop_stops ht]
    exact finish_two rfl rfl rfl (h a (by simp)) (h b (by simp))
  | [a, b, c] =>
    obtain ⟨i, a4, a3, ret⟩ := s
    obtain rfl : i = 0 := h0
    rw [loop_symbols t h hlen, loop_stops ht]
    exact finish_three rfl rfl rfl rfl (h a (by simp)) (h b (by simp)) (h c (by simp))
  | a :: b :: c :: d :: body =>
    have hg : ∀ e ∈ [a, b, c, d], is_base64 e = true := by
      intro e he
      exact h e (List.mem_append_left body he)
    have hbody : ∀ e ∈ body, is_base64 e = true := by
      intro e he
      exact h e (List.mem_append_right [a, b, c, d] he)
    have happ : a :: b :: c :: d :: body ++ t = [a, b, c, d] ++ (body ++ t) := rfl
    have hlt : (body ++ t).length < 2 ^ 31 := by
      rw [happ, List.length_append] at hlen
      omega
    obtain ⟨hi, hret⟩ := push_group h0 hg
    rw [happ, loop_symbols (body ++ t) hg (happ ▸ hlen)]
    rw [loop_eq ht body ([a, b, c, d].foldl push s) hi hbody hlt, decoded_group hg,
      ← List.append_assoc, ← hret]
    rfl

end Decoding

theorem Base64Decoding_eq (junk4 junk3 : ℕ → UInt8) {body t : List UInt8}
    (h : ∀ c ∈ body, is_base64 c = true) (ht : Decoding.Stops t)
    (hlen : (body ++ t).length < 2 ^ 31) : Base64Decoding junk4 junk3 (body ++ t) = decoded body := by
  rw [Base64Decoding, Decoding.loop_eq ht body _ rfl h hlen, List.nil_append]

theorem stops_padding (p : ℕ) : Decoding.Stops (List.replicate p eqSign) := by
  intro c cs h
  cases p with
  | zero => cases h
  | succ p =>
    obtain ⟨rfl, _⟩ := List.cons.inj h
    exact is_base64_eqSign

/-! ## hash.cc -/

/-- the buffer of `n` bytes with `ws` written -/
def Out.buf (n : ℕ) (ws : List UInt8) : Out where
  result := paddedTo n 0 ws
  writeBuf := ws.length

theorem put_buf {n : ℕ} {ws : List UInt8} (h : ws.length < n) (v : ℕ) :
    (Out.buf n ws).put v = some (Out.buf n (ws ++ [UInt8.ofNat v])) := by
  have hv : UInt8.ofNat (v &&& 0xff) = UInt8.ofNat v := by
    apply UInt8.toNat_inj.mp
    have : v &&& 0xff = v % 256 := Nat.and_two_pow_sub_one_eq_mod v 8
    rw [this, UInt8.toNat_ofNat', UInt8.toNat_ofNat', Nat.mod_mod]
  rw [Out.put, hv]
  show (writeAt (paddedTo n 0 ws) ws.length _).map _ = _
  rw [writeAt_paddedTo h]
  simp [Out.buf]

theorem writeGroup_buf {n padding packed : ℕ} {ws : List UInt8} (hp : padding ≤ 2)
    (h : ws.length + (3 - padding) ≤ n) :
    writeGroup (Out.buf n ws) padding packed =
      some (Out.buf n (ws ++ ((unpack 8 3 packed).take (3 - padding)).map UInt8.ofNat)) := by
  have hd : ∀ e, UInt8.ofNat (packed >>> e) = UInt8.ofNat (packed / 2 ^ e % 2 ^ 8) := by
    intro e
    apply UInt8.toNat_inj.mp
    rw [UInt8.toNat_ofNat', UInt8.toNat_ofNat', Nat.shiftRight_eq_div_pow, Nat.mod_mod]
  have e0 : UInt8.ofNat packed = UInt8.ofNat (packed / 2 ^ 0 % 2 ^ 8) := hd 0
  match padding, hp with
  | 0, _ =>
    rw [writeGroup, put_buf (by omega), hd, Option.bind_some, if_pos (by decide),
      put_buf (by simp; omega), hd, Option.bind_some, if_pos rfl, put_buf (by simp; omega), e0]
    simp [unpack]
  | 1, _ =>
    rw [writeGroup, put_buf (by omega), hd, Option.bind_some, if_pos (by decide),
      put_buf (by simp; omega), hd, Option.bind_some, if_neg (by decide)]
    simp [unpack]
  | 2, _ =>
    rw [writeGroup, put_buf (by omega), hd, Option.bind_some, if_neg (by decide), Option.bind_some,
      if_neg (by decide)]
    simp [unpack]

/-! ### one group -/

theorem readGroup_symbol {i : ℕ} (hi : i < 4) {c : UInt8} (h : is_base64 c = true) (w : ℕ)
    (s : List UInt8) : readGroup i 0 w (c :: s) = readGroup (i + 1) 0 (w * 2 ^ 6 + value c) s := by
  rw [readGroup, if_pos hi, if_neg (ne_eqSign h), if_neg (by decide), symbolVal_eq, if_pos h]
  simp only
  rw [shl_or 6 (value_lt h)]

theorem readGroup_eqSign {i : ℕ} (hi : i < 4) (p w : ℕ) (s : List UInt8) :
    readGroup i p w (eqSign :: s) = readGroup (i + 1) (p + 1) (w * 2 ^ 6) s := by
  rw [readGroup, if_pos hi, if_pos rfl, Nat.shiftLeft_eq]

theorem readGroup_four (p w : ℕ) (s : List UInt8) : readGroup 4 p w s = .group 4 p w s := by
  cases s <;> rfl

theorem readGroup_symbols {g : List UInt8} (h : ∀ c ∈ g, is_base64 c = true) {i : ℕ}
    (hi : i + g.length ≤ 4) (w : ℕ) (s : List UInt8) :
    readGroup i 0 w (g ++ s) =
      readGroup (i + g.length) 0 ((g.map value).foldl (fun w v => w * 2 ^ 6 + v) w) s := by
  induction g generalizing i w with
  | nil => rfl
  | cons c g ih =>
    rw [List.length_cons] at hi
    rw [List.cons_append, readGroup_symbol (by omega) (h c List.mem_cons_self),
      ih (fun e he => h e (List.mem_cons_of_mem _ he)) (by omega), List.length_cons, List.map_cons,
      List.foldl_cons]
    congr 1
    omega

theorem readGroup_padding (q : ℕ) {i : ℕ} (hi : i + q ≤ 4) (p w : ℕ) (s : List UInt8) :
    readGroup i p w (List.replicate q eqSign ++ s) = readGroup (i + q) (p + q) (w * 2 ^ (6 * q)) s := by
  induction q generalizing i p w with
  | zero => simp
  | succ q ih =>
    rw [List.replicate_succ, List.cons_append, readGroup_eqSign (by omega), ih (by omega)]
    congr 1
    · omega
    · omega
    · rw [Nat.mul_succ, Nat.pow_add, Nat.mul_assoc, Nat.mul_comm (2 ^ 6)]

theorem readGroup_group {g : List UInt8} (h : ∀ c ∈ g, is_base64 c = true) {q : ℕ}
    (hlen : g.length + q = 4) (s : List UInt8) :
    readGroup 0 0 0 (g ++ (List.replicate q eqSign ++ s)) =
      .group 4 q (pack 6 (g.map value) * 2 ^ (6 * q)) s := by
  rw [readGroup_symbols h (by omega), readGroup_padding q (by omega), Nat.zero_add, hlen,
    Nat.zero_add, readGroup_four]
  rfl

/-- **What is read as a group is symbols and then `=`.** -/
theorem readGroup_inv {i p w i' p' w' : ℕ} {s t : List UInt8}
    (h : readGroup i p w s = .group i' p' w' t) :
    ∃ g q, s = g ++ List.replicate q eqSign ++ t ∧ (∀ c ∈ g, is_base64 c = true) ∧
      (0 < p → g = []) ∧ p' = p + q := by
  fun_induction readGroup i p w s with
  | case1 => cases h; exact ⟨[], 0, rfl, by simp, fun _ => rfl, rfl⟩
  | case2 i p w ptr _ ih =>
    obtain ⟨g, q, h1, _, h3, h4⟩ := ih h
    obtain rfl := h3 (Nat.succ_pos p)
    refine ⟨[], q + 1, ?_, by simp, fun _ => rfl, by omega⟩
    rw [h1]
    rfl
  | case3 => cases h
  | case4 => cases h
  | case5 i p w c ptr _ _ hp val hval ih =>
    obtain ⟨g, q, h1, h2, _, h4⟩ := ih h
    have hc : is_base64 c = true := by
      rw [symbolVal_eq] at hval
      exact (Option.ite_none_right_eq_some.mp hval).1
    refine ⟨c :: g, q, ?_, List.forall_mem_cons.mpr ⟨hc, h2⟩, fun h0 => absurd h0 hp, h4⟩
    rw [h1]
    rfl
  | case6 => cases h; exact ⟨[], 0, rfl, by simp, fun _ => rfl, rfl⟩

/-! ### the loop over the groups -/

theorem decodeLoop_nil (o : Out) : decodeLoop o [] = some (.done o) := by
  rw [decodeLoop, if_pos rfl]

theorem decodeLoop_group {o : Out} {s ptr : List UInt8} {p packed : ℕ} (h0 : s ≠ [])
    (h : readGroup 0 0 0 s = .group 4 p packed ptr) (hp : p = 0 ∨ ptr = []) (h2 : p ≤ 2) :
    decodeLoop o s = (writeGroup o p packed).bind fun o => decodeLoop o ptr := by
  rw [decodeLoop, if_neg h0]
  split
  · rename_i h'
    rw [h] at h'
    cases h'
  · rename_i i' p' w' t' h'
    rw [h] at h'
    obtain ⟨rfl, rfl, rfl, rfl⟩ := h'
    rw [if_neg (by simp), if_neg (by rintro ⟨h1, h2⟩; rcases hp with rfl | rfl; omega; exact h2 rfl),
      if_neg (by omega)]

theorem decodeLoop_last {n p : ℕ} {body ws : List UInt8} (hbody : ∀ c ∈ body, is_base64 c = true)
    (hlen : body.length + p = 4) (hp : p = 1 ∨ p = 2) (hn : ws.length + (3 - p) ≤ n) :
    decodeLoop (Out.buf n ws) (body ++ List.replicate p eqSign) =
      some (.done (Out.buf n (ws ++ decoded body))) := by
  have hg := readGroup_group hbody hlen []
  rw [List.append_nil] at hg
  have hne : body ++ List.replicate p eqSign ≠ [] := by
    intro e
    have := congrArg List.length e
    rw [List.length_append, List.length_replicate, List.length_nil] at this
    omega
  rw [decodeLoop_group hne hg (.inr rfl) (by omega), writeGroup_buf (by omega) hn, Option.bind_some,
    decodeLoop_nil]
  have htake := take_unpack 8 (3 - p) p (pack 6 (body.map value) * 2 ^ (6 * p))
  have hw : pack 6 (body.map value) * 2 ^ (6 * p) / 2 ^ (8 * p) =
      pack 6 (body.map value) / 2 ^ (2 * p) := by
    rcases hp with rfl | rfl <;> omega
  rw [hw, show 3 - p + p = 3 by omega] at htake
  rw [htake, decoded_last (m := 3 - p) (r := 2 * p) hbody (by omega) (by omega)]

/-- **On its strings `base64decode` writes `decoded` of the symbols.** -/
theorem decodeLoop_done {n p : ℕ} {body : List UInt8} (ws : List UInt8)
    (hbody : ∀ c ∈ body, is_base64 c = true) (hdvd : 4 ∣ body.length + p) (hp : p ≤ 2)
    (hn : ws.length + 6 * body.length / 8 ≤ n) :
    decodeLoop (Out.buf n ws) (body ++ List.replicate p eqSign) =
      some (.done (Out.buf n (ws ++ decoded body))) := by
  match body with
  | [] =>
    obtain rfl : p = 0 := by rw [List.length_nil] at hdvd; omega
    rw [decoded_nil, List.append_nil]
    exact decodeLoop_nil _
  | [a] =>
    rw [List.length_singleton] at hdvd
    omega
  | [a, b] =>
    obtain rfl : p = 2 := by rw [List.length_cons, List.length_singleton] at hdvd; omega
    rw [List.length_cons, List.length_singleton] at hn
    exact decodeLoop_last hbody rfl (.inr rfl) (by omega)
  | [a, b, c] =>
    obtain rfl : p = 1 := by
      rw [List.length_cons, List.length_cons, List.length_singleton] at hdvd
      omega
    rw [List.length_cons, List.length_cons, List.length_singleton] at hn
    exact decodeLoop_last hbody rfl (.inl rfl) (by omega)
  | a :: b :: c :: d :: body =>
    have hg : ∀ e ∈ [a, b, c, d], is_base64 e = true := by
      intro e he
      exact hbody e (List.mem_append_left body he)
    have hbody' : ∀ e ∈ body, is_base64 e = true := by
      intro e he
      exact hbody e (List.mem_append_right [a, b, c, d] he)
    have hl : (a :: b :: c :: d :: body).length = body.length + 4 := rfl
    rw [hl] at hdvd hn
    have hr : readGroup 0 0 0 (a :: b :: c :: d :: body ++ List.replicate p eqSign) = _ :=
      readGroup_group (q := 0) hg rfl (body ++ List.replicate p eqSign)
    rw [decodeLoop_group (by simp) hr (.inl rfl) (by omega), writeGroup_buf (by omega) (by omega),
      Option.bind_some]
    have ht : (unpack 8 3 (pack 6 ([a, b, c, d].map value) * 2 ^ (6 * 0))).take (3 - 0) =
        unpack 8 3 (pack 6 [value a, value b, value c, value d]) := by
      rw [Nat.mul_zero, Nat.pow_zero, Nat.mul_one]
      rfl
    have hlen : (ws ++ (unpack 8 3 (pack 6 [value a, value b, value c, value d])).map
        UInt8.ofNat).length = ws.length + 3 := by
      rw [List.length_append]
      rfl
    rw [ht, decodeLoop_done _ hbody' (by omega) hp (by omega), decoded_group hg, List.append_assoc]

theorem shape_length {body s : List UInt8} {p : ℕ} (h : s = body ++ List.replicate p eqSign) :
    s.length = body.length + p := by
  rw [h, List.length_append, List.length_replicate]

/-- **Only on these strings it comes to the end, and it never writes outside the buffer.** -/
theorem decodeLoop_spec {n : ℕ} {s : List UInt8} (ws : List UInt8) (hn : ws.length + s.length * 3 / 4 ≤ n) :
    ∃ e, decodeLoop (Out.buf n ws) s = some e ∧ e.out.writeBuf ≤ n ∧
      ∀ o, e = .done o → ∃ body p, s = body ++ List.replicate p eqSign ∧
        (∀ c ∈ body, is_base64 c = true) ∧ p ≤ 2 ∧ 4 ∣ s.length := by
  have hempty : ∃ e, some (Exit.empty (Out.buf n ws)) = some e ∧ e.out.writeBuf ≤ n ∧
      ∀ o, e = .done o → ∃ body p, s = body ++ List.replicate p eqSign ∧
        (∀ c ∈ body, is_base64 c = true) ∧ p ≤ 2 ∧ 4 ∣ s.length :=
    ⟨_, rfl, by show ws.length ≤ n; omega, nofun⟩
  rw [decodeLoop]
  split
  · subst s
    exact ⟨_, rfl, by show ws.length ≤ n; omega, fun _ _ => ⟨[], 0, rfl, by simp, by simp, by simp⟩⟩
  split
  · exact hempty
  rename_i i p w t hr
  split
  · exact hempty
  split
  · exact hempty
  split
  · exact hempty
  -- a good group
  rename_i hi hpt hp
  obtain rfl : i = 4 := by omega
  obtain ⟨g, q, hs, hg, _, hq⟩ := readGroup_inv hr
  have hlen := readGroup_ptr hr
  rw [Nat.zero_add] at hq
  subst q
  rw [writeGroup_buf (by omega) (by omega), Option.bind_some]
  have hwlen : (ws ++ ((unpack 8 3 w).take (3 - p)).map UInt8.ofNat).length ≤ ws.length + 3 := by
    rw [List.length_append, List.length_map, List.length_take]
    omega
  obtain ⟨e, h1, h2, h3⟩ := decodeLoop_spec (n := n) (s := t)
    (ws ++ ((unpack 8 3 w).take (3 - p)).map UInt8.ofNat) (by omega)
  refine ⟨e, h1, h2, fun o ho => ?_⟩
  obtain ⟨body, p', ht, hb, hp', hdvd⟩ := h3 o ho
  rcases Nat.eq_zero_or_pos p with rfl | hpos
  · refine ⟨g ++ body, p', ?_, ?_, hp', by omega⟩
    · rw [hs, ht, List.replicate_zero, List.append_nil, List.append_assoc]
    · intro c hc
      rcases List.mem_append.mp hc with hc | hc
      · exact hg c hc
      · exact hb c hc
  · have htn : t = [] := by
      by_contra hne
      exact hpt ⟨hpos, hne⟩
    exact ⟨g, p, by rw [hs, htn, List.append_nil], hg, by omega, by omega⟩
termination_by s.length
decreasing_by omega

end Base64
end CppCores
