import CppCores.Utils.Base64.Spec

/-!
# Base64: both encoders compute `encoded`

* `push_group`, `Encoding.loop_eq`   three turns of the loop of `Base64Encoding` write one group;
* `encodeLoop_eq`                    one turn of the loop of `base64encode` does the same.
-/

namespace CppCores
namespace Base64

/-! ## encoding.cc -/

namespace Encoding

/-- the numbers of the four symbols of the bytes `x`, `y`, `z` -/
def sextets (x y z : UInt8) : List ℕ :=
  [x.toNat / 4, x.toNat % 4 * 16 + y.toNat / 16, y.toNat % 16 * 4 + z.toNat / 64, z.toNat % 64]

theorem sextets_eq (x y z : UInt8) :
    sextets x y z = unpack 6 4 (pack 8 [x.toNat, y.toNat, z.toNat]) := by
  have hx := x.toNat_lt
  have hy := y.toNat_lt
  have hz := z.toNat_lt
  simp only [sextets, unpack, pack, List.foldl_cons, List.foldl_nil, List.cons.injEq, and_true]
  omega

theorem high6 (x : UInt8) : ((x &&& 0xfc) >>> 2).toNat = x.toNat / 4 := by
  have h := x.toNat_lt
  rw [toNat_field x 2 6 (by decide) (by decide)]
  omega

theorem low2 (x : UInt8) : ((x &&& 0x03) <<< 4).toNat = x.toNat % 4 * 16 := by
  rw [toNat_shift _ 4 (by decide), toNat_low x 2 (by decide)]
  omega

theorem high4 (x : UInt8) : ((x &&& 0xf0) >>> 4).toNat = x.toNat / 16 := by
  have h := x.toNat_lt
  rw [toNat_field x 4 4 (by decide) (by decide)]
  omega

theorem low4 (x : UInt8) : ((x &&& 0x0f) <<< 2).toNat = x.toNat % 16 * 4 := by
  rw [toNat_shift _ 2 (by decide), toNat_low x 4 (by decide)]
  omega

theorem high2 (x : UInt8) : ((x &&& 0xc0) >>> 6).toNat = x.toNat / 64 := by
  have h := x.toNat_lt
  rw [toNat_field x 6 2 (by decide) (by decide)]
  omega

theorem low6 (x : UInt8) : (x &&& 0x3f).toNat = x.toNat % 64 := toNat_low x 6 (by decide)

theorem split_zero (a b : ℕ → UInt8) : (split a b 0).toNat = (a 0).toNat / 4 := high6 (a 0)

theorem split_one (a b : ℕ → UInt8) :
    (split a b 1).toNat = (a 0).toNat % 4 * 16 + (a 1).toNat / 16 := by
  have h := (a 1).toNat_lt
  show (((a 0 &&& 0x03) <<< 4) + ((a 1 &&& 0xf0) >>> 4)).toNat = _
  rw [UInt8.toNat_add, low2, high4, Nat.mod_eq_of_lt (by omega)]

theorem split_two (a b : ℕ → UInt8) :
    (split a b 2).toNat = (a 1).toNat % 16 * 4 + (a 2).toNat / 64 := by
  have h := (a 2).toNat_lt
  show (((a 1 &&& 0x0f) <<< 2) + ((a 2 &&& 0xc0) >>> 6)).toNat = _
  rw [UInt8.toNat_add, low4, high2, Nat.mod_eq_of_lt (by omega)]

theorem sextets_lt (x y z : UInt8) : ∀ v ∈ sextets x y z, v < 64 := by
  have hx := x.toNat_lt
  have hy := y.toNat_lt
  have hz := z.toNat_lt
  simp only [sextets, List.forall_mem_cons]
  refine ⟨by omega, by omega, by omega, by omega, by simp⟩

theorem symbols_eq {n : ℕ} {b : ℕ → UInt8} {vs : List ℕ} (hn : vs.length = n)
    (hb : ∀ j, (hj : j < vs.length) → (b j).toNat = vs[j]) (hvs : ∀ v ∈ vs, v < 64) :
    symbols n b = some (vs.map symbol) := by
  have h : ∀ js : List ℕ, (∀ j ∈ js, j < vs.length) →
      js.mapM (fun j => base64_chars[(b j).toNat]?) = some (js.map fun j => symbol (b j).toNat) := by
    intro js hjs
    induction js with
    | nil => rfl
    | cons j js ih =>
      have hj := hjs j List.mem_cons_self
      have h64 : (b j).toNat < 64 := by
        rw [hb j hj]
        exact hvs _ (List.getElem_mem hj)
      rw [List.mapM_cons, base64_chars_get h64, ih fun i hi => hjs i (List.mem_cons_of_mem _ hi)]
      rfl
  rw [symbols, ← hn, h _ fun j hj => List.mem_range.mp hj]
  congr 1
  apply List.ext_getElem
  · rw [List.length_map, List.length_map, List.length_range]
  · intro j h1 h2
    rw [List.length_map] at h2
    rw [List.getElem_map, List.getElem_map, List.getElem_range, hb j h2]

theorem push_group {s : Encoding} (h0 : s.i = 0) (x y z : UInt8) :
    ∃ s', ((s.push x).bind fun s => (s.push y).bind fun s => s.push z) = some s' ∧ s'.i = 0 ∧
      s'.ret = s.ret ++ (sextets x y z).map symbol := by
  obtain ⟨i, a, b, ret⟩ := s
  obtain rfl : i = 0 := h0
  have hs : ∀ j, (hj : j < (sextets x y z).length) →
      (Function.update (split (Function.update (Function.update (Function.update a 0 x) 1 y) 2 z) b)
        3 (z &&& 0x3f) j).toNat = (sextets x y z)[j] := by
    intro j hj
    match j, hj with
    | 0, _ => exact split_zero _ b
    | 1, _ => exact split_one _ b
    | 2, _ => exact split_two _ b
    | 3, _ => exact low6 z
  have he := symbols_eq (n := 4) rfl hs (sextets_lt x y z)
  exact ⟨_, by simp only [push, Option.bind]; exact congrArg (Option.map _) he, rfl, rfl⟩

/-- the last group is a group with zeros behind its bytes, of which `i + 1` symbols are written -/
theorem finish_eq {s : Encoding} (h0 : s.i ≠ 0) (h3 : s.i < 3) {x y z : UInt8}
    (hx : s.char_array_3 0 = x) (hy : (if s.i ≤ 1 then 0 else s.char_array_3 1) = y) (hz : z = 0) :
    s.finish = some (s.ret ++ ((sextets x y z).take (s.i + 1)).map symbol ++
      List.replicate (3 - s.i) eqSign) := by
  have hlen : ((sextets x y z).take (s.i + 1)).length = s.i + 1 := by
    rw [List.length_take]
    exact Nat.min_eq_left (by simp only [sextets, List.length_cons, List.length_nil]; omega)
  have hs : ∀ j, (hj : j < ((sextets x y z).take (s.i + 1)).length) →
      (split (fun j => if s.i ≤ j ∧ j < 3 then 0 else s.char_array_3 j) s.char_array_4 j).toNat =
        ((sextets x y z).take (s.i + 1))[j] := by
    intro j hj
    rw [List.getElem_take]
    have a0 : (if s.i ≤ 0 ∧ 0 < 3 then 0 else s.char_array_3 0) = x := by
      rw [if_neg (by omega), hx]
    have a1 : (if s.i ≤ 1 ∧ 1 < 3 then 0 else s.char_array_3 1) = y := by
      rw [← hy]
      simp only [show (1 : ℕ) < 3 by decide, and_true]
    have a2 : (if s.i ≤ 2 ∧ 2 < 3 then 0 else s.char_array_3 2) = z := by
      rw [if_pos (by omega), hz]
    have hj3 : j < 3 := by omega
    match j, hj3 with
    | 0, _ => rw [split_zero, a0]; rfl
    | 1, _ => rw [split_one, a0, a1]; rfl
    | 2, _ => rw [split_two, a1, a2]; rfl
  rw [finish, if_neg h0]
  exact congrArg (Option.map _)
    (symbols_eq hlen hs fun v hv => sextets_lt x y z v (List.mem_of_mem_take hv))

theorem last1 (x : UInt8) : encoded [x] =
    ((sextets x 0 0).take 2).map symbol ++ List.replicate 2 eqSign := by
  have hx := x.toNat_lt
  rw [encoded_last (m := 2) (r := 4) rfl (by decide)]
  congr 2
  simp only [sextets, unpack, pack, List.map_cons, List.map_nil, List.foldl_cons, List.foldl_nil,
    List.take, List.cons.injEq, and_true, UInt8.toNat_zero]
  omega

theorem last2 (x y : UInt8) : encoded [x, y] =
    ((sextets x y 0).take 3).map symbol ++ List.replicate 1 eqSign := by
  have hx := x.toNat_lt
  have hy := y.toNat_lt
  rw [encoded_last (m := 3) (r := 2) rfl (by decide)]
  congr 2
  simp only [sextets, unpack, pack, List.map_cons, List.map_nil, List.foldl_cons, List.foldl_nil,
    List.take, List.cons.injEq, and_true, UInt8.toNat_zero]
  omega

/-- **The loop and the last group write `encoded`.** -/
theorem loop_eq (x : List UInt8) (s : Encoding) (h0 : s.i = 0) :
    (loop x.length x s).bind finish = some (s.ret ++ encoded x) := by
  match x with
  | [] =>
    rw [List.length_nil, loop, Option.bind_some, finish, if_pos h0, encoded_nil, List.append_nil]
  | [x] =>
    obtain ⟨i, a, b, ret⟩ := s
    obtain rfl : i = 0 := h0
    rw [last1, ← List.append_assoc]
    exact finish_eq (s := ⟨1, Function.update a 0 x, b, ret⟩) (show 1 ≠ 0 by decide)
      (show 1 < 3 by decide) rfl rfl rfl
  | [x, y] =>
    obtain ⟨i, a, b, ret⟩ := s
    obtain rfl : i = 0 := h0
    rw [last2, ← List.append_assoc]
    exact finish_eq (s := ⟨2, Function.update (Function.update a 0 x) 1 y, b, ret⟩)
      (show 2 ≠ 0 by decide) (show 2 < 3 by decide) rfl rfl rfl
  | x :: y :: z :: xs =>
    obtain ⟨s', h1, h2, h3⟩ := push_group h0 x y z
    have h4 : loop (x :: y :: z :: xs).length (x :: y :: z :: xs) s = loop xs.length xs s' := by
      have h5 : loop (x :: y :: z :: xs).length (x :: y :: z :: xs) s =
          ((s.push x).bind fun s => (s.push y).bind fun s => s.push z).bind
            (loop xs.length xs) := by
        simp only [List.length_cons, loop, Option.bind_assoc]
      rw [h5, h1, Option.bind_some]
    rw [h4, loop_eq xs s' h2, h3, encoded_group, ← sextets_eq, List.append_assoc]

end Encoding

theorem Base64Encoding_eq (junk3 junk4 : ℕ → UInt8) {x : List UInt8} {in_len : UInt32}
    (h : in_len.toNat = x.length) : Base64Encoding junk3 junk4 x in_len = some (encoded x) := by
  rw [Base64Encoding, h, Encoding.loop_eq x _ rfl, List.nil_append]

/-! ## hash.cc -/

theorem groupSymbols_eq {padding packed : ℕ} (hp : padding ≤ 2) (h : packed < 2 ^ 24) :
    groupSymbols padding packed =
      some (((unpack 6 4 packed).take (4 - padding)).map symbol) := by
  have h6 : ∀ v, v &&& 0x3f = v % 64 := fun v => Nat.and_two_pow_sub_one_eq_mod v 6
  have e1 : base64[packed >>> 18]? = some (symbol (packed / 2 ^ 18 % 2 ^ 6)) := by
    rw [Nat.shiftRight_eq_div_pow, Nat.mod_eq_of_lt (by omega)]
    exact base64_chars_get (by omega)
  have e2 : base64[(packed >>> 12) &&& 0x3f]? = some (symbol (packed / 2 ^ 12 % 2 ^ 6)) := by
    rw [Nat.shiftRight_eq_div_pow, h6]
    exact base64_chars_get (Nat.mod_lt _ (by decide))
  have e3 : base64[(packed >>> 6) &&& 0x3f]? = some (symbol (packed / 2 ^ 6 % 2 ^ 6)) := by
    rw [Nat.shiftRight_eq_div_pow, h6]
    exact base64_chars_get (Nat.mod_lt _ (by decide))
  have e4 : base64[packed &&& 0x3f]? = some (symbol (packed / 2 ^ 0 % 2 ^ 6)) := by
    rw [Nat.pow_zero, Nat.div_one, h6]
    exact base64_chars_get (Nat.mod_lt _ (by decide))
  rw [groupSymbols, e1, e2, e3, e4]
  match padding, hp with
  | 0, _ => rfl
  | 1, _ => rfl
  | 2, _ => rfl

theorem encodeLoop_nil (ret : List UInt8) : encodeLoop ret [] = some ret := by
  rw [encodeLoop, if_pos rfl]

theorem encodeLoop_step {ptr rest : List UInt8} {i packed p w : ℕ} (ret : List UInt8)
    (h0 : ptr ≠ []) (h : packBytes 0 0 ptr = (i, packed, rest))
    (hp : (if i = 2 then 1 else if i = 1 then 2 else 0) = p) (hw : shiftUp i packed = w)
    (hlt : w < 2 ^ 24) :
    encodeLoop ret ptr = encodeLoop (ret ++ ((unpack 6 4 w).take (4 - p)).map symbol ++
      List.replicate p eqSign) rest := by
  have hp2 : p ≤ 2 := by
    rw [← hp]
    split
    · decide
    · split <;> decide
  rw [encodeLoop, if_neg h0]
  split
  rename_i i' packed' rest' h'
  rw [h] at h'
  obtain ⟨rfl, rfl, rfl⟩ := h'
  simp only [hp, hw, groupSymbols_eq hp2 hlt, Option.bind_some]

theorem packBytes_three (w : ℕ) (s : List UInt8) : packBytes 3 w s = (3, w, s) := by
  cases s <;> rfl

theorem packBytes_cons {i : ℕ} (hi : i < 3) (w : ℕ) (x : UInt8) (s : List UInt8) :
    packBytes i w (x :: s) = packBytes (i + 1) (w * 2 ^ 8 + x.toNat) s := by
  rw [packBytes, if_pos hi, shl_or 8 x.toNat_lt]

theorem encodeLoop_group (ret : List UInt8) (x y z : UInt8) (xs : List UInt8) :
    encodeLoop ret (x :: y :: z :: xs) =
      encodeLoop (ret ++ (unpack 6 4 (pack 8 [x.toNat, y.toNat, z.toNat])).map symbol) xs := by
  have hx := x.toNat_lt
  have hy := y.toNat_lt
  have hz := z.toNat_lt
  have hpack : packBytes 0 0 (x :: y :: z :: xs) = (3, pack 8 [x.toNat, y.toNat, z.toNat], xs) := by
    rw [packBytes_cons (by decide), packBytes_cons (by decide), packBytes_cons (by decide),
      packBytes_three]
    rfl
  have hlt : pack 8 [x.toNat, y.toNat, z.toNat] < 2 ^ 24 := by
    simp only [pack, List.foldl_cons, List.foldl_nil]
    omega
  rw [encodeLoop_step ret (by simp) hpack rfl (by rw [shiftUp, if_neg (by decide)]) hlt]
  simp [unpack]

theorem shiftUp_eq {i : ℕ} (w : ℕ) (hi : i ≤ 3) : shiftUp i w = w * 2 ^ (8 * (3 - i)) := by
  fun_induction shiftUp i w with
  | case1 i w h ih =>
    have e : 8 * (3 - i) = 8 + 8 * (3 - (i + 1)) := by omega
    rw [ih h, Nat.shiftLeft_eq, e, Nat.pow_add, Nat.mul_assoc]
  | case2 i w h =>
    obtain rfl : i = 3 := by omega
    rw [Nat.sub_self, Nat.mul_zero, Nat.pow_zero, Nat.mul_one]

theorem encodeLoop_last1 (ret : List UInt8) (x : UInt8) :
    encodeLoop ret [x] = some (ret ++ encoded [x]) := by
  have hx := x.toNat_lt
  have hpack : packBytes 0 0 [x] = (1, pack 8 [x.toNat], []) := by
    rw [packBytes_cons (by decide)]
    rfl
  have hlt : pack 8 [x.toNat] * 2 ^ 16 < 2 ^ 24 := by
    simp only [pack, List.foldl_cons, List.foldl_nil]
    omega
  have hw : pack 8 [x.toNat] * 2 ^ 16 / 2 ^ (6 * 2) = pack 8 [x.toNat] * 2 ^ 4 := by omega
  have htake := take_unpack 6 2 2 (pack 8 [x.toNat] * 2 ^ 16)
  rw [hw] at htake
  rw [encodeLoop_step (p := 2) ret (by simp) hpack rfl (shiftUp_eq _ (by decide)) hlt,
    encodeLoop_nil, encoded_last (m := 2) (r := 4) rfl (by decide), List.append_assoc]
  exact congrArg (fun vs => some (ret ++ (vs.map symbol ++ List.replicate 2 eqSign))) htake

theorem encodeLoop_last2 (ret : List UInt8) (x y : UInt8) :
    encodeLoop ret [x, y] = some (ret ++ encoded [x, y]) := by
  have hx := x.toNat_lt
  have hy := y.toNat_lt
  have hpack : packBytes 0 0 [x, y] = (2, pack 8 [x.toNat, y.toNat], []) := by
    rw [packBytes_cons (by decide), packBytes_cons (by decide)]
    rfl
  have hlt : pack 8 [x.toNat, y.toNat] * 2 ^ 8 < 2 ^ 24 := by
    simp only [pack, List.foldl_cons, List.foldl_nil]
    omega
  have hw : pack 8 [x.toNat, y.toNat] * 2 ^ 8 / 2 ^ (6 * 1) = pack 8 [x.toNat, y.toNat] * 2 ^ 2 := by
    omega
  have htake := take_unpack 6 3 1 (pack 8 [x.toNat, y.toNat] * 2 ^ 8)
  rw [hw] at htake
  rw [encodeLoop_step (p := 1) ret (by simp) hpack rfl (shiftUp_eq _ (by decide)) hlt,
    encodeLoop_nil, encoded_last (m := 3) (r := 2) rfl (by decide), List.append_assoc]
  exact congrArg (fun vs => some (ret ++ (vs.map symbol ++ List.replicate 1 eqSign))) htake

/-- **The loop writes `encoded`.** -/
theorem encodeLoop_eq (ret x : List UInt8) : encodeLoop ret x = some (ret ++ encoded x) := by
  match x with
  | [] => rw [encodeLoop_nil, encoded_nil, List.append_nil]
  | [x] => exact encodeLoop_last1 ret x
  | [x, y] => exact encodeLoop_last2 ret x y
  | x :: y :: z :: xs =>
    rw [encodeLoop_group, encodeLoop_eq _ xs, encoded_group, List.append_assoc]

theorem base64encode_eq (x : List UInt8) : base64encode x = some (encoded x) := by
  rw [base64encode, encodeLoop_eq, List.nil_append]

end Base64
end CppCores
