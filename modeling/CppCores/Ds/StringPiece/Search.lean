import CppCores.Ds.StringPiece.Model

/-!
# Searching in a StringPiece

`position r` is what a result stands for: nothing if it is `npos`.

* `find_lowest`, `rfind_highest`   the least occurrence from `pos` on, and the greatest one up to `pos`;
* `downFrom_position`, `upFrom_position`   the loops over the characters;
* `findChar_eq`, `rfindChar_eq`    a character is found as the piece of this character is;
* `searches_spec`                  **all of them.**
-/

namespace CppCores
namespace StringPiece

variable {self s : StringPiece} {c : UInt8} {pos : UInt64}

/-- what a result stands for -/
def position (r : UInt64) : Option ℕ := if r = npos then none else some r.toNat

theorem position_some {r : UInt64} {i : ℕ} (hr : r.toNat = i) (hi : i < 2 ^ 63) :
    position r = some i := by
  have hne : r ≠ npos := by
    intro he
    rw [he] at hr
    have hnpos : npos.toNat = 2 ^ 64 - 1 := rfl
    omega
  rw [position, if_neg hne, hr]

theorem position_ofNat {i : ℕ} (hi : i < 2 ^ 63) : position (UInt64.ofNat i) = some i :=
  position_some (UInt64.toNat_ofNat_of_lt' (by show i < 2 ^ 64; omega)) hi

theorem position_inj {r r' : UInt64} (h : position r = position r') : r = r' := by
  unfold position at h
  split at h
  · rename_i hr
    split at h
    · rename_i hr'
      rw [hr, hr']
    · cases h
  · split at h
    · cases h
    · exact UInt64.toNat_inj.mp (Option.some.inj h)

/-! ## pieces -/

/-- an occurrence from `pos` on -/
def From (self s : StringPiece) (pos : UInt64) (i : ℕ) : Prop :=
  pos.toNat ≤ i ∧ Occurs s.bytes self.bytes i

/-- an occurrence up to `pos` -/
def UpTo (self s : StringPiece) (pos : UInt64) (i : ℕ) : Prop :=
  i ≤ pos.toNat ∧ Occurs s.bytes self.bytes i

theorem toNat_add_size (i : ℕ) (hi : i < 2 ^ 63) (s : StringPiece) :
    (UInt64.ofNat i + s.size).toNat = i + s.bytes.length := by
  have hs := s.length_lt
  rw [UInt64.toNat_add, size_toNat, UInt64.toNat_ofNat_of_lt' (by show i < 2 ^ 64; omega)]
  omega

/-- **`find` is the least occurrence from `pos` on.** -/
theorem find_lowest (self s : StringPiece) (pos : UInt64) :
    Lowest (From self s pos) (position (find self s pos)) := by
  have hself := self.length_lt
  have hlow := lowest_findFrom s.bytes self.bytes pos.toNat
  unfold find
  split
  · rename_i hgt
    have hlt : self.bytes.length < pos.toNat := by
      rw [← size_toNat]
      exact UInt64.lt_iff_toNat_lt.mp hgt
    intro i hi
    have h1 := hi.1
    have h2 := hi.2.1
    omega
  · rename_i hle
    have hle : pos.toNat ≤ self.bytes.length := by
      rw [← size_toNat]
      exact UInt64.le_iff_toNat_le.mp (UInt64.not_lt.mp hle)
    dsimp only
    unfold stdSearch
    cases hf : findFrom s.bytes self.bytes pos.toNat with
    | none =>
      rw [hf] at hlow
      -- the empty piece would have been found
      have hs : s.bytes ≠ [] := by
        intro hs
        rw [hs, findFrom_nil hle] at hf
        cases hf
      have hpos := List.length_pos_iff.mpr hs
      have hend : ¬ UInt64.ofNat self.bytes.length + s.size ≤ self.size := by
        rw [UInt64.le_iff_toNat_le, toNat_add_size _ hself, size_toNat]
        omega
      rw [Option.getD_none, if_neg hend]
      exact hlow
    | some i =>
      rw [hf] at hlow
      have hin : i + s.bytes.length ≤ self.bytes.length := hlow.1.2.1
      have hi : i < 2 ^ 63 := by omega
      have hend : UInt64.ofNat i + s.size ≤ self.size := by
        rw [UInt64.le_iff_toNat_le, toNat_add_size _ hi, size_toNat]
        exact hin
      rw [Option.getD_some, if_pos hend, position_ofNat hi]
      exact hlow

/-- the last occurrence in front of where an occurrence at `m` ends -/
theorem findLast_take (data what : List UInt8) {m : ℕ} (h : m + what.length ≤ data.length) :
    Highest (fun i => i ≤ m ∧ Occurs what data i)
      (findLast what (data.take (m + what.length))) := by
  refine Highest.congr (fun i => ?_) (highest_findLast what (data.take (m + what.length)))
  rw [occurs_take h, Nat.add_le_add_iff_right]

theorem empty_of_size (hzero : self.size = 0) : self.bytes = [] := by
  have hsize := size_toNat self
  rw [hzero] at hsize
  exact List.eq_nil_of_length_eq_zero hsize.symm

theorem min_highest (self : StringPiece) (pos : UInt64) :
    Highest (fun i => i ≤ pos.toNat ∧ i ≤ self.bytes.length) (position (min self.size pos)) := by
  have hself := self.length_lt
  have hmin : (min self.size pos).toNat = min self.bytes.length pos.toNat := by
    rw [toNat_min, size_toNat]
  rw [position_some hmin (by omega)]
  exact ⟨⟨Nat.min_le_right _ _, Nat.min_le_left _ _⟩, fun i hi => Nat.le_min.mpr ⟨hi.2, hi.1⟩⟩

/-- where the last occurrence that `rfind` looks for ends -/
theorem last_toNat (hle : s.size ≤ self.size) (pos : UInt64) :
    (min (self.size - s.size) pos + s.size).toNat =
      min (self.bytes.length - s.bytes.length) pos.toNat + s.bytes.length := by
  have hself := self.length_lt
  have hlen := UInt64.le_iff_toNat_le.mp hle
  rw [size_toNat, size_toNat] at hlen
  rw [UInt64.toNat_add, toNat_min, UInt64.toNat_sub_of_le _ _ hle, size_toNat, size_toNat]
  omega

/-- **`rfind` is the greatest occurrence up to `pos`.** -/
theorem rfind_highest (self s : StringPiece) (pos : UInt64) :
    Highest (UpTo self s pos) (position (rfind self s pos)) := by
  have hself := self.length_lt
  unfold rfind
  split
  · rename_i hlt
    have hlt := UInt64.lt_iff_toNat_lt.mp hlt
    rw [size_toNat, size_toNat] at hlt
    intro i hi
    have hin := hi.2.1
    omega
  · rename_i hle
    have hle := UInt64.not_lt.mp hle
    split
    · rename_i hzero
      refine Highest.congr (fun i => ?_) (min_highest self pos)
      unfold UpTo
      rw [empty_of_size hzero, occurs_nil]
    · rename_i hzero
      have hpos : 0 < s.bytes.length := by
        rw [← size_toNat]
        exact Nat.pos_of_ne_zero fun h => hzero (UInt64.toNat_inj.mp h)
      have hlen := UInt64.le_iff_toNat_le.mp hle
      rw [size_toNat, size_toNat] at hlen
      obtain ⟨m, hm⟩ : ∃ m, m = min (self.bytes.length - s.bytes.length) pos.toNat := ⟨_, rfl⟩
      have hhigh := findLast_take self.bytes s.bytes (m := m) (by omega)
      -- an occurrence ends inside of the piece
      have hupto : ∀ i, i ≤ m ∧ Occurs s.bytes self.bytes i ↔ UpTo self s pos i := by
        intro i
        refine and_congr_left fun ho => ?_
        have hin := ho.1
        omega
      rw [last_toNat hle, ← hm]
      dsimp only
      unfold stdFindEnd
      cases hf : findLast s.bytes (self.bytes.take (m + s.bytes.length)) with
      | none =>
        rw [hf] at hhigh
        rw [Option.getD_none, if_neg fun hne => hne rfl]
        exact Highest.congr hupto hhigh
      | some i =>
        rw [hf] at hhigh
        have him : i ≤ m := hhigh.1.1
        rw [Option.getD_some, if_pos (by omega), position_ofNat (by omega)]
        exact Highest.congr hupto hhigh

/-! ## characters -/

/-- **The loop downwards finds the greatest index up to `i`.** -/
theorem downFrom_position (p : UInt8 → Bool) {data : List UInt8} (h : data.length < 2 ^ 63)
    (i : ℕ) : position (downFrom p data i) = greatestBelow (fun j => data[j]?.any p) (i + 1) := by
  have hlt : ∀ j, data[j]?.any p = true → j < data.length := by
    intro j hj
    obtain ⟨d, hd, -⟩ := (Option.any_eq_true _ _).mp hj
    exact (List.getElem?_eq_some_iff.mp hd).1
  induction i with
  | zero =>
    rw [downFrom, greatestBelow]
    split
    · rfl
    · rfl
  | succ i ih =>
    rw [downFrom, greatestBelow]
    split
    · rename_i hp
      have hi := hlt (i + 1) hp
      exact position_ofNat (by omega)
    · exact ih

/-- **The loop upwards finds the least index from `pos` on.** -/
theorem upFrom_position (p : UInt8 → Bool) {data : List UInt8} (h : data.length < 2 ^ 63)
    (pos : ℕ) : position (upFrom p data pos) = findElem p data pos := by
  refine Lowest.unique ?_ (lowest_findElem p data pos)
  induction pos using upFrom.induct p data with
  | case1 pos hlt hp =>
    rw [upFrom, dif_pos hlt, if_pos hp, position_ofNat (by omega)]
    exact ⟨⟨Nat.le_refl pos, _, List.getElem?_eq_getElem hlt, hp⟩, fun j hj => hj.1⟩
  | case2 pos hlt hp ih =>
    rw [upFrom, dif_pos hlt, if_neg hp]
    refine Lowest.congr (fun j => ?_) ih
    refine and_congr_left fun hj => ?_
    obtain ⟨d, hd, hpd⟩ := hj
    have hne : j ≠ pos := by
      rintro rfl
      rw [List.getElem?_eq_getElem hlt] at hd
      cases hd
      exact hp hpd
    omega
  | case3 pos hge =>
    rw [upFrom, dif_neg hge]
    intro j hj
    obtain ⟨hle, d, hd, -⟩ := hj
    exact hge (Nat.lt_of_le_of_lt hle (List.getElem?_eq_some_iff.mp hd).1)

theorem down_highest (p : UInt8 → Bool) (hzero : self.size ≠ 0) (pos : UInt64) :
    Highest (fun i => i ≤ pos.toNat ∧ ∃ d, self.bytes[i]? = some d ∧ p d = true)
      (position (downFrom p self.bytes (min pos (self.size - 1)).toNat)) := by
  have hsize := size_toNat self
  have hpos : 0 < self.size.toNat := Nat.pos_of_ne_zero fun h => hzero (UInt64.toNat_inj.mp h)
  have hmin : (min pos (self.size - 1)).toNat = min pos.toNat (self.bytes.length - 1) := by
    have hone : (1 : UInt64).toNat = 1 := rfl
    have hle : 1 ≤ self.size := by
      rw [UInt64.le_iff_toNat_le, hone]
      exact hpos
    rw [toNat_min, UInt64.toNat_sub_of_le _ _ hle, hone, hsize]
  rw [downFrom_position p self.length_lt, hmin]
  refine Highest.congr (fun i => ?_) (highest_greatestBelow _ _)
  rw [Option.any_eq_true]
  refine and_congr_left fun hd => ?_
  obtain ⟨d, hd, -⟩ := hd
  have hlt := (List.getElem?_eq_some_iff.mp hd).1
  omega

theorem occurs_single {i : ℕ} :
    Occurs (single c).bytes self.bytes i ↔ ∃ d, self.bytes[i]? = some d ∧ (d == c) = true := by
  rw [show (single c).bytes = [c] from rfl, occurs_singleton]
  constructor
  · intro h
    exact ⟨c, h, beq_self_eq_true c⟩
  · intro h
    obtain ⟨d, hd, hc⟩ := h
    exact hd.trans (congrArg some (eq_of_beq hc))

/-- **A character is found as the piece of this character is.** -/
theorem findChar_eq (self : StringPiece) (c : UInt8) (pos : UInt64) :
    findChar self c pos = find self (single c) pos := by
  have hlen := self.length_lt
  have hlow := lowest_findElem (· == c) self.bytes pos.toNat
  have hfind := find_lowest self (single c) pos
  refine position_inj (Lowest.unique ?_ hfind)
  refine Lowest.congr (fun i => and_congr_right' occurs_single.symm) ?_
  unfold findChar
  split
  · rename_i hge
    have hge : self.bytes.length ≤ pos.toNat := by
      rw [← size_toNat]
      exact UInt64.le_iff_toNat_le.mp hge
    intro i hi
    obtain ⟨hle, d, hd, -⟩ := hi
    have hlt := (List.getElem?_eq_some_iff.mp hd).1
    omega
  · dsimp only
    unfold stdFind
    cases hf : findElem (· == c) self.bytes pos.toNat with
    | none =>
      rw [hf] at hlow
      rw [Option.getD_none, if_neg fun hne => hne rfl]
      exact hlow
    | some i =>
      rw [hf] at hlow
      have hlt := findElem_lt hf
      rw [Option.getD_some, if_pos (by omega), position_ofNat (by omega)]
      exact hlow

theorem rfindChar_eq (self : StringPiece) (c : UInt8) (pos : UInt64) :
    rfindChar self c pos = rfind self (single c) pos := by
  have hhigh := rfind_highest self (single c) pos
  refine position_inj (Highest.unique ?_ hhigh)
  refine Highest.congr (fun i => and_congr_right' occurs_single.symm) ?_
  unfold rfindChar
  split
  · rename_i hzero
    rw [empty_of_size hzero]
    rintro i ⟨-, d, hd, -⟩
    cases hd
  · rename_i hzero
    exact down_highest (· == c) hzero pos

theorem findFirstNotOf_lowest (self : StringPiece) (c : UInt8) (pos : UInt64) :
    Lowest (fun i => pos.toNat ≤ i ∧ ∃ d, self.bytes[i]? = some d ∧ d ≠ c)
      (position (findFirstNotOf self c pos)) := by
  unfold findFirstNotOf
  split
  · rename_i hzero
    rw [empty_of_size hzero]
    rintro i ⟨-, d, hd, -⟩
    cases hd
  · rw [upFrom_position _ self.length_lt]
    refine Lowest.congr (fun i => ?_) (lowest_findElem (· != c) self.bytes pos.toNat)
    simp only [bne_iff_ne]

theorem findLastNotOf_highest (self : StringPiece) (c : UInt8) (pos : UInt64) :
    Highest (fun i => i ≤ pos.toNat ∧ ∃ d, self.bytes[i]? = some d ∧ d ≠ c)
      (position (findLastNotOf self c pos)) := by
  unfold findLastNotOf
  split
  · rename_i hzero
    rw [empty_of_size hzero]
    rintro i ⟨-, d, hd, -⟩
    cases hd
  · rename_i hzero
    refine Highest.congr (fun i => ?_) (down_highest (· != c) hzero pos)
    simp only [bne_iff_ne]

/-- **Every search finds what it should.** -/
theorem searches_spec (self s : StringPiece) (c : UInt8) (pos : UInt64) :
    Lowest (From self s pos) (position (find self s pos)) ∧
      Highest (UpTo self s pos) (position (rfind self s pos)) ∧
      findChar self c pos = find self (single c) pos ∧
      rfindChar self c pos = rfind self (single c) pos ∧
      Lowest (fun i => pos.toNat ≤ i ∧ ∃ d, self.bytes[i]? = some d ∧ d ≠ c)
        (position (findFirstNotOf self c pos)) ∧
      Highest (fun i => i ≤ pos.toNat ∧ ∃ d, self.bytes[i]? = some d ∧ d ≠ c)
        (position (findLastNotOf self c pos)) :=
  ⟨find_lowest self s pos, rfind_highest self s pos, findChar_eq self c pos,
    rfindChar_eq self c pos, findFirstNotOf_lowest self c pos, findLastNotOf_highest self c pos⟩

end StringPiece
end CppCores
