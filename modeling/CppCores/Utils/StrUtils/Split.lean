import Mathlib.Algebra.Group.Nat.Defs
import CppCores.Utils.StrUtils.Model

/-!
# The overloads of `split`

* `splitTurn_spec`     one turn makes one cut, or ends the loop;
* `splitBy_eq`         **the result are the cuts**, one fewer than `max`.  As `--max` is compared with 1
                       behind the first cut, the limit 1 counts as `2 ^ 64 + 1`;
* `cuts_limit_iff`     so the number of pieces is right iff the limit is not 1 or there is no delimiter;
* `splitBy_default`    the default is no limit;
* `split_iff`          the same for both overloads, with all that is asked of the pieces.
-/

namespace CppCores
namespace StrUtils

variable {delim : UInt8 → Bool} {str done rest : Str} {result : List Str} {max : UInt64}

/-- how many cuts the loop makes at most -/
def limit (max : UInt64) : ℕ := (max - 2).toNat + 1

theorem limit_last (h : max - 1 = 1) : limit max = 1 := by
  have hmax : max = 2 := by
    have hadd := congrArg (· + 1) h
    simpa using hadd
  subst hmax
  rfl

theorem limit_next (h : max - 1 ≠ 1) : limit max = limit (max - 1) + 1 := by
  have hlt := max.toNat_lt
  have hne : (max - 1).toNat ≠ 1 := fun he => h (UInt64.toNat_inj.mp he)
  have h1 : (1 : UInt64).toNat = 1 := rfl
  have h2 : (2 : UInt64).toNat = 2 := rfl
  unfold limit
  rw [UInt64.toNat_sub, h1] at hne
  rw [UInt64.toNat_sub, UInt64.toNat_sub, UInt64.toNat_sub, h1, h2]
  omega

/-- `rest` is still to be cut -/
def cutting (delim : UInt8 → Bool) (result : List Str) (done rest : Str) (max : UInt64) : Split :=
  ⟨result, done.length, findElem delim (done ++ rest) done.length, max⟩

theorem splitRest_ok (result : List Str) (done rest : Str) :
    splitRest (done ++ rest) result done.length = .ok (.leave (result ++ [rest])) := by
  have hle : done.length ≤ (done ++ rest).length := by
    rw [List.length_append]
    omega
  rw [splitRest, substrFrom_ok hle, List.drop_left]
  rfl

theorem splitTurn_none (h : ∀ c ∈ rest, delim c = false) :
    splitTurn delim (done ++ rest) (cutting delim result done rest max) =
      .ok (.leave (result ++ [rest])) := by
  have hpos : findElem delim (done ++ rest) done.length = none := by
    rw [findElem_append, findElem_of_none h]
    rfl
  rw [cutting, hpos, splitTurn, splitRest_ok]

/-- **One turn makes one cut.**  The last one that the limit allows ends the loop. -/
theorem splitTurn_spec {a b : Str} {d : UInt8} (hd : delim d = true)
    (ha : ∀ c ∈ a, delim c = false) :
    splitTurn delim (done ++ (a ++ d :: b)) (cutting delim result done (a ++ d :: b) max) =
      .ok (if max - 1 = 1 then .leave (result ++ [a] ++ [b])
        else .again (cutting delim (result ++ [a]) (done ++ a ++ [d]) b (max - 1))) := by
  have hpos : findElem delim (done ++ (a ++ d :: b)) done.length = some (done.length + a.length) := by
    rw [findElem_append, findElem_cut hd ha]
    rfl
  have hpiece : substr (done ++ (a ++ d :: b)) done.length (done.length + a.length - done.length) =
      .ok a := by
    rw [substr_ok (by rw [List.length_append]; omega), List.drop_left, Nat.add_sub_cancel_left,
      List.take_left]
  have hparts : done ++ (a ++ d :: b) = (done ++ a ++ [d]) ++ b := by
    simp only [List.append_assoc, List.singleton_append]
  have hlast : done.length + a.length + 1 = (done ++ a ++ [d]).length := by
    simp only [List.length_append, List.length_singleton]
  rw [cutting, hpos, splitTurn, hpiece]
  show (if max - 1 = 1 then splitRest _ _ _ else _) = _
  rw [hparts, hlast]
  split
  · exact splitRest_ok _ _ _
  · rfl

/-- **The result are the cuts up to the limit.** -/
theorem splitBy_eq (delim : UInt8 → Bool) {str : Str} (hstr : str ≠ []) (max : UInt64) :
    ∃ fuel, splitBy fuel delim str max = some (.ok (cuts delim (limit max) str)) := by
  have hends : Ends (splitTurn delim str) (cutting delim [] [] str max)
      (.ok (cuts delim (limit max) str)) := by
    refine Ends.of_variant (n := str.length) (R := fun n s x => ∃ result done rest max,
      str = done ++ rest ∧ s = cutting delim result done rest max ∧ rest.length = n ∧
        x = result ++ cuts delim (limit max) rest)
      (fun n s x h => ?_) ⟨[], [], str, max, rfl, rfl, rfl, rfl⟩
    obtain ⟨result, done, rest, max, rfl, rfl, rfl, rfl⟩ := h
    rcases next_cut delim rest with hnone | ⟨a, d, b, rfl, hd, ha⟩
    · rw [cuts_of_none hnone]
      exact .inl (splitTurn_none hnone)
    · rw [splitTurn_spec hd ha]
      by_cases hmax : max - 1 = 1
      · rw [if_pos hmax, limit_last hmax, cuts_succ hd ha, List.append_assoc]
        exact .inl rfl
      · rw [if_neg hmax, limit_next hmax, cuts_succ hd ha]
        refine .inr ⟨b.length, _, ?_, rfl, result ++ [a], done ++ a ++ [d], b, max - 1, ?_, rfl, rfl,
          ?_⟩
        · rw [List.length_append, List.length_cons]
          omega
        · simp only [List.append_assoc, List.singleton_append]
        · rw [List.append_assoc, List.singleton_append]
  obtain ⟨fuel, hf⟩ := hends
  refine ⟨fuel, ?_⟩
  rw [splitBy, if_neg (by rwa [List.isEmpty_iff])]
  exact hf

theorem splitBy_det {fuel fuel' : ℕ} {r r' : Except Exn (List Str)}
    (h : splitBy fuel delim str max = some r) (h' : splitBy fuel' delim str max = some r') :
    r = r' := by
  unfold splitBy at h h'
  split at h
  · rename_i hempty
    rw [if_pos hempty] at h'
    exact Option.some.inj (h.symm.trans h')
  · rename_i hempty
    rw [if_neg hempty] at h'
    exact Ends.det ⟨fuel, h⟩ ⟨fuel', h'⟩

/-- **The limit is kept iff it is not 1 or there is nothing to cut at.** -/
theorem cuts_limit_iff (delim : UInt8 → Bool) (str : Str) (hmax : 1 ≤ max) :
    (cuts delim (limit max) str).length = min max.toNat (str.countP delim + 1) ↔
      max ≠ 1 ∨ str.countP delim = 0 := by
  have hpos : 1 ≤ max.toNat := UInt64.le_iff_toNat_le.mp hmax
  have hone : max = 1 ↔ max.toNat = 1 := UInt64.toNat_inj.symm
  have hlt := max.toNat_lt
  have hlimit : limit max = (2 ^ 64 - 2 + max.toNat) % 2 ^ 64 + 1 := by
    unfold limit
    rw [UInt64.toNat_sub]
    rfl
  rw [length_cuts, hlimit, ne_eq, hone]
  omega

/-- with the default limit a string is cut at every delimiter -/
theorem splitBy_default (delim : UInt8 → Bool) (hstr : str ≠ []) (h : str.length < 2 ^ 63) :
    ∃ fuel pieces, splitBy fuel delim str maxDefault = some (.ok pieces) ∧
      pieces.length = str.countP delim + 1 := by
  obtain ⟨fuel, hf⟩ := splitBy_eq delim hstr maxDefault
  have hlimit : limit maxDefault = 2 ^ 64 - 2 := rfl
  have hle := List.countP_le_length (p := delim) (l := str)
  refine ⟨fuel, _, hf, ?_⟩
  rw [length_cuts, hlimit, Nat.min_eq_right (by omega)]

/-! ## both overloads -/

/-- `split(str, delim, max)` gives at most `max` pieces, which are joined by `delim` to `str` -/
def SplitsAt (str : Str) (delim : UInt8) (max : UInt64) : Prop :=
  ∃ fuel pieces, splitChar fuel str delim max = some (.ok pieces) ∧
    pieces.length = min max.toNat (str.count delim + 1) ∧
    (∀ x ∈ pieces.dropLast, delim ∉ x) ∧ [delim].intercalate pieces = str

/-- the same for `split(str, delims, max)`, and the delimiters that are in `str` -/
def SplitsAtAny (str : Str) (delims : CStr) (max : UInt64) : Prop :=
  ∃ fuel pieces, splitDelims fuel str delims max = some (.ok pieces) ∧
    pieces.length = min max.toNat (str.countP (delims.chars.contains ·) + 1) ∧
    (∀ x ∈ pieces.dropLast, ∀ c ∈ x, c ∉ delims.chars) ∧
    joinWith pieces (str.filter (delims.chars.contains ·)) = str

theorem splitsAt_iff (hstr : str ≠ []) (delim : UInt8) (hmax : 1 ≤ max) :
    SplitsAt str delim max ↔ max ≠ 1 ∨ delim ∉ str := by
  obtain ⟨fuel, hf⟩ := splitBy_eq (· == delim) hstr max
  have hiff := cuts_limit_iff (· == delim) str hmax
  have hcount : str.countP (· == delim) = 0 ↔ delim ∉ str := List.count_eq_zero
  rw [hcount] at hiff
  constructor
  · intro h
    obtain ⟨fuel', pieces, hp, hlen, -⟩ := h
    cases splitBy_det hf hp
    exact hiff.mp hlen
  · intro h
    refine ⟨fuel, _, hf, hiff.mpr h, fun x hx hmem => ?_, intercalate_cuts delim (limit max) str⟩
    have hclean := cuts_clean (· == delim) (limit max) str x hx delim hmem
    exact absurd hclean (by simp)

theorem splitsAtAny_iff (hstr : str ≠ []) (delims : CStr) (hmax : 1 ≤ max) :
    SplitsAtAny str delims max ↔ max ≠ 1 ∨ ∀ c ∈ str, c ∉ delims.chars := by
  obtain ⟨fuel, hf⟩ := splitBy_eq (delims.chars.contains ·) hstr max
  have hiff := cuts_limit_iff (delims.chars.contains ·) str hmax
  have hcount : str.countP (delims.chars.contains ·) = 0 ↔ ∀ c ∈ str, c ∉ delims.chars := by
    simp only [List.countP_eq_zero, List.contains_iff_mem]
  rw [hcount] at hiff
  constructor
  · intro h
    obtain ⟨fuel', pieces, hp, hlen, -⟩ := h
    cases splitBy_det hf hp
    exact hiff.mp hlen
  · intro h
    refine ⟨fuel, _, hf, hiff.mpr h, fun x hx c hc hmem => ?_, joinWith_cuts _ (limit max) str⟩
    have hclean := cuts_clean (delims.chars.contains ·) (limit max) str x hx c hc
    exact Bool.eq_false_iff.mp hclean (List.contains_iff_mem.mpr hmem)

/-- **`split` does what is asked of it iff the limit is not 1 or there is no delimiter.** -/
theorem split_iff (str : Str) (delim : UInt8) (delims : CStr) (max : UInt64) (hstr : str ≠ [])
    (hmax : 1 ≤ max) :
    (SplitsAt str delim max ↔ max ≠ 1 ∨ delim ∉ str) ∧
      (SplitsAtAny str delims max ↔ max ≠ 1 ∨ ∀ c ∈ str, c ∉ delims.chars) :=
  ⟨splitsAt_iff hstr delim hmax, splitsAtAny_iff hstr delims hmax⟩

theorem split_a_b : SplitsAt [97, 44, 98] 44 2 ∧ SplitsAtAny [97, 44, 98] ⟨[44, 59], by simp⟩ 2 := by
  have h := split_iff [97, 44, 98] 44 ⟨[44, 59], by simp⟩ 2 (List.cons_ne_nil _ _) (by decide)
  exact ⟨h.1.mpr (.inl (by decide)), h.2.mpr (.inl (by decide))⟩

/-- the limit 1 cuts the string of one comma in two -/
theorem not_split : ¬ ∀ (str : Str) (delim : UInt8) (delims : CStr) (max : UInt64), str ≠ [] →
    1 ≤ max → SplitsAt str delim max ∧ SplitsAtAny str delims max := by
  intro hall
  have hstr : ([44] : Str) ≠ [] := List.cons_ne_nil _ _
  have hright := (hall [44] 44 ⟨[44], by simp⟩ 1 hstr (by decide)).1
  rcases (splitsAt_iff hstr 44 (by decide)).mp hright with h | h
  · exact h rfl
  · exact h List.mem_cons_self

end StrUtils
end CppCores
