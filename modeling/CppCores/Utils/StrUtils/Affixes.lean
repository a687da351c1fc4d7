import CppCores.Utils.StrUtils.Model

/-!
# Prefixes and suffixes

* `startWithPrefix_iff`   `find_first_of` looks for one of the characters: `StartWithPrefix` says whether
                          the first character of the string is one of the prefix;
* `prefix_iff`            **this is right iff the prefix is not empty, and is one or has not got the first
                          character of the string**;
* `suffix_spec`           **`EndWithSuffix` and `RemoveSuffix` are right**: a suffix is the last occurrence.
-/

namespace CppCores
namespace StrUtils

variable {str pre suffix : Str}

/-! ## prefixes -/

theorem findFirstOf_zero : findFirstOf pre str 0 = some 0 ↔ ∃ c, str.head? = some c ∧ c ∈ pre := by
  have hlow := lowest_findElem (pre.contains ·) str 0
  rw [List.head?_eq_getElem?]
  constructor
  · intro h
    rw [show findElem (pre.contains ·) str 0 = some 0 from h] at hlow
    obtain ⟨-, c, hc, hmem⟩ := hlow.1
    exact ⟨c, hc, List.contains_iff_mem.mp hmem⟩
  · intro h
    obtain ⟨c, hc, hmem⟩ := h
    refine hlow.unique (k := some 0) ⟨⟨Nat.le_refl 0, c, hc, ?_⟩, fun j _ => Nat.zero_le j⟩
    exact List.contains_iff_mem.mpr hmem

theorem startWithPrefix_iff :
    startWithPrefix str pre = true ↔ ∃ c, str.head? = some c ∧ c ∈ pre := by
  rw [startWithPrefix, beq_iff_eq, findFirstOf_zero]

theorem head_of_append (hpre : pre ≠ []) (t : Str) : ∃ c, (pre ++ t).head? = some c ∧ c ∈ pre := by
  cases pre with
  | nil => exact absurd rfl hpre
  | cons c pre => exact ⟨c, rfl, List.mem_cons_self⟩

theorem removePrefix_found (h : ∃ c, str.head? = some c ∧ c ∈ pre) :
    removePrefix str pre = substrFrom str pre.length :=
  if_pos (findFirstOf_zero.mpr h)

theorem removePrefix_other (h : ¬ ∃ c, str.head? = some c ∧ c ∈ pre) :
    removePrefix str pre = .ok str :=
  if_neg fun hf => h (findFirstOf_zero.mp hf)

/-- what is asked of `StartWithPrefix` and `RemovePrefix` -/
def PrefixRight (str pre : Str) : Prop :=
  (startWithPrefix str pre = true ↔ ∃ t, str = pre ++ t) ∧
    ∃ r, removePrefix str pre = .ok r ∧ (∀ t, str = pre ++ t → r = t) ∧
      ((¬ ∃ t, str = pre ++ t) → r = str)

theorem prefixRight_append (hpre : pre ≠ []) (t : Str) : PrefixRight (pre ++ t) pre := by
  have hhead := head_of_append hpre t
  have hle : pre.length ≤ (pre ++ t).length := by
    rw [List.length_append]
    omega
  refine ⟨iff_of_true (startWithPrefix_iff.mpr hhead) ⟨t, rfl⟩, t, ?_, ?_, ?_⟩
  · rw [removePrefix_found hhead, substrFrom_ok hle, List.drop_left]
  · intro t' ht
    exact List.append_cancel_left ht
  · intro hno
    exact absurd ⟨t, rfl⟩ hno

theorem prefixRight_of_head (hpre : pre ≠ []) (h : ∀ c, str.head? = some c → c ∉ pre) :
    PrefixRight str pre := by
  have hnot : ¬ ∃ c, str.head? = some c ∧ c ∈ pre := fun hc => hc.elim fun c hc => h c hc.1 hc.2
  have hno : ¬ ∃ t, str = pre ++ t := by
    intro ht
    obtain ⟨t, rfl⟩ := ht
    exact hnot (head_of_append hpre t)
  refine ⟨iff_of_false (fun hs => hnot (startWithPrefix_iff.mp hs)) hno, str,
    removePrefix_other hnot, fun t ht => absurd ⟨t, ht⟩ hno, fun _ => rfl⟩

/-- **Both are right iff the prefix is not empty, and is a prefix or has not got the first character
of the string.** -/
theorem prefix_iff (str pre : Str) :
    PrefixRight str pre ↔ pre ≠ [] ∧ (pre <+: str ∨ ∀ c, str.head? = some c → c ∉ pre) := by
  constructor
  · intro h
    obtain ⟨hstart, -⟩ := h
    rw [startWithPrefix_iff] at hstart
    constructor
    · intro hpre
      subst hpre
      obtain ⟨c, -, hc⟩ := hstart.mpr ⟨str, rfl⟩
      exact absurd hc List.not_mem_nil
    · by_cases hc : ∃ c, str.head? = some c ∧ c ∈ pre
      · obtain ⟨t, ht⟩ := hstart.mp hc
        exact .inl ⟨t, ht.symm⟩
      · exact .inr fun c hhead hmem => hc ⟨c, hhead, hmem⟩
  · intro h
    obtain ⟨hpre, ⟨t, rfl⟩ | hhead⟩ := h
    · exact prefixRight_append hpre t
    · exact prefixRight_of_head hpre hhead

/-- `"ab"` starts with one of the characters of `"ba"` -/
theorem not_prefixRight : ¬ ∀ str pre : Str, PrefixRight str pre := by
  intro hall
  obtain ⟨t, ht⟩ := (hall [97, 98] [98, 97]).1.mp (by decide)
  exact absurd (List.cons.inj ht).1 (by decide)

/-! ## suffixes -/

theorem endWithSuffix_iff : endWithSuffix str suffix = true ↔ suffix <:+ str := by
  unfold endWithSuffix
  split
  · rename_i hlt
    refine iff_of_false (by decide) fun hs => ?_
    have hle := hs.length_le
    omega
  · rename_i hle
    rw [← findLast_eq_iff (Nat.not_lt.mp hle), Bool.and_eq_true, beq_iff_eq]
    constructor
    · intro h
      exact h.2
    · intro h
      refine ⟨?_, h⟩
      rw [show rfind suffix str = _ from h]
      rfl

theorem removeSuffix_suffix (t suffix : Str) : removeSuffix (t ++ suffix) suffix = .ok t := by
  have hle : ¬ suffix.length > (t ++ suffix).length := by
    rw [List.length_append]
    omega
  have hpos : rfind suffix (t ++ suffix) = some ((t ++ suffix).length - suffix.length) :=
    (findLast_eq_iff (Nat.not_lt.mp hle)).mpr (List.suffix_append t suffix)
  rw [removeSuffix, if_neg hle, hpos]
  dsimp only
  rw [if_pos rfl, substr_ok (Nat.zero_le _), List.drop_zero, List.length_append,
    Nat.add_sub_cancel, List.take_left]

theorem removeSuffix_other (h : ¬ suffix <:+ str) : removeSuffix str suffix = .ok str := by
  unfold removeSuffix
  split
  · rfl
  · rename_i hle
    split
    · rfl
    · rename_i pos hpos
      refine if_neg fun he => h ?_
      rw [← findLast_eq_iff (Nat.not_lt.mp hle), ← he]
      exact hpos

/-- **`EndWithSuffix` and `RemoveSuffix` are right.** -/
theorem suffix_spec (str suffix : Str) :
    (endWithSuffix str suffix = true ↔ ∃ t, str = t ++ suffix) ∧
      (∀ t, str = t ++ suffix → removeSuffix str suffix = .ok t) ∧
      ((¬ ∃ t, str = t ++ suffix) → removeSuffix str suffix = .ok str) := by
  have hsuffix : suffix <:+ str ↔ ∃ t, str = t ++ suffix :=
    ⟨fun h => h.imp fun t ht => ht.symm, fun h => h.imp fun t ht => ht.symm⟩
  refine ⟨endWithSuffix_iff.trans hsuffix, ?_, ?_⟩
  · intro t ht
    rw [ht]
    exact removeSuffix_suffix t suffix
  · intro hno
    exact removeSuffix_other fun hs => hno (hsuffix.mp hs)

end StrUtils
end CppCores
