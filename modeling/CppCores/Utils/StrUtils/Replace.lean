import CppCores.Lib.Substitution
import CppCores.Utils.StrUtils.Model

/-!
# The overloads of `replace`

The loop edits the string that it searches.  In front of `index` is what has been rewritten, from the
place where the search starts on is what is still as it was (`Reading`).

* `replaceTurn_spec`      one turn goes over one occurrence;
* `replaceStr_ends`       the loop ends with the substitution, if what it looks for is not empty;
* `replaceStr_never`      the empty string is found again and again: the loop does not end;
* `replaceStr_iff`        both in one;
* `replace_overloads`     **the overloads agree.**
-/

namespace CppCores
namespace StrUtils

variable {what done rest : Str} {s : Scan}

/-! ## one turn -/

theorem replaceTurn_ok (search : Str → ℕ → Option ℕ) (size : ℕ) (replaceWith : Str) {str : Str}
    {index : ℕ} (h : index + size ≤ str.length) :
    replaceTurn search size replaceWith ⟨str, some index⟩ =
      .ok (.again ⟨str.take index ++ replaceWith ++ str.drop (index + size),
        search (str.take index ++ replaceWith ++ str.drop (index + size))
          (index + replaceWith.length)⟩) := by
  have hhead : substr str 0 index = .ok (str.take index) := substr_ok (Nat.zero_le _) index
  rw [replaceTurn, hhead, substrFrom_ok h]
  rfl

/-- `done` has been rewritten, and the search for `what` goes on in `rest` -/
structure Reading (what done rest : Str) (s : Scan) : Prop where
  str : s.str = done ++ rest
  index : s.index = (find what rest 0).map (done.length + ·)

theorem reading_find (what done rest : Str) :
    Reading what done rest ⟨done ++ rest, find what (done ++ rest) done.length⟩ :=
  ⟨rfl, findFrom_append what done rest⟩

/-- **One turn goes over one occurrence.**  The part in front of it and what is put in are done. -/
theorem replaceTurn_spec (hwhat : what ≠ []) (replaceWith : Str) (h : Reading what done rest s) :
    replaceTurn (find what) what.length replaceWith s =
        .ok (.leave (done ++ substituted what replaceWith rest)) ∨
      ∃ a b s', rest = a ++ (what ++ b) ∧
        replaceTurn (find what) what.length replaceWith s = .ok (.again s') ∧
        Reading what (done ++ a ++ replaceWith) b s' ∧
        substituted what replaceWith rest =
          a ++ (replaceWith ++ substituted what replaceWith b) := by
  obtain ⟨str, index⟩ := s
  obtain ⟨hstr, hindex⟩ := h
  dsimp only at hstr hindex
  cases hf : find what rest 0 with
  | none =>
    rw [hf] at hindex
    refine .inl ?_
    rw [hindex, hstr, substituted_of_none (not_occurs_of_find hf)]
    rfl
  | some i =>
    rw [hf] at hindex
    obtain ⟨a, b, rfl, ha, hsub⟩ := substituted_of_find (w := replaceWith) hwhat hf
    have hpos : done.length + i = (done ++ a).length := by rw [List.length_append, ha]
    have hparts : done ++ (a ++ (what ++ b)) = (done ++ a) ++ (what ++ b) :=
      (List.append_assoc _ _ _).symm
    have hle : (done ++ a).length + what.length ≤ ((done ++ a) ++ (what ++ b)).length := by
      simp only [List.length_append]
      omega
    have hstr' : ((done ++ a) ++ (what ++ b)).take (done ++ a).length ++ replaceWith ++
        ((done ++ a) ++ (what ++ b)).drop ((done ++ a).length + what.length) =
        (done ++ a ++ replaceWith) ++ b := by
      rw [List.take_left, List.drop_length_add_append, List.drop_left]
    have hlen : (done ++ a).length + replaceWith.length = (done ++ a ++ replaceWith).length :=
      List.length_append.symm
    refine .inr ⟨a, b, _, rfl, ?_, reading_find what (done ++ a ++ replaceWith) b, hsub⟩
    rw [hindex, hstr, Option.map_some, hpos, hparts,
      replaceTurn_ok (find what) what.length replaceWith hle, hstr', hlen]

/-! ## the loop -/

/-- **The loop ends with the substitution.** -/
theorem replaceStr_ends (hwhat : what ≠ []) (replaceWith str : Str) :
    Ends (replaceTurn (find what) what.length replaceWith) ⟨str, find what str 0⟩
      (.ok (substituted what replaceWith str)) := by
  refine Ends.of_variant (n := str.length) (R := fun n s x => ∃ done rest,
    Reading what done rest s ∧ rest.length = n ∧ x = done ++ substituted what replaceWith rest)
    (fun n s x h => ?_) ⟨[], str, reading_find what [] str, rfl, rfl⟩
  obtain ⟨done, rest, hr, rfl, rfl⟩ := h
  rcases replaceTurn_spec hwhat replaceWith hr with hl | ⟨a, b, s', rfl, hb, hr', hs⟩
  · exact .inl hl
  · have hpos := List.length_pos_iff.mpr hwhat
    refine .inr ⟨b.length, s', ?_, hb, done ++ a ++ replaceWith, b, hr', rfl, ?_⟩
    · simp only [List.length_append]
      omega
    · rw [hs]
      simp only [List.append_assoc]

/-- **The empty string is found again behind what was put in**, whatever that is. -/
theorem replaceStr_never (str replaceWith : Str) (r : Except Exn Str) :
    ¬ Ends (replaceTurn (find []) 0 replaceWith) ⟨str, find [] str 0⟩ r := by
  refine not_ends (I := fun s => ∃ i, s.index = some i ∧ i ≤ s.str.length) (fun s hs => ?_)
    ⟨0, findFrom_nil (Nat.zero_le _), Nat.zero_le _⟩
  obtain ⟨str, index⟩ := s
  obtain ⟨i, rfl, hi⟩ := hs
  refine ⟨_, replaceTurn_ok (find []) 0 replaceWith hi, i + replaceWith.length, ?_, ?_⟩
  · refine findFrom_nil ?_
    simp only [List.length_append, List.length_take, List.length_drop]
    dsimp only at hi
    omega
  · simp only [List.length_append, List.length_take, List.length_drop]
    dsimp only at hi
    omega

/-- **`replace` ends, with the substitution, iff what it looks for is not empty.** -/
theorem replaceStr_iff (str what replaceWith : Str) :
    (∃ fuel r, replaceStr fuel str what replaceWith = some (.ok r) ∧
        (what ≠ [] → r = substituted what replaceWith str)) ↔ what ≠ [] := by
  constructor
  · intro h hwhat
    obtain ⟨fuel, r, hr, -⟩ := h
    subst hwhat
    exact replaceStr_never str replaceWith (.ok r) ⟨fuel, hr⟩
  · intro hwhat
    obtain ⟨fuel, hf⟩ := replaceStr_ends hwhat replaceWith str
    exact ⟨fuel, _, hf, fun _ => rfl⟩

/-- nothing is to be replaced in the empty string by nothing, and this does not end -/
theorem not_replaceStr : ¬ ∀ str what replaceWith : Str,
    ∃ fuel r, replaceStr fuel str what replaceWith = some (.ok r) ∧
      (what ≠ [] → r = substituted what replaceWith str) := by
  intro hall
  obtain ⟨fuel, r, hr, -⟩ := hall [] [] []
  exact replaceStr_never [] [] (.ok r) ⟨fuel, hr⟩

/-! ## the overloads -/

theorem findChar_eq (c : UInt8) : findChar c = find [c] :=
  funext fun str => funext fun pos => findElem_eq_findFrom c str pos

theorem replaceCharStr_eq (fuel : ℕ) (str : Str) (c : UInt8) (replaceWith : Str) :
    replaceCharStr fuel str c replaceWith = replaceStr fuel str [c] replaceWith := by
  unfold replaceCharStr replaceStr
  rw [findChar_eq]
  rfl

/-- a turn that writes one character is a turn that puts in a string of one character -/
theorem replaceCharTurn_eq {c d : UInt8} (h : ∃ pos, s.index = findChar c s.str pos) :
    replaceCharTurn c d s = replaceTurn (findChar c) 1 [d] s := by
  obtain ⟨str, index⟩ := s
  obtain ⟨pos, hpos⟩ := h
  cases index with
  | none => rfl
  | some index =>
    have hlt : index < str.length := findElem_lt hpos.symm
    have hset : str.set index d = str.take index ++ [d] ++ str.drop (index + 1) := by
      rw [List.set_eq_take_append_cons_drop, if_pos hlt, List.append_assoc, List.singleton_append]
    rw [replaceTurn_ok (findChar c) 1 [d] hlt, replaceCharTurn, hset]
    rfl

theorem replaceCharChar_eq (fuel : ℕ) (str : Str) (c d : UInt8) :
    replaceCharChar fuel str c d = replaceCharStr fuel str c [d] := by
  refine turns_congr (I := fun s => ∃ pos, s.index = findChar c s.str pos)
    (fun s hs => replaceCharTurn_eq hs) (fun s s' _ hb => ?_) fuel ⟨0, rfl⟩
  obtain ⟨str, index⟩ := s
  cases index with
  | none => cases hb
  | some index =>
    cases hb
    exact ⟨index + 1, rfl⟩

/-- **The overloads of `replace` agree**: they end, and replace every `c` and nothing else. -/
theorem replace_overloads (str : Str) (c d : UInt8) (replaceWith : Str) :
    (∃ fuel, replaceCharStr fuel str c replaceWith =
        some (.ok (str.flatMap fun x => if x = c then replaceWith else [x]))) ∧
      (∃ fuel, replaceStr fuel str [c] replaceWith =
        some (.ok (str.flatMap fun x => if x = c then replaceWith else [x]))) ∧
      (∃ fuel, replaceCharChar fuel str c d = some (.ok (str.map fun x => if x = c then d else x))) ∧
      ∀ fuel, replaceCharChar fuel str c d = replaceCharStr fuel str c [d] := by
  have hend : ∀ w : Str, ∃ fuel, replaceStr fuel str [c] w =
      some (.ok (str.flatMap fun x => if x = c then w else [x])) := by
    intro w
    obtain ⟨fuel, hf⟩ := replaceStr_ends (List.cons_ne_nil c []) w str
    rw [substituted_singleton] at hf
    exact ⟨fuel, hf⟩
  have hmap : (str.flatMap fun x => if x = c then [d] else [x]) =
      str.map fun x => if x = c then d else x := by
    rw [← List.flatMap_singleton' (str.map _), List.flatMap_map]
    refine congrArg (str.flatMap ·) (funext fun x => ?_)
    split <;> rfl
  refine ⟨?_, hend replaceWith, ?_, fun fuel => replaceCharChar_eq fuel str c d⟩
  · obtain ⟨fuel, hf⟩ := hend replaceWith
    rw [← replaceCharStr_eq] at hf
    exact ⟨fuel, hf⟩
  · obtain ⟨fuel, hf⟩ := hend [d]
    rw [hmap] at hf
    rw [← replaceCharStr_eq, ← replaceCharChar_eq] at hf
    exact ⟨fuel, hf⟩

end StrUtils
end CppCores
