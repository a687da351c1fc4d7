import CppCores.Lib.Numerals

/-!
# GenerateUUID: `utils/utils.h`

The text is written from 30 results of `dist` and one of `dist2`, in the order of the calls.

* `layout`             what stands at each of the 36 places;
* `generateUUID_eq`    the text is the layout with the results filled in;
* `generateUUID_spec`  **each text of that layout comes from one outcome of the calls, and no other text
                       from any.**
-/

namespace CppCores
namespace Uuid
open Numerals

/-! ## the code -/

/-- the results of the calls; `std::uniform_int_distribution<int>` keeps to its bounds -/
structure Draws where
  /-- of `dist`, by the number of its call -/
  dist : Fin 30 → Fin 16
  /-- of `dist2(8, 11)`, less 8 -/
  dist2 : Fin 4

/-- `"0123456789abcdef"[d]` -/
def hexDigit (d : ℕ) : UInt8 := UInt8.ofNat (if d < 10 then 48 + d else 87 + d)

/-- `ss << n` under `std::hex`, for an `n` that is not negative -/
def hexText (n : ℕ) : List UInt8 := (numeral 16 1 n).map hexDigit

/-- `for (i = 0; i < n; i++) ss << dist(DefaultGenerator);`, from the call number `k` on -/
def loop (d : Draws) : (n k : ℕ) → k + n ≤ 30 → List UInt8
  | 0, _, _ => []
  | n + 1, k, h => hexText (d.dist ⟨k, by omega⟩) ++ loop d n (k + 1) (by omega)

def GenerateUUID (d : Draws) : List UInt8 :=
  loop d 8 0 (by decide) ++
  [45] ++
  loop d 4 8 (by decide) ++
  [45, 52] ++
  loop d 3 12 (by decide) ++
  [45] ++
  hexText (d.dist2 + 8) ++
  loop d 3 15 (by decide) ++
  [45] ++
  loop d 12 18 (by decide)

/-! ## the layout -/

/-- what stands at a place -/
inductive Field where
  | lit (c : UInt8)
  /-- the result of a call of `dist` -/
  | hex (i : Fin 30)
  /-- the result of `dist2` -/
  | variant
  deriving DecidableEq

/-- where the result of a call stands -/
def place (i : Fin 30) : ℕ :=
  if i.val < 8 then i else if i.val < 12 then i + 1 else if i.val < 15 then i + 3
  else if i.val < 18 then i + 5 else i + 6

def layout : List Field :=
  [.hex 0, .hex 1, .hex 2, .hex 3, .hex 4, .hex 5, .hex 6, .hex 7, .lit 45,
    .hex 8, .hex 9, .hex 10, .hex 11, .lit 45, .lit 52, .hex 12, .hex 13, .hex 14, .lit 45,
    .variant, .hex 15, .hex 16, .hex 17, .lit 45,
    .hex 18, .hex 19, .hex 20, .hex 21, .hex 22, .hex 23, .hex 24, .hex 25, .hex 26, .hex 27,
    .hex 28, .hex 29]

/-- what the results make of a place -/
def Field.char (d : Draws) : Field → UInt8
  | .lit c => c
  | .hex i => hexDigit (d.dist i)
  | .variant => hexDigit (d.dist2 + 8)

/-- what may stand at a place: a small hexadecimal digit, and one of `89ab` for the variant -/
def Field.Allows : Field → UInt8 → Prop
  | .lit c, x => x = c
  | .hex _, x => ∃ n : Fin 16, x = hexDigit n
  | .variant, x => ∃ n : Fin 4, x = hexDigit (n + 8)

theorem hexText_eq {n : ℕ} (h : n < 16) : hexText n = [hexDigit n] := by
  have hnum : numeral 16 1 n = [n] := by
    by_cases h0 : n = 0
    · subst h0
      rfl
    · rw [numeral, Nat.digits_of_lt 16 n h0 h]
      rfl
  rw [hexText, hnum, List.map_singleton]

theorem loop_succ (d : Draws) (n k : ℕ) (h : k + (n + 1) ≤ 30) :
    loop d (n + 1) k h = hexDigit (d.dist ⟨k, by omega⟩) :: loop d n (k + 1) (by omega) := by
  rw [loop, hexText_eq (d.dist ⟨k, by omega⟩).isLt, List.singleton_append]

/-- **The text is the layout with the results filled in.** -/
theorem generateUUID_eq (d : Draws) : GenerateUUID d = layout.map (Field.char d) := by
  have hv : d.dist2.val + 8 < 16 := by omega
  have h0 : ∀ k h, loop d 0 k h = [] := fun _ _ => rfl
  simp only [GenerateUUID, loop_succ, h0, hexText_eq hv]
  rfl

/-! ## the texts -/

theorem hexDigit_inj {m n : ℕ} (hm : m < 16) (hn : n < 16) (h : hexDigit m = hexDigit n) : m = n := by
  have hall : ∀ m : Fin 16, ∀ n : Fin 16, hexDigit m = hexDigit n → m = n := by decide
  exact congrArg Fin.val (hall ⟨m, hm⟩ ⟨n, hn⟩ h)

/-- the result of a call stands where `place` says -/
theorem layout_place (i : Fin 30) : layout[place i]? = some (.hex i) := by
  revert i
  decide

theorem layout_variant : layout[19]? = some .variant := rfl

/-- and nowhere else -/
theorem layout_eq_hex {p : ℕ} {i : Fin 30} (h : layout[p]? = some (.hex i)) : p = place i := by
  have hp : p < 36 := (List.getElem?_eq_some_iff.mp h).1
  have hall : ∀ p : Fin 36, ∀ i : Fin 30, layout[p.val]? = some (.hex i) → p.val = place i := by decide
  exact hall ⟨p, hp⟩ i h

theorem layout_eq_variant {p : ℕ} (h : layout[p]? = some .variant) : p = 19 := by
  have hp : p < 36 := (List.getElem?_eq_some_iff.mp h).1
  have hall : ∀ p : Fin 36, layout[p.val]? = some .variant → p.val = 19 := by decide
  exact hall ⟨p, hp⟩ h

theorem char_allows (d : Draws) (fd : Field) : fd.Allows (fd.char d) := by
  cases fd with
  | lit c => rfl
  | hex i => exact ⟨d.dist i, rfl⟩
  | variant => exact ⟨d.dist2, rfl⟩

/-- the layout is kept -/
def Laid (s : List UInt8) : Prop := List.Forall₂ Field.Allows layout s

theorem laid_generateUUID (d : Draws) : Laid (GenerateUUID d) := by
  rw [generateUUID_eq, Laid, List.forall₂_map_right_iff, List.forall₂_same]
  exact fun fd _ => char_allows d fd

theorem generateUUID_inj {d e : Draws} (h : GenerateUUID d = GenerateUUID e) :
    d.dist = e.dist ∧ d.dist2 = e.dist2 := by
  rw [generateUUID_eq, generateUUID_eq] at h
  have hget : ∀ {p : ℕ} {fd : Field}, layout[p]? = some fd → fd.char d = fd.char e := by
    intro p fd hp
    have hp' := congrArg (fun l => l[p]?) h
    simp only [List.getElem?_map, hp, Option.map_some] at hp'
    exact Option.some.inj hp'
  constructor
  · funext i
    exact Fin.ext (hexDigit_inj (d.dist i).isLt (e.dist i).isLt (hget (layout_place i)))
  · have hv := hexDigit_inj (by omega) (by omega) (hget layout_variant)
    exact Fin.ext (Nat.add_right_cancel hv)

theorem Laid.at {s : List UInt8} (h : Laid s) {p : ℕ} {fd : Field} (hp : layout[p]? = some fd) :
    ∃ x, s[p]? = some x ∧ fd.Allows x := by
  obtain ⟨hlt, rfl⟩ := List.getElem?_eq_some_iff.mp hp
  have hlt' : p < s.length := h.length_eq ▸ hlt
  exact ⟨s.get ⟨p, hlt'⟩, List.getElem?_eq_getElem hlt', h.get hlt hlt'⟩

theorem exists_draws {s : List UInt8} (h : Laid s) : ∃ d, GenerateUUID d = s := by
  have hdist : ∀ i : Fin 30, ∃ n : Fin 16, s[place i]? = some (hexDigit n) := by
    intro i
    obtain ⟨x, hx, n, rfl⟩ := h.at (layout_place i)
    exact ⟨n, hx⟩
  choose dist hdist using hdist
  obtain ⟨v, hv, dist2, rfl⟩ := h.at layout_variant
  refine ⟨⟨dist, dist2⟩, ?_⟩
  rw [generateUUID_eq]
  apply List.ext_getElem?
  intro p
  rw [List.getElem?_map]
  cases hp : layout[p]? with
  | none =>
    have hlen : s.length ≤ p := h.length_eq ▸ List.getElem?_eq_none_iff.mp hp
    exact (List.getElem?_eq_none hlen).symm
  | some fd =>
    obtain ⟨x, hx, hallows⟩ := h.at hp
    rw [hx]
    cases fd with
    | lit c => exact congrArg some hallows.symm
    | hex i =>
      rw [layout_eq_hex hp, hdist i] at hx
      exact hx
    | variant =>
      rw [layout_eq_variant hp, hv] at hx
      exact hx

/-- **Each text of the layout comes from one outcome of the calls, and no other text from any.** -/
theorem generateUUID_spec (s : List UInt8) :
    (Laid s ↔ ∃ d, GenerateUUID d = s) ∧
      ∀ d e, GenerateUUID d = s → GenerateUUID e = s → d.dist = e.dist ∧ d.dist2 = e.dist2 := by
  refine ⟨⟨exists_draws, ?_⟩, fun d e hd he => generateUUID_inj (hd.trans he.symm)⟩
  rintro ⟨d, rfl⟩
  exact laid_generateUUID d

end Uuid
end CppCores
