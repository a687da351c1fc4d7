import Mathlib.Data.List.TakeWhile
import Mathlib.Data.Int.Notation
import Mathlib.Algebra.Group.Int.Defs
import Mathlib.Tactic.Common

/-!
# Integers in texts

A text is a list of bytes.  `scan` reads a sign and digits from its start, as C's `strtol` and the
integer extraction of a C++ stream do behind blanks; `Written s n` says that `s` is a sign and digits
of `n`, and nothing else.

* `cut_append`     what has a property up to a point is taken up to there;
* `Written.scan_append`, `scan_written`   the scan of a text that starts with an integer gives the integer
                   and the rest, and nothing else is scanned;
* `leading_iff`    **what is read behind blanks is the integer that the text starts with there.**
-/

namespace CppCores

/-! ## a text up to a point -/

section
variable {α : Type*} {p : α → Bool} {xs rest : List α}

/-- `rest` does not go on with what has the property -/
def Stops (p : α → Bool) (rest : List α) : Prop := ∀ x ∈ rest.head?, p x = false

theorem Stops.nil : Stops p [] := nofun

theorem Stops.cons {x : α} (h : p x = false) (xs : List α) : Stops p (x :: xs) := by
  intro y hy
  obtain rfl := Option.some.inj hy
  exact h

theorem Stops.of_forall (h : ∀ x ∈ rest, p x = false) : Stops p rest := fun x hx =>
  h x (List.mem_of_mem_head? hx)

theorem Stops.append (hne : xs ≠ []) (h : Stops p xs) : Stops p (xs ++ rest) := by
  cases xs with
  | nil => exact absurd rfl hne
  | cons x xs => exact .cons (h x rfl) _

theorem Stops.takeWhile (h : Stops p rest) : rest.takeWhile p = [] := by
  cases rest with
  | nil => rfl
  | cons x xs => rw [List.takeWhile_cons, h x rfl, if_neg Bool.false_ne_true]

theorem Stops.dropWhile (h : Stops p rest) : rest.dropWhile p = rest := by
  cases rest with
  | nil => rfl
  | cons x xs => rw [List.dropWhile_cons, h x rfl, if_neg Bool.false_ne_true]

theorem Stops.of_dropWhile (l : List α) : Stops p (l.dropWhile p) := by
  induction l with
  | nil => exact .nil
  | cons x l ih =>
    rw [List.dropWhile_cons]
    split
    · exact ih
    · rename_i hx
      exact .cons (Bool.not_eq_true _ |>.mp hx) l

/-- **What has the property up to a point is taken up to there.** -/
theorem cut_append (hxs : ∀ x ∈ xs, p x = true) (h : Stops p rest) :
    (xs ++ rest).takeWhile p = xs ∧ (xs ++ rest).dropWhile p = rest := by
  rw [List.takeWhile_append_of_pos hxs, List.dropWhile_append_of_pos hxs, h.takeWhile, h.dropWhile,
    List.append_nil]
  exact ⟨rfl, rfl⟩

end

namespace Decimal

/-! ## bytes -/

/-- `isspace` in the C locale -/
def blank (c : UInt8) : Bool := c == 32 || 9 ≤ c && c ≤ 13

/-- `isdigit` -/
def digit (c : UInt8) : Bool := 48 ≤ c && c ≤ 57

theorem blank_of_digit {c : UInt8} (h : digit c = true) : blank c = false := by
  simp only [digit, Bool.and_eq_true, decide_eq_true_eq, UInt8.le_iff_toNat_le] at h
  have h1 : (48 : UInt8).toNat = 48 := rfl
  have h2 : (13 : UInt8).toNat = 13 := rfl
  have hne : c ≠ 32 := by
    rintro rfl
    exact absurd h.1 (by decide)
  have hgt : ¬ c ≤ 13 := by
    rw [UInt8.le_iff_toNat_le]
    omega
  rw [blank, beq_eq_false_iff_ne.mpr hne, decide_eq_false hgt, Bool.and_false, Bool.or_false]

theorem digit_of_blank {c : UInt8} (h : blank c = true) : digit c = false := by
  by_contra hd
  rw [blank_of_digit (Bool.not_eq_false _ |>.mp hd)] at h
  exact Bool.false_ne_true h

/-! ## the scan -/

/-- the sign, and the text behind it -/
def signOf : List UInt8 → Bool × List UInt8
  | 45 :: s => (true, s)
  | 43 :: s => (false, s)
  | s => (false, s)

/-- the number that digits stand for -/
def value (ds : List UInt8) : ℕ := ds.foldl (fun n c => 10 * n + (c.toNat - 48)) 0

/-- with its sign -/
def signed (neg : Bool) (n : ℕ) : ℤ := if neg then -n else n

/-- the integer at the start of a text, and the rest -/
def scan (s : List UInt8) : Option (ℤ × List UInt8) :=
  let ds := (signOf s).2.takeWhile digit
  if ds = [] then none
  else some (signed (signOf s).1 (value ds), (signOf s).2.dropWhile digit)

/-- the integer behind the blanks at the start of a text -/
def leading (s : List UInt8) : Option ℤ := (scan (s.dropWhile blank)).map Prod.fst

/-! ## integers -/

/-- `s` is a sign, or none, and digits -/
inductive Written : List UInt8 → ℤ → Prop where
  | plain (ds : List UInt8) : ds ≠ [] → (∀ c ∈ ds, digit c = true) →
      Written ds (signed false (value ds))
  | plus (ds : List UInt8) : ds ≠ [] → (∀ c ∈ ds, digit c = true) →
      Written (43 :: ds) (signed false (value ds))
  | minus (ds : List UInt8) : ds ≠ [] → (∀ c ∈ ds, digit c = true) →
      Written (45 :: ds) (signed true (value ds))

variable {s ds rest : List UInt8} {n : ℤ}

theorem signOf_cases (s : List UInt8) : (∃ t, s = 45 :: t ∧ signOf s = (true, t)) ∨
    (∃ t, s = 43 :: t ∧ signOf s = (false, t)) ∨ signOf s = (false, s) := by
  unfold signOf
  split
  · exact .inl ⟨_, rfl, rfl⟩
  · exact .inr (.inl ⟨_, rfl, rfl⟩)
  · exact .inr (.inr rfl)

theorem signOf_digits (hne : ds ≠ []) (hds : ∀ c ∈ ds, digit c = true) :
    signOf (ds ++ rest) = (false, ds ++ rest) := by
  obtain ⟨c, ds, rfl⟩ := List.exists_cons_of_ne_nil hne
  have hc := hds c List.mem_cons_self
  obtain ⟨t, ht, -⟩ | ⟨t, ht, -⟩ | h := signOf_cases (c :: ds ++ rest)
  · rw [(List.cons.inj ht).1] at hc
    exact absurd hc (by decide)
  · rw [(List.cons.inj ht).1] at hc
    exact absurd hc (by decide)
  · exact h

theorem scan_digits {neg : Bool} (hsign : signOf s = (neg, ds ++ rest)) (hne : ds ≠ [])
    (hds : ∀ c ∈ ds, digit c = true) (hrest : Stops digit rest) :
    scan s = some (signed neg (value ds), rest) := by
  obtain ⟨htake, hdrop⟩ := cut_append hds hrest
  rw [scan, hsign]
  dsimp only
  rw [htake, hdrop, if_neg hne]

/-- **The scan of a text that starts with an integer.** -/
theorem Written.scan_append (h : Written s n) (hrest : Stops digit rest) :
    scan (s ++ rest) = some (n, rest) := by
  cases h with
  | plain _ hne hds => exact scan_digits (signOf_digits hne hds) hne hds hrest
  | plus ds hne hds => exact scan_digits rfl hne hds hrest
  | minus ds hne hds => exact scan_digits rfl hne hds hrest

theorem Written.word (h : Written s n) : s ≠ [] ∧ ∀ c ∈ s, blank c = false := by
  cases h with
  | plain _ hne hds => exact ⟨hne, fun c hc => blank_of_digit (hds c hc)⟩
  | plus ds hne hds =>
    exact ⟨List.cons_ne_nil _ _, List.forall_mem_cons.mpr
      ⟨by decide, fun c hc => blank_of_digit (hds c hc)⟩⟩
  | minus ds hne hds =>
    exact ⟨List.cons_ne_nil _ _, List.forall_mem_cons.mpr
      ⟨by decide, fun c hc => blank_of_digit (hds c hc)⟩⟩

/-- **Conversely, what is scanned is an integer**, up to its last digit -/
theorem scan_written (h : scan s = some (n, rest)) :
    ∃ w, s = w ++ rest ∧ Written w n ∧ Stops digit rest := by
  obtain ⟨hne, h⟩ := Option.ite_none_left_eq_some.mp h
  obtain ⟨rfl, rfl⟩ := Prod.mk.inj (Option.some.inj h)
  have hds : ∀ c ∈ (signOf s).2.takeWhile digit, digit c = true := fun c hc =>
    List.mem_takeWhile_imp hc
  have hcut : (signOf s).2 = (signOf s).2.takeWhile digit ++ (signOf s).2.dropWhile digit :=
    List.takeWhile_append_dropWhile.symm
  have hstops : Stops digit ((signOf s).2.dropWhile digit) := .of_dropWhile _
  obtain ⟨t, rfl, he⟩ | ⟨t, rfl, he⟩ | he := signOf_cases s
  · rw [he] at hne hds hcut hstops ⊢
    exact ⟨_, congrArg (List.cons 45) hcut, .minus _ hne hds, hstops⟩
  · rw [he] at hne hds hcut hstops ⊢
    exact ⟨_, congrArg (List.cons 43) hcut, .plus _ hne hds, hstops⟩
  · rw [he] at hne hds hcut hstops ⊢
    exact ⟨_, hcut, .plain _ hne hds, hstops⟩

/-- the text starts with the integer, behind blanks -/
def Begins (s : List UInt8) (n : ℤ) : Prop :=
  ∃ bs w rest, s = bs ++ (w ++ rest) ∧ (∀ c ∈ bs, blank c = true) ∧ Written w n ∧ Stops digit rest

theorem Written.begins (h : Written s n) : Begins s n :=
  ⟨[], s, [], (List.append_nil s).symm, nofun, h, .nil⟩

/-- **What `leading` finds.** -/
theorem leading_iff : leading s = some n ↔ Begins s n := by
  constructor
  · intro h
    obtain ⟨⟨m, rest⟩, hscan, rfl⟩ := Option.map_eq_some_iff.mp h
    obtain ⟨w, hw, hwritten, hstops⟩ := scan_written hscan
    refine ⟨s.takeWhile blank, w, rest, ?_, fun c hc => List.mem_takeWhile_imp hc, hwritten, hstops⟩
    rw [← hw, List.takeWhile_append_dropWhile]
  · rintro ⟨bs, w, rest, rfl, hbs, hwritten, hstops⟩
    have hblank : Stops blank (w ++ rest) := .append hwritten.word.1 (.of_forall hwritten.word.2)
    rw [leading, List.dropWhile_append_of_pos hbs, hblank.dropWhile, hwritten.scan_append hstops,
      Option.map_some]

end Decimal
end CppCores
