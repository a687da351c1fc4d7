import CppCores.Lib.Decimal
import CppCores.Lib.Signed
import Mathlib.Algebra.Group.Nat.Defs
import Mathlib.Logic.Function.Iterate

/-!
# Formatted extraction from a C++ stream

`>>` skips blanks and reads a word or an integer; once it has failed every further one leaves its
variable alone.  A text of words that a space each goes before is read word by word.

* `Input.word_next`, `Input.number_next`   the next word, and the next integer, of such a text;
* `Input.skip_words`                       words that nothing reads;
* `Input.failed`                           nothing is read behind a failure.
-/

namespace CppCores
open Decimal

/-- the rest of a stream, and whether no extraction has failed -/
structure Input where
  bytes : List UInt8
  good : Bool
  deriving DecidableEq, Repr

/-- not empty, and without blanks -/
def IsWord (w : List UInt8) : Prop := w ≠ [] ∧ ∀ c ∈ w, blank c = false

/-- words with a space before each -/
def spaced (ws : List (List UInt8)) : List UInt8 := ws.flatMap fun w => 32 :: w

/-- the text is at its end, or goes on with a blank -/
def Ended (s : List UInt8) : Prop := Stops (fun c => !blank c) s

namespace Input

/-- `is >> word` for a string -/
def word (is : Input) (old : List UInt8) : List UInt8 × Input :=
  let s := is.bytes.dropWhile blank
  if is.good = false ∨ s = [] then (old, { is with good := false })
  else (s.takeWhile (!blank ·), { is with bytes := s.dropWhile (!blank ·) })

/-- `is >> word` for a string that nothing reads -/
def skip (is : Input) : Input := (is.word []).2

/-- `is >> x` for an integer of 64 bits; the type has the integers with `holds`, and `last n` for one
that is out of its range -/
def number (holds : ℤ → Bool) (last : ℤ → BitVec 64) (is : Input) (old : BitVec 64) :
    BitVec 64 × Input :=
  let s := is.bytes.dropWhile blank
  if is.good = false ∨ s = [] then (old, { is with good := false })
  else
    match scan s with
    | none => (0, { is with good := false })
    | some (n, rest) =>
      if holds n then (BitVec.ofInt 64 n, { is with bytes := rest })
      else (last n, { is with good := false })

/-- `is >> x` for an `int64_t` -/
def int64 : Input → BitVec 64 → BitVec 64 × Input :=
  number (fun n => decide (Signed.Fits 64 n)) fun n =>
    if n < 0 then BitVec.intMin 64 else BitVec.intMax 64

/-- `is >> x` for a `uint64_t`; a minus negates the unsigned number -/
def uint64 : Input → BitVec 64 → BitVec 64 × Input :=
  number (fun n => decide (n.natAbs < 2 ^ 64)) fun _ => BitVec.allOnes 64

end Input

variable {w s rest : List UInt8} {ws vs : List (List UInt8)} {n : ℤ}

/-! ## texts of words -/

theorem spaced_cons : spaced (w :: ws) = 32 :: (w ++ spaced ws) := List.flatMap_cons

theorem spaced_append : spaced (ws ++ vs) = spaced ws ++ spaced vs := List.flatMap_append

theorem Ended.cons {c : UInt8} (h : blank c = true) (s : List UInt8) : Ended (c :: s) :=
  Stops.cons (p := fun c => !blank c) (congrArg Bool.not h) s

theorem Ended.spaced (h : Ended rest) (ws : List (List UInt8)) :
    Ended (CppCores.spaced ws ++ rest) := by
  cases ws with
  | nil => exact h
  | cons w ws => exact .cons rfl _

theorem Ended.stops (h : Ended s) : Stops digit s := fun c hc =>
  digit_of_blank (Bool.not_eq_false' .. |>.mp (h c hc))

namespace IsWord

theorem dropWhile (h : IsWord w) (s : List UInt8) : (w ++ s).dropWhile blank = w ++ s :=
  (Stops.append h.1 (.of_forall h.2)).dropWhile

theorem cut (h : IsWord w) (hs : Ended s) : (w ++ s).takeWhile (!blank ·) = w ∧
    (w ++ s).dropWhile (!blank ·) = s :=
  cut_append (fun c hc => by rw [h.2 c hc]; rfl) hs

theorem append_ne_nil (h : IsWord w) (s : List UInt8) : w ++ s ≠ [] := fun he =>
  h.1 (List.append_eq_nil_iff.mp he).1

end IsWord

namespace Input

/-! ## reading them -/

theorem word_eq {t : List UInt8} (h : t.dropWhile blank ≠ []) (old : List UInt8) :
    word ⟨t, true⟩ old = ((t.dropWhile blank).takeWhile (!blank ·),
      ⟨(t.dropWhile blank).dropWhile (!blank ·), true⟩) :=
  if_neg (not_or.mpr ⟨nofun, h⟩)

theorem word_next (hw : IsWord w) (hs : Ended s) (old : List UInt8) :
    word ⟨w ++ s, true⟩ old = (w, ⟨s, true⟩) ∧ word ⟨32 :: (w ++ s), true⟩ old = (w, ⟨s, true⟩) := by
  have hnext : ∀ t : List UInt8, t.dropWhile blank = w ++ s →
      word ⟨t, true⟩ old = (w, ⟨s, true⟩) := by
    intro t ht
    obtain ⟨htake, hdrop⟩ := hw.cut hs
    rw [word_eq (ht ▸ hw.append_ne_nil s), ht, htake, hdrop]
  exact ⟨hnext _ (hw.dropWhile s), hnext _ (hw.dropWhile s)⟩

/-- **The next integer.** -/
theorem number_next (holds : ℤ → Bool) (last : ℤ → BitVec 64) (hw : Written w n) (hs : Ended s)
    (old : BitVec 64) : number holds last ⟨32 :: (w ++ s), true⟩ old =
      if holds n then (BitVec.ofInt 64 n, ⟨s, true⟩)
      else (last n, ⟨32 :: (w ++ s), false⟩) := by
  have hword : IsWord w := hw.word
  have hdrop : (32 :: (w ++ s)).dropWhile blank = w ++ s := hword.dropWhile s
  rw [number, hdrop, if_neg (not_or.mpr ⟨nofun, hword.append_ne_nil s⟩),
    hw.scan_append hs.stops]

/-- **Words that nothing reads.** -/
theorem skip_words (hws : ∀ w ∈ ws, IsWord w) (hs : Ended s) :
    skip^[ws.length] ⟨spaced ws ++ s, true⟩ = ⟨s, true⟩ := by
  induction ws with
  | nil => rfl
  | cons w ws ih =>
    obtain ⟨hw, hws⟩ := List.forall_mem_cons.mp hws
    rw [List.length_cons, Function.iterate_succ_apply, spaced_cons, List.cons_append,
      List.append_assoc, skip, (word_next hw (hs.spaced ws) []).2, ih hws]

/-! ## behind a failure -/

section
variable {is : Input} (h : is.good = false)
include h

theorem failed_word (old : List UInt8) : is.word old = (old, is) := by
  obtain ⟨bytes, good⟩ := is
  obtain rfl : good = false := h
  rw [word, if_pos (.inl rfl)]

theorem failed_skip (k : ℕ) : skip^[k] is = is := by
  induction k with
  | zero => rfl
  | succ k ih => rw [Function.iterate_succ_apply, skip, failed_word h, ih]

/-- **Nothing is read behind a failure.** -/
theorem failed (holds : ℤ → Bool) (last : ℤ → BitVec 64) (old : BitVec 64) :
    is.number holds last old = (old, is) := by
  obtain ⟨bytes, good⟩ := is
  obtain rfl : good = false := h
  rw [number, if_pos (.inl rfl)]

end

end Input
end CppCores
