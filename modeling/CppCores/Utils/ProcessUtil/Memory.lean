import CppCores.Lib.Loop
import CppCores.Utils.ProcessUtil

/-!
# GetTotalMemory

The first line of `/proc/meminfo` that begins with `MemTotal:` has the number of kilobytes.

* `MemInfo`             a text that has such a line;
* `totalMemory_spec`    **the number of bytes in it is what is returned**, and -1 if there is no such line.
-/

namespace CppCores
namespace ProcessUtil
open Decimal

/-! ## the code -/

/-- `getline(is, line)`: the line and what is behind it, nothing at the end -/
def getline (s : Str) : Option (Str × Str) :=
  if s = [] then none else some (s.takeWhile (· != 10), (s.dropWhile (· != 10)).tail)

/-- `"MemTotal:"` -/
def memTotal : Str := [77, 101, 109, 84, 111, 116, 97, 108, 58]

/-- a turn of the loop; nothing where an `int64_t` overflows.  `junk` is `total_kb` before it is read. -/
def memTurn (junk : BitVec 64) (s : Str) : Except Empty (Turn Str (Option (BitVec 64))) :=
  match getline s with
  | none => .ok (.leave (some (-1)))
  | some (line, rest) =>
    if line.length > memTotal.length ∧ line.take memTotal.length = memTotal then
      let s : Input := ⟨line, true⟩
      let s := s.skip
      let (total_kb, _) := s.int64 junk
      .ok (.leave (Signed.checkedMul total_kb 1024))
    else .ok (.again rest)

/-- nothing as `mem_info` is a file that cannot be opened -/
def GetTotalMemory (fuel : ℕ) (junk : BitVec 64) (mem_info : Option Str) :
    Option (Option (BitVec 64)) :=
  match mem_info with
  | none => some (some (-1))
  | some s => (turns (memTurn junk) fuel s).bind fun
    | .error e => e.elim
    | .ok r => some r

/-! ## the text -/

/-- lines, each with its newline -/
def unlines (lines : List Str) : Str := lines.flatMap (· ++ [10])

/-- a text with a line for the total memory, behind others -/
structure MemInfo where
  before : List Str
  lines : ∀ l ∈ before, 10 ∉ l ∧ ¬ memTotal <+: l
  blanks : Str
  some_blank : blanks ≠ []
  all_blank : ∀ c ∈ blanks, blank c = true
  kb : Field
  fits : Signed.Fits 64 (kb.value * 1024)
  rest : Str
  ended : Ended rest
  line : 10 ∉ blanks ++ rest
  after : Str

namespace MemInfo

/-- the line -/
def total (m : MemInfo) : Str := memTotal ++ (m.blanks ++ (m.kb.text ++ m.rest))

def bytes (m : MemInfo) : Str := unlines m.before ++ (m.total ++ 10 :: m.after)

end MemInfo

/-! ## the lines -/

theorem getline_append {l s : Str} (h : 10 ∉ l) : getline (l ++ 10 :: s) = some (l, s) := by
  have hl : ∀ c ∈ l, (c != 10) = true := by
    intro c hc
    have hne : c ≠ 10 := fun he => h (he ▸ hc)
    simpa using hne
  obtain ⟨htake, hdrop⟩ := cut_append hl (Stops.cons (p := (· != 10)) (x := (10 : UInt8)) rfl s)
  rw [getline, if_neg (by simp), htake, hdrop, List.tail_cons]

variable {junk : BitVec 64}

theorem memTurn_other {l s : Str} (h : 10 ∉ l) (hp : ¬ memTotal <+: l) :
    memTurn junk (l ++ 10 :: s) = .ok (.again s) := by
  unfold memTurn
  rw [getline_append h]
  dsimp only
  rw [if_neg]
  intro hline
  apply hp
  rw [List.prefix_iff_eq_take]
  exact hline.2.symm

theorem ends_lines {lines : List Str} (h : ∀ l ∈ lines, 10 ∉ l ∧ ¬ memTotal <+: l) {s : Str}
    {r : Except Empty (Option (BitVec 64))} (hr : Ends (memTurn junk) s r) :
    Ends (memTurn junk) (unlines lines ++ s) r := by
  induction lines with
  | nil => exact hr
  | cons l lines ih =>
    obtain ⟨hl, hp⟩ := h l List.mem_cons_self
    have hs : unlines (l :: lines) ++ s = l ++ 10 :: (unlines lines ++ s) := by
      simp [unlines]
    rw [hs]
    apply Ends.again (memTurn_other hl hp)
    exact ih fun k hk => h k (List.mem_cons_of_mem l hk)

theorem ended_blanks (m : MemInfo) : Ended (m.blanks ++ (m.kb.text ++ m.rest)) := by
  obtain ⟨c, bs, hb⟩ := List.exists_cons_of_ne_nil m.some_blank
  rw [hb]
  exact .cons (m.all_blank c (hb ▸ List.mem_cons_self)) _

theorem MemInfo.fits_kb (m : MemInfo) : Signed.Fits 64 m.kb.value :=
  fits_of_product (m := 1024) (by decide) m.fits

theorem int64_total (m : MemInfo) (junk : BitVec 64) :
    ((Input.skip ⟨m.total, true⟩).int64 junk).1 = BitVec.ofInt 64 m.kb.value := by
  have hword : IsWord memTotal := ⟨List.cons_ne_nil _ _, by simp [memTotal, blank]⟩
  have hskip : Input.skip ⟨m.total, true⟩ = ⟨m.blanks ++ (m.kb.text ++ m.rest), true⟩ := by
    rw [Input.skip, MemInfo.total, (Input.word_next hword (ended_blanks m) []).1]
  have hdrop : (m.blanks ++ (m.kb.text ++ m.rest)).dropWhile blank = m.kb.text ++ m.rest := by
    rw [List.dropWhile_append_of_pos m.all_blank, m.kb.word.dropWhile]
  rw [hskip, Input.int64, Input.number, hdrop,
    if_neg (not_or.mpr ⟨Bool.false_ne_true.symm, m.kb.word.append_ne_nil m.rest⟩),
    m.kb.written.scan_append m.ended.stops]
  dsimp only
  rw [if_pos (decide_eq_true m.fits_kb)]

theorem newline_notMem_total (m : MemInfo) : 10 ∉ m.total := by
  intro h
  have hline := m.line
  simp only [MemInfo.total, List.mem_append] at h hline
  rcases h with h | h | h | h
  · exact absurd h (by simp [memTotal])
  · exact hline (.inl h)
  · exact absurd (m.kb.word.2 10 h) (by decide)
  · exact hline (.inr h)

theorem memTurn_total (m : MemInfo) (junk : BitVec 64) : memTurn junk (m.total ++ 10 :: m.after) =
    .ok (.leave (some (BitVec.ofInt 64 (m.kb.value * 1024)))) := by
  have hlen : m.total.length > memTotal.length := by
    have hpos := List.length_pos_iff.mpr m.some_blank
    rw [MemInfo.total, List.length_append, List.length_append]
    omega
  have htake : m.total.take memTotal.length = memTotal := List.take_left
  have hkb := int64_total m junk
  unfold memTurn
  rw [getline_append (newline_notMem_total m)]
  dsimp only
  rw [if_pos ⟨hlen, htake⟩, hkb, Signed.checkedMul, Signed.toInt_ofInt (by decide) m.fits_kb]
  exact congrArg (fun r => Except.ok (Turn.leave r)) (Signed.checked_of_fits m.fits)

/-- **The total memory in bytes, from the first line that is about it**, and -1 if no line is. -/
theorem totalMemory_spec (m : MemInfo) (junk : BitVec 64) :
    Gives (fun fuel => GetTotalMemory fuel junk (some m.bytes))
        (some (BitVec.ofInt 64 (m.kb.value * 1024))) ∧
      Gives (fun fuel => GetTotalMemory fuel junk (some (unlines m.before))) (some (-1)) := by
  constructor
  · have hends := ends_lines m.lines (Ends.leave (memTurn_total m junk))
    exact (Gives.of_ends hends).bind (Gives.pure _)
  · have hlast : Ends (memTurn junk) [] (.ok (some (-1))) := Ends.leave rfl
    have hends := ends_lines m.lines hlast
    rw [List.append_nil] at hends
    exact (Gives.of_ends hends).bind (Gives.pure _)

/-- "Slab:", and "MemTotal: 2 kB" -/
def twoKilobytes : MemInfo where
  before := [[83, 108, 97, 98, 58]]
  lines := by decide
  blanks := [32]
  some_blank := List.cons_ne_nil _ _
  all_blank := List.forall_mem_singleton.mpr rfl
  kb := ⟨[50], 2, .plain [50] (List.cons_ne_nil _ _) (List.forall_mem_singleton.mpr rfl)⟩
  fits := by decide
  rest := [32, 107, 66]
  ended := .cons rfl _
  line := by decide
  after := []

theorem totalMemory_spec_two :
    Gives (fun fuel => GetTotalMemory fuel 0 (some
        [83, 108, 97, 98, 58, 10, 77, 101, 109, 84, 111, 116, 97, 108, 58, 32, 50, 32, 107, 66, 10]))
        (some 2048) ∧
      Gives (fun fuel => GetTotalMemory fuel 0 (some [83, 108, 97, 98, 58, 10])) (some (-1)) :=
  totalMemory_spec twoKilobytes 0

end ProcessUtil
end CppCores
