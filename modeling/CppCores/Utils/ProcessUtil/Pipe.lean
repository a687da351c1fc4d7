import CppCores.Lib.Loop
import CppCores.Utils.ProcessUtil

/-!
# PipeExecute

The output of a command is read by `fgets` into a buffer of 256 characters, and printed as a C string:
up to the first character 0.  Reading may fail, once or for good; `fgets` returns a null pointer then, and
what it has read in this call is lost.  The loop asks for `feof` only, and calls it again.

* `pieces`             what `fgets` makes of a text, one piece for each call;
* `arriving`           the pieces that arrive, where some reads fail;
* `pipeExecute_spec`   **the call ends iff reading does not fail for good**; each piece is printed up to its
                       first 0, and so a text is printed as it is iff no 0 is in it.
-/

namespace CppCores
namespace ProcessUtil

/-! ## the code -/

/-- what is still to be read up to the end, or up to a read that fails, and what is read behind each such
failure; whether reading fails for good then, where the end would be, and what `feof` says -/
structure FILE where
  rest : Str
  later : List Str
  broken : Bool
  eof : Bool
  deriving DecidableEq, Repr

/-- up to `n` characters or a newline, what is behind them, and whether the end came first -/
def cutLine : ℕ → Str → Str × Str × Bool
  | 0, s => ([], s, false)
  | _ + 1, [] => ([], [], true)
  | n + 1, c :: s =>
    if c = 10 then ([c], s, false)
    else
      let (line, rest, atEnd) := cutLine n s
      (c :: line, rest, atEnd)

/-- `fgets(buffer, size, file)`; nothing is a null pointer -/
def fgets (size : ℕ) (file : FILE) : Option Str × FILE :=
  let (line, rest, atEnd) := cutLine (size - 1) file.rest
  if atEnd then
    match file.later with
    | next :: later => (none, { file with rest := next, later := later })
    | [] =>
      if file.broken then (none, { file with rest := rest })
      else (if line = [] then none else some line, { file with rest := rest, eof := true })
  else (some line, { file with rest := rest })

/-- a buffer as a C string -/
def cstr (buffer : Str) : Str := buffer.takeWhile (· != 0)

/-- a turn of the loop, with what `*output` has -/
def copyTurn (s : FILE × Str) : Except Empty (Turn (FILE × Str) Str) :=
  if s.1.eof then .ok (.leave s.2)
  else
    match fgets 256 s.1 with
    | (some buffer, file) => .ok (.again (file, s.2 ++ cstr buffer))
    | (none, file) => .ok (.again (file, s.2))

/-- the status that `pclose` returns, and `*output`; nothing is a call that is not over -/
def PipeExecute (fuel : ℕ) (command_pipe : FILE) (pclose : ℤ) (output : Str) : Option (ℤ × Str) :=
  (turns copyTurn fuel (command_pipe, output)).bind fun
    | .error e => e.elim
    | .ok output => some (pclose, output)

/-! ## the pieces -/

/-- what a cut has -/
structure Cut (n : ℕ) (s line rest : Str) (atEnd : Bool) : Prop where
  append : s = line ++ rest
  short : line.length ≤ n
  done : atEnd = true → rest = []

theorem cutLine_cut (n : ℕ) (s : Str) :
    Cut n s (cutLine n s).1 (cutLine n s).2.1 (cutLine n s).2.2 := by
  induction n generalizing s with
  | zero => exact ⟨rfl, Nat.le_refl 0, nofun⟩
  | succ n ih =>
    cases s with
    | nil => exact ⟨rfl, Nat.zero_le _, fun _ => rfl⟩
    | cons c s =>
      rw [cutLine]
      split
      · exact ⟨rfl, Nat.succ_le_succ (Nat.zero_le n), nofun⟩
      · have h := ih s
        exact ⟨congrArg (c :: ·) h.append, Nat.succ_le_succ h.short, h.done⟩

theorem cutLine_ne_nil (n : ℕ) (c : UInt8) (s : Str) : (cutLine (n + 1) (c :: s)).1 ≠ [] := by
  rw [cutLine]
  split
  · exact List.cons_ne_nil c []
  · exact List.cons_ne_nil c _

theorem cutLine_rest_lt (n : ℕ) (c : UInt8) (s : Str) :
    (cutLine (n + 1) (c :: s)).2.1.length < (c :: s).length := by
  have hlen := congrArg List.length (cutLine_cut (n + 1) (c :: s)).append
  have hpos := List.length_pos_iff.mpr (cutLine_ne_nil n c s)
  rw [List.length_append] at hlen
  omega

/-- the pieces that `fgets` reads one after the other -/
def pieces : Str → List Str
  | [] => []
  | c :: s => (cutLine 255 (c :: s)).1 :: pieces (cutLine 255 (c :: s)).2.1
termination_by s => s.length
decreasing_by exact cutLine_rest_lt 254 c s

theorem flatten_pieces (s : Str) : (pieces s).flatten = s := by
  fun_induction pieces s with
  | case1 => rfl
  | case2 c s ih =>
    rw [List.flatten_cons, ih]
    exact (cutLine_cut 255 (c :: s)).append.symm

theorem length_of_mem_pieces {s p : Str} (h : p ∈ pieces s) : p.length ≤ 255 := by
  fun_induction pieces s with
  | case1 => cases h
  | case2 c s ih =>
    rcases List.mem_cons.mp h with rfl | h
    · exact (cutLine_cut 255 (c :: s)).short
    · exact ih h

/-- the pieces of a text that are over before its end, where reading fails -/
def kept : Str → List Str
  | [] => []
  | c :: s =>
    if (cutLine 255 (c :: s)).2.2 then []
    else (cutLine 255 (c :: s)).1 :: kept (cutLine 255 (c :: s)).2.1
termination_by s => s.length
decreasing_by exact cutLine_rest_lt 254 c s

theorem kept_prefix (s : Str) : kept s <+: pieces s := by
  fun_induction kept s with
  | case1 => exact List.nil_prefix
  | case2 c s hend => exact List.nil_prefix
  | case3 c s hend ih =>
    rw [pieces]
    exact List.cons_prefix_cons.mpr ⟨rfl, ih⟩

/-- no more than one piece is not over then -/
theorem length_pieces_le (s : Str) : (pieces s).length ≤ (kept s).length + 1 := by
  fun_induction kept s with
  | case1 =>
    rw [pieces]
    exact Nat.zero_le _
  | case2 c s hend =>
    rw [pieces, (cutLine_cut 255 (c :: s)).done hend, pieces]
    exact Nat.le_refl 1
  | case3 c s hend ih =>
    rw [pieces]
    exact Nat.succ_le_succ ih

/-- the pieces that arrive, of the texts that reading fails between -/
def arriving : Str → List Str → List Str
  | rest, [] => pieces rest
  | rest, next :: later => kept rest ++ arriving next later

/-! ## what is printed -/

/-- what is printed of a text -/
def printed (s : Str) : Str := (pieces s).flatMap cstr

theorem cstr_eq_iff {p : Str} : cstr p = p ↔ 0 ∉ p := by
  rw [cstr, List.takeWhile_eq_self_iff]
  constructor
  · intro h hz
    exact absurd (h 0 hz) (by decide)
  · intro h c hc
    have hne : c ≠ 0 := fun he => h (he ▸ hc)
    simpa using hne

theorem zero_notMem_printed (s : Str) : (0 : UInt8) ∉ printed s := by
  intro h
  obtain ⟨p, -, hp⟩ := List.mem_flatMap.mp h
  exact absurd (List.mem_takeWhile_imp hp) (by decide)

/-- **A text is printed as it is iff no 0 is in it.** -/
theorem printed_eq_iff {s : Str} : printed s = s ↔ 0 ∉ s := by
  constructor
  · intro h
    rw [← h]
    exact zero_notMem_printed s
  · intro h
    have hpieces : ∀ p ∈ pieces s, cstr p = p := by
      intro p hp
      apply cstr_eq_iff.mpr
      intro hz
      apply h
      rw [← flatten_pieces s]
      exact List.mem_flatten.mpr ⟨p, hp, hz⟩
    rw [printed, List.flatMap_def, List.map_congr_left hpieces, List.map_id', flatten_pieces]

/-- what is printed of the texts that reading fails between -/
def shown (rest : Str) (later : List Str) : Str := (arriving rest later).flatMap cstr

theorem shown_nil (later : List Str) : shown [] later =
    match later with
    | [] => []
    | next :: later => shown next later := by
  cases later with
  | nil => rw [shown, arriving, pieces]; rfl
  | cons next later => rw [shown, arriving, kept]; rfl

theorem shown_kept {c : UInt8} {s : Str} (h : (cutLine 255 (c :: s)).2.2 = false) (later : List Str) :
    shown (c :: s) later =
      cstr (cutLine 255 (c :: s)).1 ++ shown (cutLine 255 (c :: s)).2.1 later := by
  cases later with
  | nil =>
    rw [shown, arriving, pieces, List.flatMap_cons]
    rfl
  | cons next later =>
    rw [shown, arriving, kept, if_neg (by rw [h]; exact Bool.false_ne_true), List.cons_append,
      List.flatMap_cons]
    rfl

theorem shown_lost {c : UInt8} {s : Str} (h : (cutLine 255 (c :: s)).2.2 = true) (next : Str)
    (later : List Str) : shown (c :: s) (next :: later) = shown next later := by
  rw [shown, arriving, kept, if_pos h]
  rfl

theorem shown_last {c : UInt8} {s : Str} (h : (cutLine 255 (c :: s)).2.2 = true) :
    shown (c :: s) [] = cstr (cutLine 255 (c :: s)).1 := by
  have hrest : (cutLine 255 (c :: s)).2.1 = [] := (cutLine_cut 255 (c :: s)).done h
  rw [shown, arriving, pieces, hrest, pieces, List.flatMap_cons, List.flatMap_nil, List.append_nil]

/-! ## the loop -/

theorem fgets_kept {c : UInt8} {s : Str} (h : (cutLine 255 (c :: s)).2.2 = false) (later : List Str)
    (broken eof : Bool) : fgets 256 ⟨c :: s, later, broken, eof⟩ =
      (some (cutLine 255 (c :: s)).1, ⟨(cutLine 255 (c :: s)).2.1, later, broken, eof⟩) := by
  unfold fgets
  dsimp only
  rw [if_neg (by rw [show (cutLine (256 - 1) (c :: s)).2.2 = false from h]; exact Bool.false_ne_true)]

/-- a call in which reading fails, for this once -/
theorem fgets_fails {s : Str} (h : (cutLine 255 s).2.2 = true) (next : Str) (later : List Str)
    (broken eof : Bool) :
    fgets 256 ⟨s, next :: later, broken, eof⟩ = (none, ⟨next, later, broken, eof⟩) := by
  unfold fgets
  dsimp only
  rw [if_pos (show (cutLine (256 - 1) s).2.2 = true from h)]

theorem fgets_last {s : Str} (h : (cutLine 255 s).2.2 = true) : fgets 256 ⟨s, [], false, false⟩ =
    (if (cutLine 255 s).1 = [] then none else some (cutLine 255 s).1,
      ⟨(cutLine 255 s).2.1, [], false, true⟩) := by
  unfold fgets
  dsimp only
  rw [if_pos (show (cutLine (256 - 1) s).2.2 = true from h)]
  rfl

/-- the characters that are still to be read, the failures and the end -/
def FILE.left (file : FILE) : ℕ :=
  file.rest.length + file.later.flatten.length + file.later.length + if file.eof then 0 else 1

/-- what is due: what arrives of the text that is still to be read, behind what has been printed -/
def Due (n : ℕ) (s : FILE × Str) (x : Str) : Prop :=
  s.1.broken = false ∧ (s.1.eof = true → s.1.rest = [] ∧ s.1.later = []) ∧ n = s.1.left ∧
    x = s.2 ++ shown s.1.rest s.1.later

theorem due_fails {rest next out : Str} {later : List Str} (hend : (cutLine 255 rest).2.2 = true)
    (hshown : shown rest (next :: later) = shown next later) :
    ∃ m s', m < (⟨rest, next :: later, false, false⟩ : FILE).left ∧
      copyTurn (⟨rest, next :: later, false, false⟩, out) = .ok (.again s') ∧
      Due m s' (out ++ shown rest (next :: later)) := by
  refine ⟨_, (⟨next, later, false, false⟩, out), ?_, ?_, rfl, nofun, rfl, by rw [hshown]⟩
  · simp only [FILE.left, List.flatten_cons, List.length_append, List.length_cons]
    omega
  · unfold copyTurn
    rw [fgets_fails hend]
    rfl

theorem due_step (n : ℕ) (s : FILE × Str) (x : Str) (h : Due n s x) :
    copyTurn s = .ok (.leave x) ∨
      ∃ m s', m < n ∧ copyTurn s = .ok (.again s') ∧ Due m s' x := by
  obtain ⟨⟨rest, later, broken, eof⟩, out⟩ := s
  obtain ⟨rfl, hend, rfl, rfl⟩ := h
  cases eof with
  | true =>
    obtain ⟨rfl, rfl⟩ : rest = [] ∧ later = [] := hend rfl
    left
    rw [shown_nil, List.append_nil]
    rfl
  | false =>
    right
    cases rest with
    | nil =>
      cases later with
      | nil =>
        exact ⟨0, (⟨[], [], false, true⟩, out), Nat.zero_lt_one, rfl, rfl, fun _ => ⟨rfl, rfl⟩, rfl, rfl⟩
      | cons next later => exact due_fails rfl (shown_nil _)
    | cons c s =>
      have hlt : (cutLine 255 (c :: s)).2.1.length < (c :: s).length := cutLine_rest_lt 254 c s
      cases he : (cutLine 255 (c :: s)).2.2 with
      | false =>
        refine ⟨_, (⟨(cutLine 255 (c :: s)).2.1, later, false, false⟩,
          out ++ cstr (cutLine 255 (c :: s)).1), ?_, ?_, rfl, nofun, rfl, ?_⟩
        · simp only [FILE.left]
          omega
        · unfold copyTurn
          rw [fgets_kept he]
          rfl
        · rw [shown_kept he, List.append_assoc]
      | true =>
        cases later with
        | nil =>
          have hrest : (cutLine 255 (c :: s)).2.1 = [] := (cutLine_cut 255 (c :: s)).done he
          refine ⟨0, (⟨[], [], false, true⟩, out ++ cstr (cutLine 255 (c :: s)).1), Nat.succ_pos _, ?_,
            rfl, fun _ => ⟨rfl, rfl⟩, rfl, ?_⟩
          · unfold copyTurn
            rw [fgets_last he, if_neg (cutLine_ne_nil 254 c s), hrest]
            rfl
          · rw [shown_last he, shown_nil, List.append_nil]
        | cons next later => exact due_fails he (shown_lost he next later)

theorem copy_ends (rest : Str) (later : List Str) (out : Str) :
    Ends copyTurn (⟨rest, later, false, false⟩, out) (.ok (out ++ shown rest later)) :=
  Ends.of_variant due_step ⟨rfl, nofun, rfl, rfl⟩

/-- reading that fails for good is tried again and again -/
theorem not_copy_ends (rest : Str) (later : List Str) (out : Str) (r : Except Empty Str) :
    ¬ Ends copyTurn (⟨rest, later, true, false⟩, out) r := by
  refine not_ends (I := fun s => s.1.broken = true ∧ s.1.eof = false) ?_ ⟨rfl, rfl⟩
  intro s hs
  obtain ⟨⟨rest, later, broken, eof⟩, out⟩ := s
  obtain ⟨rfl, rfl⟩ := hs
  unfold copyTurn fgets
  dsimp only
  cases he : (cutLine (256 - 1) rest).2.2 with
  | true =>
    cases later with
    | nil => exact ⟨_, rfl, rfl, rfl⟩
    | cons next later => exact ⟨_, rfl, rfl, rfl⟩
  | false => exact ⟨_, rfl, rfl, rfl⟩

/-- **The call ends iff reading does not fail for good**, and what it prints is what arrives, up to the
first 0 in each of its pieces. -/
theorem pipeExecute_spec (rest : Str) (later : List Str) (pclose : ℤ) (output : Str) :
    Gives (fun fuel => PipeExecute fuel ⟨rest, later, false, false⟩ pclose output)
        (pclose, output ++ (arriving rest later).flatMap cstr) ∧
      (∀ fuel, PipeExecute fuel ⟨rest, later, true, false⟩ pclose output = none) ∧
      arriving rest [] = pieces rest ∧
      kept rest <+: pieces rest ∧ (pieces rest).length ≤ (kept rest).length + 1 ∧
      (pieces rest).flatten = rest ∧ (∀ p ∈ pieces rest, p.length ≤ 255) ∧
      ((pieces rest).flatMap cstr = rest ↔ 0 ∉ rest) := by
  refine ⟨?_, fun fuel => ?_, rfl, kept_prefix rest, length_pieces_le rest, flatten_pieces rest,
    fun p hp => length_of_mem_pieces hp, printed_eq_iff⟩
  · exact (Gives.of_ends (copy_ends rest later output)).bind (Gives.pure _)
  · cases h : turns copyTurn fuel (⟨rest, later, true, false⟩, output) with
    | none => rw [PipeExecute, h, Option.bind_none]
    | some r => exact absurd ⟨fuel, h⟩ (not_copy_ends rest later output r)

/-- reading fails once, behind a line and in the next: the line arrives, and what is read afterwards -/
example : arriving [97, 10, 98] [[99]] = [[97, 10], [99]] := by
  simp [arriving, kept, pieces, cutLine]

end ProcessUtil
end CppCores
