import CppCores.Lib.Extraction

/-!
# GetThreadStat

A line of `/proc/<pid>/stat` is read with `>>`, word by word; the second word, without its parentheses,
is the name of the thread.  A name may have blanks, and may be empty.

* `threadName_parens`   what is made of a name in parentheses;
* `threadName_clean`    no blank is in the name that is set;
* `numbers_next`, `numbers_failed`   the four numbers behind the name, and what they are if one of
                        the times is out of range;
* `reports_iff`         **a line is reported iff its name is not empty and has no blanks** and its
                        numbers fit an `int64_t`.
-/

namespace CppCores
namespace ProcessUtil
open Decimal

/-- `std::string` -/
abbrev Str := List UInt8

/-! ## the code -/

structure ThreadStat where
  thread_name_ : Str
  virtual_memory_bytes_ : BitVec 64
  physical_memory_bytes_ : BitVec 64
  jiffies_ : BitVec 64
  deriving DecidableEq, Repr

/-- what `sysconf(_SC_PAGE_SIZE)` returns -/
structure PageSize where
  size : BitVec 64
  pos : 0 < size.toInt

/-- `vsize` and `rss` before anything is read into them -/
structure Junk where
  vsize : BitVec 64
  rss : BitVec 64

structure Numbers where
  utime : BitVec 64
  stime : BitVec 64
  vsize : BitVec 64
  rss : BitVec 64
  deriving DecidableEq, Repr

/-- the extractions from `state` on: `state` to `cmajflt`, `utime`, `stime`, `cutime` to `starttime`,
`vsize`, `rss` -/
def numbers (junk : Junk) (is : Input) : Numbers :=
  let is := Input.skip^[11] is
  let (utime, is) := is.int64 0
  let (stime, is) := is.int64 0
  let is := Input.skip^[7] is
  let (vsize, is) := is.uint64 junk.vsize
  let (rss, _) := is.int64 junk.rss
  ⟨utime, stime, vsize, rss⟩

/-- `thread_name_`, where `comm` is not empty -/
def threadName (comm : Str) : Str :=
  let left : ℤ := if comm.head? = some 40 then 1 else 0
  let right : ℤ := comm.length - 1
  let right := if comm.getLast? = some 41 then right - 1 else right
  if left ≤ right then (comm.drop left.toNat).take (right - left + 1).toNat else comm

/-- `GetThreadStat` on what is in the file; nothing where an `int64_t` overflows -/
def getThreadStat (page_size : PageSize) (junk : Junk) (stat : ThreadStat) (stat_file : Str) :
    Option ThreadStat :=
  let stat_stream : Input := ⟨stat_file, true⟩
  let stat_stream := stat_stream.skip
  let (comm, stat_stream) := stat_stream.word []
  let x := numbers junk stat_stream
  let thread_name := if comm ≠ [] then threadName comm else stat.thread_name_
  (Signed.checkedMul x.rss page_size.size).bind fun physical =>
    (Signed.checkedAdd x.utime x.stime).map fun jiffies => {
      thread_name_ := thread_name
      virtual_memory_bytes_ := x.vsize
      physical_memory_bytes_ := physical
      jiffies_ := jiffies }

/-! ## the lines -/

/-- an integer and how it is written -/
structure Field where
  text : Str
  value : ℤ
  written : Written text value

/-- a line: the process, the name, the state, ten fields, `utime`, `stime`, seven fields, `vsize`,
`rss`, and what follows -/
structure Line where
  pid : Field
  comm : Str
  state : UInt8
  state_word : blank state = false
  before : List Field
  length_before : before.length = 10
  utime : Field
  stime : Field
  between : List Field
  length_between : between.length = 7
  vsize : Field
  rss : Field
  rest : Str
  ended : Ended rest

namespace Line

/-- the fields behind the name -/
def fields (l : Line) : List Str :=
  ([l.state] :: l.before.map Field.text) ++ l.utime.text :: l.stime.text ::
    (l.between.map Field.text ++ [l.vsize.text, l.rss.text])

def bytes (l : Line) : Str :=
  l.pid.text ++ 32 :: (40 :: (l.comm ++ [41]) ++ (spaced l.fields ++ l.rest))

end Line

/-- the result says what the line says -/
def Reports (l : Line) (page_size : PageSize) (r : Option ThreadStat) : Prop :=
  ∃ stat, r = some stat ∧ stat.thread_name_ = l.comm ∧
    stat.jiffies_.toInt = l.utime.value + l.stime.value ∧
    stat.virtual_memory_bytes_.toInt = l.vsize.value ∧
    stat.physical_memory_bytes_.toInt = l.rss.value * page_size.size.toInt

/-- the name is a word -/
def Plain (comm : Str) : Prop := comm ≠ [] ∧ ∀ c ∈ comm, blank c = false

/-- the numbers can be had -/
structure InRange (l : Line) (page_size : PageSize) : Prop where
  utime : Signed.Fits 64 l.utime.value
  stime : Signed.Fits 64 l.stime.value
  sum : Signed.Fits 64 (l.utime.value + l.stime.value)
  vsize : Signed.Fits 64 l.vsize.value
  product : Signed.Fits 64 (l.rss.value * page_size.size.toInt)

/-! ## the name -/

theorem threadName_parens (comm : Str) :
    threadName (40 :: (comm ++ [41])) = if comm = [] then [40, 41] else comm := by
  have hlast : (40 :: (comm ++ [41])).getLast? = some (41 : UInt8) := by
    rw [← List.cons_append, List.getLast?_concat]
  have hlen : ((40 :: (comm ++ [41]) : Str).length : ℤ) - 1 - 1 = comm.length := by
    rw [List.length_cons, List.length_append, List.length_singleton]
    omega
  rw [threadName, if_pos List.head?_cons, if_pos hlast, hlen]
  cases comm with
  | nil => rfl
  | cons c cs =>
    have hle : (1 : ℤ) ≤ ((c :: cs).length : ℤ) := by
      rw [List.length_cons]
      omega
    have hone : (1 : ℤ).toNat = 1 := rfl
    have hall : ((c :: cs).length - 1 + 1 : ℤ).toNat = (c :: cs).length := by omega
    rw [if_pos hle, if_neg (List.cons_ne_nil c cs), hone, hall, List.drop_one, List.tail_cons,
      List.take_left]

/-- **The name has no blank if the word has none.** -/
theorem threadName_clean {comm : Str} (h : ∀ c ∈ comm, blank c = false) :
    ∀ c ∈ threadName comm, blank c = false := by
  intro c hc
  unfold threadName at hc
  extract_lets left last right at hc
  split at hc
  · exact h c (List.mem_of_mem_drop (List.mem_of_mem_take hc))
  · exact h c hc

/-! ## the numbers -/

section
variable {l : Line} {junk : Junk} {page_size : PageSize} {stat : ThreadStat}

theorem Field.word (f : Field) : IsWord f.text := f.written.word

theorem words_of_fields (fs : List Field) : ∀ w ∈ fs.map Field.text, IsWord w := by
  intro w hw
  obtain ⟨f, -, rfl⟩ := List.mem_map.mp hw
  exact f.word

/-- from `vsize` on -/
def Line.memory (l : Line) : Str := spaced [l.vsize.text, l.rss.text] ++ l.rest

/-- from `utime` on -/
def Line.times (l : Line) : Str :=
  32 :: (l.utime.text ++ 32 :: (l.stime.text ++ (spaced (l.between.map Field.text) ++ l.memory)))

theorem Line.ended_memory (l : Line) : Ended l.memory := l.ended.spaced _

theorem spaced_fields (l : Line) :
    spaced l.fields ++ l.rest = spaced ([l.state] :: l.before.map Field.text) ++ l.times := by
  have htimes : spaced (l.utime.text :: l.stime.text ::
      (l.between.map Field.text ++ [l.vsize.text, l.rss.text])) ++ l.rest = l.times := by
    rw [spaced_cons, spaced_cons, spaced_append, Line.times, Line.memory]
    simp only [List.append_assoc, List.cons_append]
  rw [Line.fields, spaced_append, List.append_assoc, htimes]

theorem skip_before (l : Line) :
    Input.skip^[11] ⟨spaced l.fields ++ l.rest, true⟩ = ⟨l.times, true⟩ := by
  have hlen : ([l.state] :: l.before.map Field.text).length = 11 := by
    rw [List.length_cons, List.length_map, l.length_before]
  have hstate : IsWord [l.state] := ⟨List.cons_ne_nil _ _, List.forall_mem_singleton.mpr l.state_word⟩
  rw [spaced_fields, ← hlen]
  exact Input.skip_words (List.forall_mem_cons.mpr ⟨hstate, words_of_fields _⟩) (.cons rfl _)

theorem skip_between (l : Line) :
    Input.skip^[7] ⟨spaced (l.between.map Field.text) ++ l.memory, true⟩ = ⟨l.memory, true⟩ := by
  have hlen : (l.between.map Field.text).length = 7 := by rw [List.length_map, l.length_between]
  rw [← hlen]
  exact Input.skip_words (words_of_fields _) l.ended_memory

theorem int64_next (f : Field) {s : Str} (hs : Ended s) (old : BitVec 64)
    (h : Signed.Fits 64 f.value) :
    Input.int64 ⟨32 :: (f.text ++ s), true⟩ old = (BitVec.ofInt 64 f.value, ⟨s, true⟩) := by
  rw [Input.int64, Input.number_next _ _ f.written hs, if_pos (decide_eq_true h)]

theorem int64_failed (f : Field) {s : Str} (hs : Ended s) (old : BitVec 64)
    (h : ¬ Signed.Fits 64 f.value) :
    (Input.int64 ⟨32 :: (f.text ++ s), true⟩ old).2.good = false := by
  rw [Input.int64, Input.number_next _ _ f.written hs, if_neg (by rwa [decide_eq_true_iff])]

/-- nothing is read behind a time that is out of range -/
theorem memory_failed {is : Input} (h : is.good = false) :
    ((Input.skip^[7] is).uint64 junk.vsize).1 = junk.vsize := by
  rw [Input.failed_skip h, Input.uint64, Input.failed h]

/-- **The numbers of a line.** -/
theorem numbers_next (hu : Signed.Fits 64 l.utime.value) (hs : Signed.Fits 64 l.stime.value)
    (hv : Signed.Fits 64 l.vsize.value) (hr : Signed.Fits 64 l.rss.value) :
    numbers junk ⟨spaced l.fields ++ l.rest, true⟩ =
      ⟨.ofInt 64 l.utime.value, .ofInt 64 l.stime.value, .ofInt 64 l.vsize.value,
        .ofInt 64 l.rss.value⟩ := by
  have hsize : l.vsize.value.natAbs < 2 ^ 64 := by
    obtain ⟨h1, h2⟩ := hv
    omega
  have huint : Input.uint64 ⟨l.memory, true⟩ junk.vsize =
      (BitVec.ofInt 64 l.vsize.value, ⟨spaced [l.rss.text] ++ l.rest, true⟩) := by
    rw [Input.uint64, Line.memory, spaced_cons, List.cons_append, List.append_assoc,
      Input.number_next _ _ l.vsize.written (l.ended.spaced _), if_pos (decide_eq_true hsize)]
  have hrss : Input.int64 ⟨spaced [l.rss.text] ++ l.rest, true⟩ junk.rss =
      (BitVec.ofInt 64 l.rss.value, ⟨l.rest, true⟩) := by
    rw [spaced_cons, List.cons_append, List.append_assoc]
    exact int64_next l.rss l.ended _ hr
  rw [numbers, skip_before]
  dsimp only
  rw [Line.times, int64_next l.utime (.cons rfl _) 0 hu]
  dsimp only
  rw [int64_next l.stime (l.ended_memory.spaced _) 0 hs]
  dsimp only
  rw [skip_between, huint]
  dsimp only
  rw [hrss]

/-- **A time that is out of range** leaves `vsize` as it was. -/
theorem numbers_failed (h : ¬ (Signed.Fits 64 l.utime.value ∧ Signed.Fits 64 l.stime.value)) :
    (numbers junk ⟨spaced l.fields ++ l.rest, true⟩).vsize = junk.vsize := by
  rw [numbers, skip_before]
  dsimp only
  rw [Line.times]
  by_cases hu : Signed.Fits 64 l.utime.value
  · have hs : ¬ Signed.Fits 64 l.stime.value := fun hs => h ⟨hu, hs⟩
    rw [int64_next l.utime (.cons rfl _) 0 hu]
    exact memory_failed (int64_failed l.stime (l.ended_memory.spaced _) 0 hs)
  · have hfail := int64_failed l.utime (s := 32 :: (l.stime.text ++
      (spaced (l.between.map Field.text) ++ l.memory))) (.cons rfl _) 0 hu
    have hstay := Input.failed hfail (fun n => decide (Signed.Fits 64 n))
      (fun n => if n < 0 then BitVec.intMin 64 else BitVec.intMax 64) 0
    exact memory_failed ((congrArg (fun x => x.2.good) hstay).trans hfail)

/-! ## the second word -/

/-- the second extraction: the word and the stream behind it -/
def Line.second (l : Line) : Str × Input :=
  Input.word ⟨32 :: (40 :: (l.comm ++ [41]) ++ (spaced l.fields ++ l.rest)), true⟩ []

/-- it begins with the parenthesis and has no blanks -/
theorem second_word (l : Line) : l.second.1 ≠ [] ∧ ∀ c ∈ l.second.1, blank c = false := by
  have hdrop : (32 :: (40 :: (l.comm ++ [41]) ++ (spaced l.fields ++ l.rest))).dropWhile blank =
      40 :: (l.comm ++ [41]) ++ (spaced l.fields ++ l.rest) := rfl
  rw [Line.second, Input.word_eq (hdrop ▸ List.cons_ne_nil _ _), hdrop]
  refine ⟨List.cons_ne_nil _ _, fun c hc => ?_⟩
  have hnot : (!blank c) = true := List.mem_takeWhile_imp (p := fun x => !blank x) hc
  rwa [Bool.not_eq_true'] at hnot

/-- a name without blanks is the whole of it -/
theorem second_clean (l : Line) (h : ∀ c ∈ l.comm, blank c = false) :
    l.second = (40 :: (l.comm ++ [41]), ⟨spaced l.fields ++ l.rest, true⟩) := by
  have hword : IsWord (40 :: (l.comm ++ [41])) := by
    refine ⟨List.cons_ne_nil _ _, List.forall_mem_cons.mpr ⟨by decide, fun c hc => ?_⟩⟩
    obtain hc | hc := List.mem_append.mp hc
    · exact h c hc
    · rw [List.mem_singleton.mp hc]
      decide
  exact (Input.word_next hword (l.ended.spaced _) []).2

theorem getThreadStat_eq : getThreadStat page_size junk stat l.bytes =
    (Signed.checkedMul (numbers junk l.second.2).rss page_size.size).bind fun physical =>
      (Signed.checkedAdd (numbers junk l.second.2).utime (numbers junk l.second.2).stime).map
        fun jiffies =>
          ⟨threadName l.second.1, (numbers junk l.second.2).vsize, physical, jiffies⟩ := by
  have hpid : Input.skip ⟨l.bytes, true⟩ =
      ⟨32 :: (40 :: (l.comm ++ [41]) ++ (spaced l.fields ++ l.rest)), true⟩ := by
    rw [Input.skip, Line.bytes, (Input.word_next l.pid.word (.cons rfl _) []).1]
  rw [getThreadStat, hpid]
  dsimp only
  rw [← Line.second, if_pos (second_word l).1]

theorem getThreadStat_some {st : ThreadStat}
    (h : getThreadStat page_size junk stat l.bytes = some st) :
    st.thread_name_ = threadName l.second.1 ∧
      st.virtual_memory_bytes_ = (numbers junk l.second.2).vsize := by
  rw [getThreadStat_eq] at h
  obtain ⟨physical, -, h⟩ := Option.bind_eq_some_iff.mp h
  obtain ⟨jiffies, -, rfl⟩ := Option.map_eq_some_iff.mp h
  exact ⟨rfl, rfl⟩

/-! ## when a line is reported -/

theorem fits_of_product {n m : ℤ} (hm : 0 < m) (h : Signed.Fits 64 (n * m)) : Signed.Fits 64 n := by
  obtain ⟨hlo, hhi⟩ := h
  obtain hn | hn := Int.le_total 0 n
  · have hle : n * 1 ≤ n * m := Int.mul_le_mul_of_nonneg_left hm hn
    exact ⟨by omega, by omega⟩
  · have hle : n * m ≤ n * 1 := Int.mul_le_mul_of_nonpos_left hn hm
    exact ⟨by omega, by omega⟩

theorem plain_of_name (h : threadName l.second.1 = l.comm) : Plain l.comm := by
  have hclean : ∀ c ∈ l.comm, blank c = false := by
    rw [← h]
    exact threadName_clean (second_word l).2
  refine ⟨fun hnil => ?_, hclean⟩
  rw [second_clean l hclean, threadName_parens, if_pos hnil, hnil] at h
  cases h

theorem reports_of_plain (h : Plain l.comm) (hr : InRange l page_size) :
    Reports l page_size (getThreadStat page_size junk stat l.bytes) := by
  have h64 : 0 < 64 := by decide
  have hrss := fits_of_product page_size.pos hr.product
  rw [getThreadStat_eq, second_clean l h.2]
  dsimp only
  rw [numbers_next hr.utime hr.stime hr.vsize hrss, Signed.checkedMul, Signed.checkedAdd,
    Signed.toInt_ofInt h64 hrss, Signed.toInt_ofInt h64 hr.utime, Signed.toInt_ofInt h64 hr.stime,
    Signed.checked_of_fits hr.product, Signed.checked_of_fits hr.sum]
  refine ⟨_, rfl, ?_, Signed.toInt_ofInt h64 hr.sum, Signed.toInt_ofInt h64 hr.vsize,
    Signed.toInt_ofInt h64 hr.product⟩
  rw [threadName_parens, if_neg h.1]

/-- two lines of one result cannot differ in what was in `vsize` before -/
theorem times_of_reports
    (h : ∀ junk stat, Reports l page_size (getThreadStat page_size junk stat l.bytes))
    (hclean : ∀ c ∈ l.comm, blank c = false) :
    Signed.Fits 64 l.utime.value ∧ Signed.Fits 64 l.stime.value := by
  by_contra hno
  have hvsize : ∀ x : BitVec 64, x.toInt = l.vsize.value := by
    intro x
    obtain ⟨st, hst, -, -, hv, -⟩ := h ⟨x, 0⟩ ⟨[], 0, 0, 0⟩
    have hx := (getThreadStat_some hst).2
    rw [second_clean l hclean, numbers_failed hno] at hx
    rwa [hx] at hv
  exact absurd ((hvsize 0).trans (hvsize 1).symm) (by decide)

end

theorem reports_iff (l : Line) (page_size : PageSize) :
    (∀ junk stat, Reports l page_size (getThreadStat page_size junk stat l.bytes)) ↔
      Plain l.comm ∧ InRange l page_size := by
  have h64 : 0 < 64 := by decide
  refine ⟨fun h => ?_, fun h junk stat => reports_of_plain h.1 h.2⟩
  obtain ⟨st, hst, hname, hj, hv, hp⟩ := h ⟨0, 0⟩ ⟨[], 0, 0, 0⟩
  have hplain : Plain l.comm := plain_of_name ((getThreadStat_some hst).1.symm.trans hname)
  obtain ⟨hu, hs⟩ := times_of_reports h hplain.2
  refine ⟨hplain, hu, hs, ?_, ?_, ?_⟩
  · rw [← hj]
    exact Signed.fits_toInt h64 _
  · rw [← hv]
    exact Signed.fits_toInt h64 _
  · rw [← hp]
    exact Signed.fits_toInt h64 _

/-! ## a name with a blank -/

def zero : Field := ⟨[48], 0, .plain [48] (List.cons_ne_nil _ _) (List.forall_mem_singleton.mpr rfl)⟩

/-- `0 (a b) S 0 0 ... 0` -/
def twoWords : Line where
  pid := zero
  comm := [97, 32, 98]
  state := 83
  state_word := rfl
  before := List.replicate 10 zero
  length_before := rfl
  utime := zero
  stime := zero
  between := List.replicate 7 zero
  length_between := rfl
  vsize := zero
  rss := zero
  rest := []
  ended := .nil

theorem not_reported : ¬ ∀ (l : Line) (page_size : PageSize) (junk : Junk) (stat : ThreadStat),
    Reports l page_size (getThreadStat page_size junk stat l.bytes) := by
  intro h
  obtain ⟨st, hst, hname, -⟩ := h twoWords ⟨4096, by decide⟩ ⟨0, 0⟩ ⟨[], 0, 0, 0⟩
  have hplain := plain_of_name ((getThreadStat_some hst).1.symm.trans hname)
  exact absurd (hplain.2 32 (List.mem_cons_of_mem _ List.mem_cons_self)) (by decide)

end ProcessUtil
end CppCores
