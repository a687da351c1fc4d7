import CppCores.Lib.Ring

/-!
# RingBuffer: the circular buffer of `ds/ring_buffer.h`

`buffer_` is a vector that is sized once; `reader_` and `writer_` are two of its indices, and the
content is what lies from `reader_` up to `writer_`, walked with `next`.  One place stays free.  The
bounded queue that the buffer stands for is a list of at most `n - 1` elements (`Fifo`).

* `Rep s n q`         `s` is a buffer of `n` places with the content `q`; `Rep.content`, `Rep.front`,
                      `Rep.back` read it off, `Rep.push_back` keeps it;
* `force_push_bad`    `force_push` writes its value behind the content and leaves `writer_`: the
                      content has one element too few;
* `refines_iff`       **a sequence of calls refines the bounded queue iff it has no `force_push`.**
-/

namespace CppCores
namespace Ring

/-! ## the code -/

structure RingBuffer (α : Type*) where
  buffer_ : List α
  reader_ : ℕ
  writer_ : ℕ
  capacity_ : ℕ
  deriving DecidableEq, Repr

/-- what a call answers -/
inductive Answer where
  | bool (b : Bool)
  | void
  /-- the exception `std::runtime_error` -/
  | runtime_error (what : String)
  /-- the exception `std::length_error` of a vector -/
  | length_error
  deriving DecidableEq, Repr

inductive Call (α : Type*) where
  | push_back (value : α)
  | force_push (value : α)
  deriving DecidableEq, Repr

namespace RingBuffer
variable {α : Type*}

/-- `buffer_.resize(size)` fills the places with one value -/
def new (size : ℕ) (zero : α) : RingBuffer α where
  buffer_ := List.replicate size zero
  reader_ := 0
  writer_ := 0
  capacity_ := size

def next (s : RingBuffer α) (n : ℕ) : ℕ := (n + 1) % s.buffer_.length

def prev (s : RingBuffer α) (n : ℕ) : ℕ :=
  if n > 0 then (n - 1) % s.buffer_.length else s.buffer_.length - 1

def push_back (s : RingBuffer α) (value : α) : Answer × RingBuffer α :=
  if s.next s.writer_ = s.reader_ then (.bool false, s)
  else
    (.bool true, { s with
      buffer_ := s.buffer_.set s.writer_ value
      writer_ := s.next s.writer_ })

def front (s : RingBuffer α) : Option α := s.buffer_[s.reader_]?

def back (s : RingBuffer α) : Option α := s.buffer_[s.prev s.writer_]?

def force_push (s : RingBuffer α) (value : α) : Answer × RingBuffer α :=
  if s.capacity_ = 0 then (.runtime_error "Capacity Zero can't force push!", s)
  else
    let reader := if s.next s.writer_ = s.reader_ then s.next s.reader_ else s.reader_
    (.void, { s with reader_ := reader, buffer_ := s.buffer_.set s.writer_ value })

def call (s : RingBuffer α) : Call α → Answer × RingBuffer α
  | .push_back value => s.push_back value
  | .force_push value => s.force_push value

/-- the elements from the index `i` up to `writer_`, in at most `fuel` steps -/
def walk (s : RingBuffer α) : ℕ → ℕ → List (Option α)
  | 0, _ => []
  | fuel + 1, i => if i = s.writer_ then [] else s.buffer_[i]? :: s.walk fuel (s.next i)

/-- the elements stored from `reader_` up to `writer_`, walked cyclically -/
def content (s : RingBuffer α) : List (Option α) := s.walk s.buffer_.length s.reader_

end RingBuffer

/-! ## the bounded queue -/

namespace Fifo
variable {α : Type*}

/-- a queue of at most `cap` elements, the oldest first -/
def call (cap : ℕ) (q : List α) : Call α → Answer × List α
  | .push_back value => if q.length < cap then (.bool true, q ++ [value]) else (.bool false, q)
  | .force_push value => (.void, (if q.length = cap then q.tail else q) ++ [value])

end Fifo

section
variable {α : Type*}

/-- the buffer holds the queue, and `front` and `back` are its ends -/
structure Agrees (s : RingBuffer α) (q : List α) : Prop where
  content : s.content = q.map some
  front : q ≠ [] → s.front = q.head?
  back : q ≠ [] → s.back = q.getLast?

/-- each call answers and leaves what the queue of at most `cap` elements does -/
def Refines (cap : ℕ) : RingBuffer α → List α → List (Call α) → Prop
  | s, q, [] => Agrees s q
  | s, q, c :: cs => Agrees s q ∧ (s.call c).1 = (Fifo.call cap q c).1 ∧
      Refines cap (s.call c).2 (Fifo.call cap q c).2 cs

def Call.isPushBack : Call α → Bool
  | .push_back _ => true
  | .force_push _ => false

theorem Refines.agrees {cap : ℕ} {s : RingBuffer α} {q : List α} {cs : List (Call α)}
    (h : Refines cap s q cs) : Agrees s q := by
  cases cs with
  | nil => exact h
  | cons c cs => exact h.1

/-! ## the representation -/

/-- the positions `lo ≤ i < hi`, counted without wrapping, hold the queue -/
structure RepAt (s : RingBuffer α) (n : ℕ) (q : List α) (lo hi : ℕ) : Prop where
  length : s.buffer_.length = n
  capacity : s.capacity_ = n
  reader : s.reader_ = lo % n
  writer : s.writer_ = hi % n
  le : lo ≤ hi
  lt : hi < lo + n
  window : window (fun i => s.buffer_[i]?) n lo hi = q.map some

def Rep (s : RingBuffer α) (n : ℕ) (q : List α) : Prop := ∃ lo hi, RepAt s n q lo hi

theorem next_mod {s : RingBuffer α} {n : ℕ} (h : s.buffer_.length = n) (i : ℕ) :
    s.next (i % n) = (i + 1) % n := by
  rw [RingBuffer.next, h, Nat.mod_add_mod]

theorem prev_mod {s : RingBuffer α} {n : ℕ} (h : s.buffer_.length = n) (hn : 0 < n) (i : ℕ) :
    s.prev ((i + 1) % n) = i % n := by
  have hlt := Nat.mod_lt i hn
  rw [← Nat.mod_add_mod, RingBuffer.prev, h]
  rcases Nat.lt_or_ge (i % n + 1) n with h1 | h1
  · rw [Nat.mod_eq_of_lt h1, if_pos (Nat.succ_pos _), Nat.add_sub_cancel, Nat.mod_mod]
  · have e : i % n + 1 = n := by omega
    rw [e, Nat.mod_self, if_neg (Nat.lt_irrefl 0)]
    omega

/-- the walk goes over the positions in order -/
theorem walk_eq {s : RingBuffer α} {n hi : ℕ} (hlen : s.buffer_.length = n)
    (hw : s.writer_ = hi % n) (fuel lo : ℕ) (hle : lo ≤ hi) (hlt : hi < lo + n)
    (hf : hi - lo ≤ fuel) :
    s.walk fuel (lo % n) = window (fun i => s.buffer_[i]?) n lo hi := by
  induction fuel generalizing lo with
  | zero =>
    obtain rfl : lo = hi := by omega
    rw [window_empty _ (Nat.le_refl _)]
    rfl
  | succ fuel ih =>
    rcases Nat.eq_or_lt_of_le hle with rfl | h
    · rw [RingBuffer.walk, if_pos hw.symm, window_empty _ (Nat.le_refl _)]
    · rw [RingBuffer.walk, if_neg (by rw [hw]; exact mod_ne_of_lt_lap h hlt), next_mod hlen,
        ih (lo + 1) h (by omega) (by omega), window_cons _ h]

theorem content_eq {s : RingBuffer α} {n lo hi : ℕ} (hlen : s.buffer_.length = n)
    (hr : s.reader_ = lo % n) (hw : s.writer_ = hi % n) (hle : lo ≤ hi) (hlt : hi < lo + n) :
    s.content = window (fun i => s.buffer_[i]?) n lo hi := by
  rw [RingBuffer.content, hlen, hr]
  exact walk_eq hlen hw n lo hle hlt (by omega)

namespace RepAt
variable {s : RingBuffer α} {n : ℕ} {q : List α} {lo hi : ℕ}

theorem length_eq (h : RepAt s n q lo hi) : q.length = hi - lo := by
  rw [← List.length_map (f := some), ← h.window, window_length]

/-- the next place is the one of the reader iff one place is free -/
theorem full_iff (h : RepAt s n q lo hi) (hn : 2 ≤ n) :
    s.next s.writer_ = s.reader_ ↔ q.length = n - 1 := by
  have hlt := h.lt
  have hle := h.le
  rw [h.writer, h.reader, next_mod h.length, h.length_eq]
  constructor
  · intro e
    by_contra hne
    exact mod_ne_of_lt_lap (i := lo) (j := hi + 1) (by omega) (by omega) e.symm
  · intro e
    have : hi + 1 = lo + n := by omega
    rw [this, Nat.add_mod_right]

theorem agrees (h : RepAt s n q lo hi) (hn : 2 ≤ n) : Agrees s q where
  content := (content_eq h.length h.reader h.writer h.le h.lt).trans h.window
  front := by
    intro hq
    have hlen := h.length_eq
    have hpos := List.length_pos_iff.mpr hq
    have hw := h.window
    rw [window_cons _ (by omega)] at hw
    obtain ⟨a, q', rfl⟩ := List.exists_cons_of_ne_nil hq
    rw [RingBuffer.front, h.reader]
    exact (List.cons.inj hw).1
  back := by
    intro hq
    have hlen := h.length_eq
    have hpos := List.length_pos_iff.mpr hq
    obtain ⟨k, rfl⟩ : ∃ k, hi = k + 1 := ⟨hi - 1, by omega⟩
    have hw := h.window
    rw [window_snoc _ (by omega)] at hw
    obtain ⟨q', a, rfl⟩ := List.eq_nil_or_concat q |>.resolve_left hq
    rw [List.concat_eq_append, List.map_append] at hw
    rw [RingBuffer.back, h.writer, prev_mod h.length (by omega), List.concat_eq_append,
      List.getLast?_concat]
    exact List.head_eq_of_cons_eq (List.append_inj' hw rfl).2

theorem set_writer (h : RepAt s n q lo hi) (value : α) :
    CppCores.window (fun i => (s.buffer_.set s.writer_ value)[i]?) n lo hi = q.map some := by
  rw [← h.window]
  apply window_congr
  intro i h1 h2
  have hlt := h.lt
  rw [h.writer]
  exact List.getElem?_set_ne (mod_ne_of_lt_lap h2 (by omega)).symm

theorem push_back (h : RepAt s n q lo hi) (hfree : hi + 1 < lo + n) (value : α) :
    RepAt { s with buffer_ := s.buffer_.set s.writer_ value, writer_ := s.next s.writer_ } n
      (q ++ [value]) lo (hi + 1) where
  length := (List.length_set ..).trans h.length
  capacity := h.capacity
  reader := h.reader
  writer := by
    show s.next s.writer_ = _
    rw [h.writer, next_mod h.length]
  le := Nat.le_succ_of_le h.le
  lt := hfree
  window := by
    have hle := h.le
    have hpos : hi % n < s.buffer_.length := by
      rw [h.length]
      exact Nat.mod_lt _ (by omega)
    rw [window_snoc _ h.le]
    show CppCores.window (fun i => (s.buffer_.set s.writer_ value)[i]?) n lo hi ++
      [(s.buffer_.set s.writer_ value)[hi % n]?] = _
    rw [h.set_writer, h.writer, List.getElem?_set_self hpos, List.map_append]
    rfl

end RepAt

/-! ## the calls -/

theorem rep_new {n : ℕ} (hn : 2 ≤ n) (zero : α) : Rep (RingBuffer.new n zero) n [] := by
  refine ⟨0, 0, List.length_replicate, rfl, (Nat.zero_mod n).symm, (Nat.zero_mod n).symm,
    Nat.le_refl 0, by omega, ?_⟩
  rw [window_empty _ (Nat.le_refl 0)]
  rfl

/-- **`push_back` does what the queue does.** -/
theorem Rep.push_back {s : RingBuffer α} {n : ℕ} {q : List α} (h : Rep s n q) (hn : 2 ≤ n)
    (value : α) :
    (s.push_back value).1 = (Fifo.call (n - 1) q (.push_back value)).1 ∧
      Rep (s.push_back value).2 n (Fifo.call (n - 1) q (.push_back value)).2 := by
  obtain ⟨lo, hi, h⟩ := h
  have hlen := h.length_eq
  have hle := h.le
  have hlt := h.lt
  by_cases hfull : s.next s.writer_ = s.reader_
  · have hq := (h.full_iff hn).mp hfull
    rw [RingBuffer.push_back, if_pos hfull, Fifo.call, if_neg (by omega)]
    exact ⟨rfl, lo, hi, h⟩
  · have hq : q.length ≠ n - 1 := fun e => hfull ((h.full_iff hn).mpr e)
    rw [RingBuffer.push_back, if_neg hfull, Fifo.call, if_pos (by omega)]
    exact ⟨rfl, lo, hi + 1, h.push_back (by omega) value⟩

/-- **After `force_push` one element is missing.** -/
theorem Rep.force_push_bad {s : RingBuffer α} {n : ℕ} {q : List α} (h : Rep s n q) (hn : 2 ≤ n)
    (value : α) :
    ¬ Agrees (s.force_push value).2 (Fifo.call (n - 1) q (.force_push value)).2 := by
  intro hag
  obtain ⟨lo, hi, h⟩ := h
  have hq := h.length_eq
  have hle := h.le
  have hlt := h.lt
  have hlen : (s.buffer_.set s.writer_ value).length = n := (List.length_set ..).trans h.length
  have hcap : s.capacity_ ≠ 0 := by rw [h.capacity]; omega
  have hcontent := congrArg List.length hag.content
  rw [RingBuffer.force_push, if_neg hcap, Fifo.call, List.length_map, List.length_append,
    List.length_singleton] at hcontent
  by_cases hfull : s.next s.writer_ = s.reader_
  · have hfq := (h.full_iff hn).mp hfull
    have hr : s.next s.reader_ = (lo + 1) % n := by rw [h.reader, next_mod h.length]
    have hc := content_eq
      (s := { s with reader_ := s.next s.reader_, buffer_ := s.buffer_.set s.writer_ value })
      hlen hr h.writer (by omega) (by omega)
    simp only [if_pos hfull] at hcontent
    rw [hc, window_length, if_pos hfq, List.length_tail] at hcontent
    omega
  · have hfq : q.length ≠ n - 1 := fun e => hfull ((h.full_iff hn).mpr e)
    have hc := content_eq (s := { s with buffer_ := s.buffer_.set s.writer_ value })
      hlen h.reader h.writer hle hlt
    simp only [if_neg hfull] at hcontent
    rw [hc, window_length, if_neg hfq] at hcontent
    omega

theorem Rep.agrees {s : RingBuffer α} {n : ℕ} {q : List α} (h : Rep s n q) (hn : 2 ≤ n) :
    Agrees s q := by
  obtain ⟨lo, hi, h⟩ := h
  exact h.agrees hn

theorem Rep.refines_calls {s : RingBuffer α} {n : ℕ} {q : List α} (h : Rep s n q) (hn : 2 ≤ n)
    (calls : List (Call α)) :
    Refines (n - 1) s q calls ↔ ∀ c ∈ calls, c.isPushBack = true := by
  induction calls generalizing s q with
  | nil => exact ⟨fun _ => by simp, fun _ => h.agrees hn⟩
  | cons c cs ih =>
    cases c with
    | push_back value =>
      obtain ⟨h1, h2⟩ := h.push_back hn value
      rw [List.forall_mem_cons, ← ih h2]
      exact ⟨fun hr => ⟨rfl, hr.2.2⟩, fun hr => ⟨h.agrees hn, h1, hr.2⟩⟩
    | force_push value =>
      constructor
      · intro hr
        exact absurd hr.2.2.agrees (h.force_push_bad hn value)
      · intro hr
        exact absurd (hr _ List.mem_cons_self) (by simp [Call.isPushBack])

/-- **A sequence of calls refines the bounded queue iff it has no `force_push`.** -/
theorem refines_iff {n : ℕ} (hn : 2 ≤ n) (zero : α) (calls : List (Call α)) :
    Refines (n - 1) (RingBuffer.new n zero) [] calls ↔ ∀ c ∈ calls, c.isPushBack = true :=
  (rep_new hn zero).refines_calls hn calls

theorem refines_push_back : Refines 2 (RingBuffer.new 3 0) []
    [.push_back 7, .push_back 8, .push_back 9] :=
  (refines_iff (by decide : 2 ≤ 3) 0 _).mpr (by decide)

/-- one `force_push` into the empty buffer of three places leaves it empty -/
theorem force_push_lost : ¬ Refines 2 (RingBuffer.new 3 0) [] [.force_push 7] := by
  intro h
  exact absurd h.2.2.content (by decide)

end
end Ring
end CppCores
