import Mathlib.Algebra.Group.Nat.Defs
import Mathlib.Logic.Function.Iterate
import CppCores.Ds.RingBuffer
import CppCores.Lib.Calls

/-!
# RingBuffer: `size`

`size` tests the sign of `writer_ - reader_`, which is a difference of `size_t` and never negative:
behind a wrapped `writer_` it answers `2 ^ 64` minus what is free.

* `steps_unwrapped`, `steps_wrapped`   the number of `next` steps from `reader_` to `writer_`;
* `Unwrapped`      `reader_` is not behind `writer_`: there `size` is right;
* `sizes_iff`      **`size` is right along the calls iff no `push_back` wraps `writer_`.**
-/

namespace CppCores
namespace Ring

/-- a difference of `size_t` -/
def minus (a b : ℕ) : ℕ := (a + 2 ^ 64 - b) % 2 ^ 64

namespace RingBuffer
variable {α : Type*}

def size (s : RingBuffer α) : ℕ :=
  if minus s.writer_ s.reader_ ≥ 0 then minus s.writer_ s.reader_
  else s.buffer_.length - s.reader_ + s.writer_

def empty (s : RingBuffer α) : Bool := s.writer_ == s.reader_

end RingBuffer

section
variable {α : Type*} {n k : ℕ} {s : RingBuffer α}

/-- `k` steps of `next` lead from `reader_` to `writer_`, and fewer do not -/
def Steps (s : RingBuffer α) (k : ℕ) : Prop :=
  s.next^[k] s.reader_ = s.writer_ ∧ ∀ j < k, s.next^[j] s.reader_ ≠ s.writer_

/-- what `size` has to be in a buffer of `n` places -/
structure SizeRight (n : ℕ) (s : RingBuffer α) : Prop where
  reader_lt : s.reader_ < n
  writer_lt : s.writer_ < n
  steps : Steps s s.size
  le : s.size ≤ n - 1
  zero : s.size = 0 ↔ s.empty = true

/-- a `push_back` that succeeds makes the buffer longer by one -/
def Grows (s : RingBuffer α) (c : Call α) : Prop :=
  ∀ value, c = .push_back value → (s.push_back value).1 = .bool true →
    (s.push_back value).2.size = s.size + 1

/-- a `push_back` at the last place finds `reader_` at the first, and is refused -/
def NoWrap (n : ℕ) (s : RingBuffer α) (c : Call α) : Prop :=
  c.isPushBack = true → s.writer_ + 1 = n → s.reader_ = 0

instance (s : RingBuffer α) (c : Call α) : Decidable (NoWrap n s c) :=
  inferInstanceAs (Decidable (_ → _ → _))

def RingBuffer.after (s : RingBuffer α) (c : Call α) : Option (RingBuffer α) := some (s.call c).2

/-! ## the steps of `next` -/

theorem Steps.unique {j : ℕ} (hj : Steps s j) (hk : Steps s k) : j = k := by
  rcases Nat.lt_trichotomy j k with h | h | h
  · exact absurd hj.1 (hk.2 j h)
  · exact h
  · exact absurd hk.1 (hj.2 k h)

theorem iterate_next (hlen : s.buffer_.length = n) (i k : ℕ) :
    s.next^[k] (i % n) = (i + k) % n := by
  induction k with
  | zero => rfl
  | succ k ih => rw [Function.iterate_succ_apply', ih, next_mod hlen, Nat.add_assoc]

theorem steps_of {lo hi : ℕ} (hlen : s.buffer_.length = n) (hr : s.reader_ = lo % n)
    (hw : s.writer_ = hi % n) (hle : lo ≤ hi) (hlt : hi < lo + n) : Steps s (hi - lo) := by
  constructor
  · rw [hr, hw, iterate_next hlen, Nat.add_sub_cancel' hle]
  · intro j hj
    rw [hr, hw, iterate_next hlen]
    exact mod_ne_of_lt_lap (by omega) (by omega)

theorem steps_unwrapped (hlen : s.buffer_.length = n) (hle : s.reader_ ≤ s.writer_)
    (hw : s.writer_ < n) : Steps s (s.writer_ - s.reader_) :=
  steps_of hlen (Nat.mod_eq_of_lt (Nat.lt_of_le_of_lt hle hw)).symm (Nat.mod_eq_of_lt hw).symm hle
    (by omega)

theorem steps_wrapped (hlen : s.buffer_.length = n) (hlt : s.writer_ < s.reader_)
    (hr : s.reader_ < n) : Steps s (s.writer_ + n - s.reader_) := by
  refine steps_of hlen (Nat.mod_eq_of_lt hr).symm ?_ (by omega) (by omega)
  rw [Nat.add_mod_right, Nat.mod_eq_of_lt (by omega)]

/-! ## `size` -/

theorem minus_of_le {a b : ℕ} (h : b ≤ a) (ha : a < 2 ^ 64) : minus a b = a - b := by
  unfold minus
  have e : a + 2 ^ 64 - b = a - b + 2 ^ 64 := by omega
  rw [e, Nat.add_mod_right, Nat.mod_eq_of_lt (by omega)]

theorem minus_of_lt {a b : ℕ} (h : a < b) : minus a b = 2 ^ 64 + a - b := by
  unfold minus
  rw [Nat.add_comm a, Nat.mod_eq_of_lt (by omega)]

theorem size_eq (s : RingBuffer α) : s.size = minus s.writer_ s.reader_ := if_pos (Nat.zero_le _)

/-- a buffer of `n` places whose `reader_` is not behind its `writer_` -/
structure Unwrapped (n : ℕ) (s : RingBuffer α) : Prop where
  length : s.buffer_.length = n
  capacity : s.capacity_ = n
  le : s.reader_ ≤ s.writer_
  lt : s.writer_ < n

theorem unwrapped_new (hn : 2 ≤ n) (zero : α) : Unwrapped n (RingBuffer.new n zero) :=
  ⟨List.length_replicate, rfl, Nat.le_refl 0, Nat.lt_of_lt_of_le Nat.two_pos hn⟩

namespace Unwrapped

theorem size (h : Unwrapped n s) (hb : n < 2 ^ 64) : s.size = s.writer_ - s.reader_ := by
  have hlt := h.lt
  rw [size_eq, minus_of_le h.le (by omega)]

/-- **`size` is right while nothing is wrapped.** -/
theorem sizeRight (h : Unwrapped n s) (hb : n < 2 ^ 64) : SizeRight n s where
  reader_lt := Nat.lt_of_le_of_lt h.le h.lt
  writer_lt := h.lt
  steps := by
    rw [h.size hb]
    exact steps_unwrapped h.length h.le h.lt
  le := by
    have hlt := h.lt
    rw [h.size hb]
    omega
  zero := by
    have hle := h.le
    rw [h.size hb, RingBuffer.empty, beq_iff_eq]
    omega

theorem next_writer (h : Unwrapped n s) :
    s.next s.writer_ = if s.writer_ + 1 = n then 0 else s.writer_ + 1 := by
  have hlt := h.lt
  rw [RingBuffer.next, h.length]
  split
  · next e => rw [e, Nat.mod_self]
  · exact Nat.mod_eq_of_lt (by omega)

/-- a `push_back` that does not wrap `writer_` is refused or moves it by one -/
theorem push_back (h : Unwrapped n s) (value : α)
    (hc : s.writer_ + 1 = n → s.reader_ = 0) :
    s.push_back value = (.bool false, s) ∨ s.writer_ + 1 < n ∧ s.push_back value =
      (.bool true, { s with
        buffer_ := s.buffer_.set s.writer_ value
        writer_ := s.writer_ + 1 }) := by
  have hlt := h.lt
  have hle := h.le
  rw [RingBuffer.push_back, h.next_writer]
  by_cases he : s.writer_ + 1 = n
  · rw [if_pos he, if_pos (hc he).symm]
    exact .inl rfl
  · rw [if_neg he, if_neg (by omega)]
    exact .inr ⟨by omega, rfl⟩

/-- `force_push` evicts only in a full buffer, whose `reader_` is then the first place -/
theorem force_push (h : Unwrapped n s) (hn : 2 ≤ n) (value : α) :
    Unwrapped n (s.force_push value).2 := by
  have hlt := h.lt
  have hle := h.le
  have hcap : s.capacity_ ≠ 0 := by
    rw [h.capacity]
    omega
  rw [RingBuffer.force_push, if_neg hcap]
  refine ⟨(List.length_set ..).trans h.length, h.capacity, ?_, h.lt⟩
  show (if s.next s.writer_ = s.reader_ then s.next s.reader_ else s.reader_) ≤ s.writer_
  by_cases hfull : s.next s.writer_ = s.reader_
  · rw [if_pos hfull]
    rw [h.next_writer] at hfull
    have h0 : s.writer_ + 1 = n ∧ s.reader_ = 0 := by
      split at hfull <;> omega
    rw [RingBuffer.next, h.length, h0.2, Nat.mod_eq_of_lt (by omega)]
    omega
  · rw [if_neg hfull]
    exact hle

theorem call (h : Unwrapped n s) (hn : 2 ≤ n) (hb : n < 2 ^ 64) {c : Call α} (hc : NoWrap n s c) :
    Grows s c ∧ Unwrapped n (s.call c).2 := by
  cases c with
  | push_back value =>
    rcases h.push_back value (hc rfl) with he | ⟨hfree, he⟩
    · refine ⟨fun v hv ht => ?_, ?_⟩
      · obtain rfl := Call.push_back.inj hv
        rw [he] at ht
        cases ht
      · show Unwrapped n (s.push_back value).2
        rw [he]
        exact h
    · have hle := h.le
      have hnew : Unwrapped n (s.push_back value).2 := by
        rw [he]
        exact ⟨(List.length_set ..).trans h.length, h.capacity, Nat.le_succ_of_le hle, hfree⟩
      refine ⟨fun v hv _ => ?_, hnew⟩
      obtain rfl := Call.push_back.inj hv
      rw [hnew.size hb, h.size hb, he]
      show s.writer_ + 1 - s.reader_ = s.writer_ - s.reader_ + 1
      omega
  | force_push value => exact ⟨nofun, h.force_push hn value⟩

/-- **A `push_back` that wraps `writer_` leaves a wrong `size`.** -/
theorem wrapped (h : Unwrapped n s) (hb : n < 2 ^ 64) {c : Call α} (hc : ¬ NoWrap n s c) :
    ¬ SizeRight n (s.call c).2 := by
  intro hright
  unfold NoWrap at hc
  push Not at hc
  obtain ⟨hpush, hlast, hr⟩ := hc
  have hreader : s.reader_ < n := Nat.lt_of_le_of_lt h.le h.lt
  cases c with
  | force_push value => cases hpush
  | push_back value =>
    have he : (s.push_back value).2 = { s with
        buffer_ := s.buffer_.set s.writer_ value
        writer_ := 0 } := by
      rw [RingBuffer.push_back, h.next_writer, if_pos hlast, if_neg (Ne.symm hr)]
    have hlen : (s.buffer_.set s.writer_ value).length = n := (List.length_set ..).trans h.length
    have hsteps : Steps (s.push_back value).2 (0 + n - s.reader_) := by
      rw [he]
      exact steps_wrapped hlen (Nat.pos_of_ne_zero hr) hreader
    have hsize : (s.push_back value).2.size = 2 ^ 64 + 0 - s.reader_ := by
      rw [size_eq, he]
      exact minus_of_lt (Nat.pos_of_ne_zero hr)
    have := hright.steps.unique hsteps
    have h2 : (s.call (.push_back value)).2.size = 2 ^ 64 + 0 - s.reader_ := hsize
    omega

end Unwrapped

/-- **`size` is right along the calls iff no `push_back` wraps `writer_`.** -/
theorem sizes_iff (hn : 2 ≤ n) (hb : n < 2 ^ 64) (zero : α) (calls : List (Call α)) :
    Along RingBuffer.after (SizeRight n) Grows (RingBuffer.new n zero) calls ↔
      Each RingBuffer.after (NoWrap n) (RingBuffer.new n zero) calls := by
  refine Along.iff (I := Unwrapped n) (fun s h => h.sizeRight hb) ?_ ?_ (unwrapped_new hn zero) calls
  · intro s c h hc
    obtain ⟨hgrows, hnext⟩ := h.call hn hb hc
    exact ⟨hgrows, fun s' hs' => Option.some.inj hs' ▸ hnext⟩
  · intro s c h hc _
    exact ⟨_, rfl, h.wrapped hb hc⟩

/-- three places: two values, a third is refused, then the oldest is evicted -/
theorem sizes_four : Along RingBuffer.after (SizeRight 3) Grows (RingBuffer.new 3 0)
    [.push_back 7, .push_back 8, .push_back 9, .force_push 9] :=
  (sizes_iff (by decide : 2 ≤ 3) (by decide) 0 _).mpr (by decide)

/-- two places: the second is evicted, and the next `push_back` wraps `writer_` -/
theorem not_sizes : ¬ ∀ (n : ℕ) (calls : List (Call ℕ)), 2 ≤ n → n < 2 ^ 64 →
    Along RingBuffer.after (SizeRight n) Grows (RingBuffer.new n 0) calls := by
  intro hall
  have h0 := hall 2 [.push_back 7, .force_push 8, .push_back 9] (by decide) (by decide)
  have h1 := h0.2.2 _ rfl
  have h2 := h1.2.2 _ rfl
  have h3 := h2.2.2 _ rfl
  exact absurd h3.here.le (by decide)

end
end Ring
end CppCores
