import CppCores.Lib.Blocks
import CppCores.Ds.RingBuffer.Size

/-!
# RingBuffer: `resize`

`resize` copies the content to the front of a new vector, in one piece or, if it wraps, in two, and
sets `writer_` to `writer_ - reader_`.  A vector has at most `max_size` places.

* `resize_too_long`   more than that: the new vector throws, and the buffer stays as it is;
* `resize_start`      both indices at 0: the buffer is as before, and larger;
* `resize_overrun`    `writer_` past the start, not wrapped: the piece ends at `end() + writer_`,
                      outside of the old vector;
* `resize_wrapped`    wrapped: the two pieces are right, but the difference of `size_t` is not the
                      number of elements;
* `resizes_iff`       **`resize` is right along the calls iff it never enlarges a buffer whose indices
                      are not both at 0, and never past `max_size`.**
-/

namespace CppCores
namespace Ring

/-- `std::copy(first, last, d)`, with what `d` is behind the copy: nothing if it leaves a vector -/
def copy {α : Type*} (src : List α) (first last : ℕ) (dst : List α) (d : ℕ) :
    Option (List α × ℕ) :=
  if last ≤ src.length ∧ d + (last - first) ≤ dst.length then
    some (patch dst d ((src.take last).drop first), d + (last - first))
  else none

/-- a call of the buffer or of `resize` -/
inductive ResizeCall (α : Type*) where
  | call (c : Call α)
  | resize (new_capacity : UInt64)
  deriving DecidableEq

namespace RingBuffer
variable {α : Type*}

/-- the copies of `resize`, out of `buffer_` to the front of `new_buffer` -/
def copyContent (s : RingBuffer α) (new_buffer : List α) : Option (List α × ℕ) :=
  if s.writer_ ≥ s.reader_ then
    copy s.buffer_ s.reader_ (s.buffer_.length + s.writer_) new_buffer 0
  else
    (copy s.buffer_ s.reader_ s.buffer_.length new_buffer 0).bind fun x =>
      copy s.buffer_ 0 s.writer_ x.1 x.2

/-- `zero` is the value with which `new_buffer.resize(new_capacity)` fills the places; nothing if a
copy leaves a vector -/
def resize (max_size : ℕ) (s : RingBuffer α) (zero : α) (new_capacity : ℕ) :
    Option (Answer × RingBuffer α) :=
  if new_capacity < s.capacity_ then some (.void, s)
  else if max_size < new_capacity then some (.length_error, s)
  else
    (s.copyContent (List.replicate new_capacity zero)).map fun x =>
      (.void,
        { buffer_ := x.1
          reader_ := 0
          writer_ := minus s.writer_ s.reader_
          capacity_ := new_capacity })

def callOrResize (max_size : ℕ) (zero : α) (s : RingBuffer α) : ResizeCall α → Option (RingBuffer α)
  | .call c => some (s.call c).2
  | .resize new_capacity => (s.resize max_size zero new_capacity.toNat).map Prod.snd

end RingBuffer

section
variable {α : Type*} {max_size n c : ℕ} {s : RingBuffer α} {zero : α}

/-- what `resize(new_capacity)` has to do -/
structure Resizes (max_size : ℕ) (zero : α) (s : RingBuffer α) (new_capacity : ℕ) : Prop where
  smaller : new_capacity < s.capacity_ → s.resize max_size zero new_capacity = some (.void, s)
  kept : s.capacity_ ≤ new_capacity → ∃ s', s.resize max_size zero new_capacity = some (.void, s') ∧
    s'.content = s.content ∧ s'.reader_ = 0 ∧ s'.writer_ = s.content.length ∧
    s'.capacity_ = new_capacity

def ResizeRight (max_size : ℕ) (zero : α) (s : RingBuffer α) (call : ResizeCall α) : Prop :=
  ∀ new_capacity, call = .resize new_capacity → Resizes max_size zero s new_capacity.toNat

/-- a `resize` that enlarges the buffer finds both indices at 0, and the vector can be as long -/
def AtStart (max_size : ℕ) (s : RingBuffer α) : ResizeCall α → Prop
  | .call _ => True
  | .resize new_capacity => s.capacity_ ≤ new_capacity.toNat →
      s.reader_ = 0 ∧ s.writer_ = 0 ∧ new_capacity.toNat ≤ max_size

instance (s : RingBuffer α) (call : ResizeCall α) : Decidable (AtStart max_size s call) :=
  match call with
  | .call _ => inferInstanceAs (Decidable True)
  | .resize _ => inferInstanceAs (Decidable (_ → _))

/-- the places and the indices of a buffer -/
structure Sized (s : RingBuffer α) : Prop where
  two_le : 2 ≤ s.buffer_.length
  lt : s.buffer_.length < 2 ^ 64
  capacity : s.capacity_ = s.buffer_.length
  reader : s.reader_ < s.buffer_.length
  writer : s.writer_ < s.buffer_.length

theorem content_empty (h : s.reader_ = s.writer_) : s.content = [] := by
  unfold RingBuffer.content
  cases s.buffer_.length with
  | zero => rfl
  | succ k => exact if_pos h

namespace Sized

theorem next_lt (h : Sized s) (i : ℕ) : s.next i < s.buffer_.length :=
  Nat.mod_lt _ (Nat.lt_of_lt_of_le Nat.two_pos h.two_le)

theorem call (h : Sized s) (x : Call α) : Sized (s.call x).2 := by
  have hlen : ∀ value, (s.buffer_.set s.writer_ value).length = s.buffer_.length :=
    fun value => List.length_set ..
  cases x with
  | push_back value =>
    show Sized (s.push_back value).2
    unfold RingBuffer.push_back
    split
    · exact h
    · exact ⟨(hlen value).symm ▸ h.two_le, (hlen value).symm ▸ h.lt, h.capacity.trans (hlen value).symm,
        (hlen value).symm ▸ h.reader, (hlen value).symm ▸ h.next_lt _⟩
  | force_push value =>
    show Sized (s.force_push value).2
    unfold RingBuffer.force_push
    split
    · exact h
    · refine ⟨(hlen value).symm ▸ h.two_le, (hlen value).symm ▸ h.lt, h.capacity.trans (hlen value).symm,
        (hlen value).symm ▸ ?_, (hlen value).symm ▸ h.writer⟩
      show (if _ then s.next s.reader_ else s.reader_) < s.buffer_.length
      split
      · exact h.next_lt _
      · exact h.reader

theorem new (hn : 2 ≤ n) (hb : n < 2 ^ 64) (zero : α) : Sized (RingBuffer.new n zero) := by
  have hlen : (RingBuffer.new n zero).buffer_.length = n := List.length_replicate
  have hpos : 0 < n := Nat.lt_of_lt_of_le Nat.two_pos hn
  exact ⟨hlen.symm ▸ hn, hlen.symm ▸ hb, hlen.symm, hlen.symm ▸ hpos, hlen.symm ▸ hpos⟩

/-! ## `resize` -/

theorem resize_too_long (hc : s.capacity_ ≤ c) (hmax : max_size < c) :
    s.resize max_size zero c = some (.length_error, s) := by
  rw [RingBuffer.resize, if_neg (Nat.not_lt_of_le hc), if_pos hmax]

theorem resize_start (h : Sized s) (hc : s.capacity_ ≤ c) (hmax : c ≤ max_size) (hr : s.reader_ = 0)
    (hw : s.writer_ = 0) : s.resize max_size zero c =
      some (.void, ⟨patch (List.replicate c zero) 0 s.buffer_, 0, 0, c⟩) := by
  have hfit : s.buffer_.length + 0 ≤ s.buffer_.length ∧
      0 + (s.buffer_.length + 0 - 0) ≤ (List.replicate c zero).length := by
    have := h.capacity
    rw [List.length_replicate]
    omega
  rw [RingBuffer.resize, if_neg (Nat.not_lt_of_le hc), if_neg (Nat.not_lt_of_le hmax),
    RingBuffer.copyContent, hr, hw, if_pos (Nat.le_refl 0), copy, if_pos hfit, Nat.add_zero,
    List.take_length, List.drop_zero]
  rfl

/-- the copy of a piece that is not wrapped ends behind the vector by `writer_` -/
theorem resize_overrun (hc : s.capacity_ ≤ c) (hmax : c ≤ max_size) (hle : s.reader_ ≤ s.writer_)
    (hw : s.writer_ ≠ 0) : s.resize max_size zero c = none := by
  have hout : ¬ (s.buffer_.length + s.writer_ ≤ s.buffer_.length ∧
      0 + (s.buffer_.length + s.writer_ - s.reader_) ≤ (List.replicate c zero).length) := by
    omega
  rw [RingBuffer.resize, if_neg (Nat.not_lt_of_le hc), if_neg (Nat.not_lt_of_le hmax),
    RingBuffer.copyContent, if_pos hle, copy, if_neg hout]
  rfl

/-- a wrapped content is copied in two pieces, and `writer_` is not their length -/
theorem resize_wrapped (h : Sized s) (zero : α) (hc : s.capacity_ ≤ c) (hmax : c ≤ max_size)
    (hlt : s.writer_ < s.reader_) : ∃ buffer, s.resize max_size zero c =
      some (.void, ⟨buffer, 0, 2 ^ 64 + s.writer_ - s.reader_, c⟩) := by
  have hr := h.reader
  have hcap := h.capacity
  have hnew : (List.replicate c zero).length = c := List.length_replicate
  have hfit : s.buffer_.length ≤ s.buffer_.length ∧
      0 + (s.buffer_.length - s.reader_) ≤ (List.replicate c zero).length := by omega
  have hpiece : ((s.buffer_.take s.buffer_.length).drop s.reader_).length =
      s.buffer_.length - s.reader_ := by rw [List.take_length, List.length_drop]
  have hfirst : (patch (List.replicate c zero) 0
      ((s.buffer_.take s.buffer_.length).drop s.reader_)).length = c := by
    rw [length_patch (by omega), hnew]
  have hsecond : s.writer_ ≤ s.buffer_.length ∧
      0 + (s.buffer_.length - s.reader_) + (s.writer_ - 0) ≤ (patch (List.replicate c zero) 0
        ((s.buffer_.take s.buffer_.length).drop s.reader_)).length := by omega
  rw [RingBuffer.resize, if_neg (Nat.not_lt_of_le hc), if_neg (Nat.not_lt_of_le hmax),
    RingBuffer.copyContent, if_neg (Nat.not_le_of_lt hlt), copy, if_pos hfit, Option.bind_some, copy,
    if_pos hsecond, minus_of_lt hlt]
  exact ⟨_, rfl⟩

/-- **`resize` is right in a buffer whose indices are at 0**, or if it does nothing. -/
theorem resizes (h : Sized s)
    (hs : s.capacity_ ≤ c → s.reader_ = 0 ∧ s.writer_ = 0 ∧ c ≤ max_size) :
    Resizes max_size zero s c where
  smaller hlt := if_pos hlt
  kept hle := by
    obtain ⟨hr, hw, hmax⟩ := hs hle
    have hempty : s.content = [] := content_empty (hr.trans hw.symm)
    refine ⟨_, h.resize_start hle hmax hr hw, ?_, rfl, ?_, rfl⟩
    · rw [hempty]
      exact content_empty rfl
    · rw [hempty]
      rfl

/-- **Elsewhere it is not.** -/
theorem start_of_resizes (h : Sized s) (hres : Resizes max_size zero s c) (hc : s.capacity_ ≤ c) :
    s.reader_ = 0 ∧ s.writer_ = 0 ∧ c ≤ max_size := by
  obtain ⟨s', hs', -, -, hwriter, -⟩ := hres.kept hc
  have hr := h.reader
  have hb := h.lt
  have hmax : c ≤ max_size := by
    by_contra hlong
    have he : s.resize max_size zero c = some (.length_error, s) :=
      resize_too_long hc (Nat.lt_of_not_le hlong)
    cases (Prod.mk.inj (Option.some.inj (he.symm.trans hs'))).1
  rcases Nat.lt_or_ge s.writer_ s.reader_ with hlt | hle
  · obtain ⟨buffer, he⟩ := h.resize_wrapped zero hc hmax hlt
    have hw' : s'.writer_ = 2 ^ 64 + s.writer_ - s.reader_ := by
      rw [← (Prod.mk.inj (Option.some.inj (he.symm.trans hs'))).2]
    have hlen : s.content.length = s.writer_ + s.buffer_.length - s.reader_ := by
      have hmod : s.writer_ = (s.writer_ + s.buffer_.length) % s.buffer_.length := by
        rw [Nat.add_mod_right, Nat.mod_eq_of_lt h.writer]
      rw [content_eq rfl (Nat.mod_eq_of_lt hr).symm hmod (by omega) (by omega), window_length]
    omega
  · have hw : s.writer_ = 0 := by
      by_contra hne
      rw [resize_overrun hc hmax hle hne] at hs'
      cases hs'
    exact ⟨by omega, hw, hmax⟩

end Sized

/-- **`resize` is right along the calls iff it never enlarges a buffer whose indices are not both
at 0, and never past `max_size`.** -/
theorem resizes_iff (hn : 2 ≤ n) (hmax : n ≤ max_size) (hb : max_size < 2 ^ 64) (zero : α)
    (calls : List (ResizeCall α)) :
    Along (RingBuffer.callOrResize max_size zero) (fun _ => True) (ResizeRight max_size zero)
        (RingBuffer.new n zero) calls ↔
      Each (RingBuffer.callOrResize max_size zero) (AtStart max_size) (RingBuffer.new n zero)
        calls := by
  have hnew : Sized (RingBuffer.new n zero) := .new hn (Nat.lt_of_le_of_lt hmax hb) zero
  refine Along.iff (I := Sized) (fun _ _ => trivial) ?_ ?_ hnew calls
  · intro s x h hx
    cases x with
    | call x => exact ⟨nofun, fun s' hs' => Option.some.inj hs' ▸ h.call x⟩
    | resize new_capacity =>
      refine ⟨fun k hk => ResizeCall.resize.inj hk ▸ h.resizes hx, fun s' hs' => ?_⟩
      obtain ⟨r, hres, rfl⟩ := Option.map_eq_some_iff.mp hs'
      rcases Nat.lt_or_ge new_capacity.toNat s.capacity_ with hlt | hle
      · obtain rfl := Option.some.inj ((if_pos hlt).symm.trans hres)
        exact h
      · obtain ⟨hr, hw, hlong⟩ := hx hle
        rw [h.resize_start hle hlong hr hw] at hres
        obtain rfl := Option.some.inj hres
        have hcap := h.capacity
        have htwo := h.two_le
        have hlen : (patch (List.replicate new_capacity.toNat zero) 0 s.buffer_).length =
            new_capacity.toNat := by
          rw [length_patch (by rw [List.length_replicate]; omega), List.length_replicate]
        exact
          { two_le := by rw [hlen]; omega
            lt := by rw [hlen]; exact new_capacity.toNat_lt
            capacity := hlen.symm
            reader := by rw [hlen]; show 0 < _; omega
            writer := by rw [hlen]; show 0 < _; omega }
  · intro s x h hx hright
    cases x with
    | call x => exact absurd trivial hx
    | resize new_capacity =>
      exact absurd (fun hc => h.start_of_resizes (hright _ rfl) hc) hx

/-- it is enlarged while empty, filled, and not made smaller -/
theorem resizes_five : Along (RingBuffer.callOrResize 100 0) (fun _ => True) (ResizeRight 100 0)
    (RingBuffer.new 2 0)
    [.resize 4, .call (.push_back 7), .call (.push_back 8), .call (.force_push 9), .resize 3] :=
  (resizes_iff (by decide : 2 ≤ 2) (by decide : 2 ≤ 100) (by decide) 0 _).mpr (by decide)

/-- one element in two places; the copy of `resize(2)` goes on behind the vector -/
theorem not_resizes : ¬ ∀ (max_size n : ℕ) (calls : List (ResizeCall ℕ)), 2 ≤ n → n ≤ max_size →
    max_size < 2 ^ 64 → Along (RingBuffer.callOrResize max_size 0) (fun _ => True)
      (ResizeRight max_size 0) (RingBuffer.new n 0) calls := by
  intro hall
  have h0 := hall 100 2 [.call (.push_back 7), .resize 2] (by decide) (by decide) (by decide)
  have h1 := h0.2.2 _ rfl
  obtain ⟨s', hs', -⟩ := (h1.2.1 2 rfl).kept (by decide)
  have hnone : ((RingBuffer.new 2 0).push_back 7).2.resize 100 0 2 = none := by decide
  cases hnone.symm.trans hs'

end
end Ring
end CppCores
