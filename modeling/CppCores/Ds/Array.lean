import Mathlib.Algebra.Group.Nat.Defs
import CppCores.Lib.Calls

/-!
# Array: a length and a block

`Array<T>` keeps its length apart from the block that it owns.  The program's objects are a list, and
a call makes a new one or changes one of them.

* `Sound`          the block has as many elements as the length says;
* `move_unsound`   what is left behind by a move keeps its length, and owns nothing;
* `not_inserts`    `insert` does not compile;
* `arrays_iff`     **all objects stay sound, and `insert` does what it should, iff it is never called
                   and only empty arrays are moved.**
-/

namespace CppCores
namespace Arrays

/-- what a call may end with instead of a value -/
inductive Fault where
  | outOfRange (what : String)
  /-- an access to what is not owned -/
  | invalid
  /-- the call does not compile -/
  | illFormed
  deriving DecidableEq, Repr

/-- `Array<T>`; `data_` is null or owns a block -/
structure Array (T : Type) where
  size_ : UInt64
  data_ : Option (List T)
  deriving DecidableEq, Repr

namespace Array
variable {T : Type}

/-- the elements that are owned -/
def owned (a : Array T) : List T := a.data_.getD []

/-- `AssertIndex` -/
def assertIndex (a : Array T) (n : UInt64) : Except Fault Unit :=
  if n ≥ a.size_ then .error (.outOfRange "Array::at") else .ok ()

/-- `operator[]` and `at` -/
def access (a : Array T) (n : UInt64) : Except Fault T := do
  a.assertIndex n
  match a.owned[n.toNat]? with
  | some v => return v
  | none => throw .invalid

/-- `Array(const std::size_t N)`; `new T[N]` makes `N` default elements -/
def ofSize [Inhabited T] (N : UInt64) : Array T :=
  ⟨N, if N > 0 then some (List.replicate N.toNat default) else none⟩

/-- `Array(const T *data, const uint64_t N)` -/
def ofData (data : List T) (N : UInt64) : Except Fault (Array T) :=
  if N.toNat ≤ data.length then .ok ⟨N, some (data.take N.toNat)⟩ else .error .invalid

/-- `Array(const Array &other)` copies from `begin()` to `end()`, which is `size_` further -/
def copy (other : Array T) : Except Fault (Array T) :=
  if other.size_.toNat ≤ other.owned.length then
    .ok ⟨other.size_, some (other.owned.take other.size_.toNat)⟩
  else .error .invalid

/-- `Array(Array &&other)`: the new object, and what `other` is then -/
def move (other : Array T) : Array T × Array T :=
  (⟨other.size_, other.data_⟩, ⟨other.size_, none⟩)

/-- `insert` asks the `std::unique_ptr<T[]>` that it has moved `data_` to for `begin()` and `end()`,
which are not there: for no `T` does a call compile -/
def insert (_ : Array T) (_pos : UInt64) (_val : T) : Except Fault (Array T) := .error .illFormed

end Array

/-- a constructor, or `insert` in the object `i` -/
inductive Call (T : Type) where
  | ofSize (N : UInt64)
  | ofData (data : List T) (N : UInt64)
  | copy (i : ℕ)
  | move (i : ℕ)
  | insert (i : ℕ) (pos : UInt64) (val : T)
  deriving DecidableEq, Repr

section
variable {T : Type} [Inhabited T]

/-- the objects after a call; an exception of `insert` changes nothing, another fault is the end -/
def step (objects : List (Array T)) : Call T → Option (List (Array T))
  | .ofSize N => some (objects ++ [Array.ofSize N])
  | .ofData data N => (Array.ofData data N).toOption.map fun a => objects ++ [a]
  | .copy i => objects[i]?.bind fun other => other.copy.toOption.map fun a => objects ++ [a]
  | .move i => objects[i]?.map fun other => objects.set i other.move.2 ++ [other.move.1]
  | .insert i pos val =>
    objects[i]?.bind fun a =>
      match a.insert pos val with
      | .ok a' => some (objects.set i a')
      | .error (.outOfRange _) => some objects
      | .error _ => none

end

/-! ## what is asked of the objects and of insert -/

section
variable {T : Type} {a a' : Array T} {objects : List (Array T)} {pos : UInt64} {val : T}

/-- exactly `size_` elements are owned, and a checked access finds one of them -/
structure Sound (a : Array T) : Prop where
  owned : a.owned.length = a.size_.toNat
  not_null : 0 < a.size_ → a.data_ ≠ none
  access : ∀ n, n < a.size_ → ∃ v, a.owned[n.toNat]? = some v ∧ a.access n = .ok v

/-- `insert` puts the element in its place, or throws and changes nothing -/
def Inserts [Inhabited T] (objects : List (Array T)) (c : Call T) : Prop :=
  ∀ i pos val a, c = .insert i pos val → objects[i]? = some a →
    (pos < a.size_ → ∃ a', a.insert pos val = .ok a' ∧
      a'.owned = a.owned.take pos.toNat ++ [val] ++ a.owned.drop pos.toNat ∧
      a'.size_.toNat = a.size_.toNat + 1) ∧
    (a.size_ ≤ pos → a.insert pos val = .error (.outOfRange "Array::at") ∧
      step objects c = some objects)

/-- only empty arrays are moved, and `insert` is called in no object -/
def Keeps (objects : List (Array T)) : Call T → Prop
  | .move i => ∀ a ∈ objects[i]?, a.size_ = 0
  | .insert i _ _ => objects[i]? = none
  | _ => True

instance Keeps.decidable (objects : List (Array T)) : ∀ c, Decidable (Keeps objects c)
  | .move i => inferInstanceAs (Decidable (∀ a ∈ objects[i]?, a.size_ = 0))
  | .insert i _ _ => decidable_of_iff (objects[i]?.isNone = true) Option.isNone_iff_eq_none
  | .ofSize _ => .isTrue trivial
  | .ofData _ _ => .isTrue trivial
  | .copy _ => .isTrue trivial

/-! ## one object -/

theorem assertIndex_ok (h : pos < a.size_) : a.assertIndex pos = .ok () :=
  if_neg (UInt64.not_le.mpr h)

theorem Sound.of_owned (h : a.owned.length = a.size_.toNat) : Sound a where
  owned := h
  not_null := by
    intro hpos hnull
    have hlt : 0 < a.size_.toNat := UInt64.lt_iff_toNat_lt.mp hpos
    rw [Array.owned, hnull] at h
    exact absurd h (Nat.ne_of_lt hlt)
  access := by
    intro n hn
    have hlt : n.toNat < a.owned.length := h ▸ UInt64.lt_iff_toNat_lt.mp hn
    refine ⟨_, List.getElem?_eq_getElem hlt, ?_⟩
    rw [Array.access, assertIndex_ok hn, List.getElem?_eq_getElem hlt]
    rfl

theorem ok_of_toOption {ε α : Type} {x : Except ε α} {v : α} (h : x.toOption = some v) :
    x = .ok v := by
  cases x with
  | error e => cases h
  | ok w => exact congrArg Except.ok (Option.some.inj h)

theorem sound_ofSize [Inhabited T] (N : UInt64) : Sound (Array.ofSize N : Array T) := by
  refine .of_owned ?_
  unfold Array.ofSize Array.owned
  split
  · exact List.length_replicate
  · rename_i hz
    exact (Nat.eq_zero_of_not_pos fun hp => hz (UInt64.lt_iff_toNat_lt.mpr hp)).symm

theorem sound_ofData {data : List T} {N : UInt64} (h : Array.ofData data N = .ok a) : Sound a := by
  unfold Array.ofData at h
  split at h
  · rename_i hle
    cases h
    exact .of_owned (List.length_take_of_le hle)
  · cases h

theorem sound_copy {other : Array T} (h : other.copy = .ok a) : Sound a := by
  unfold Array.copy at h
  split at h
  · rename_i hle
    cases h
    exact .of_owned (List.length_take_of_le hle)
  · cases h

/-- **What is left behind by a move keeps its length.** -/
theorem move_unsound (h : a.size_ ≠ 0) : ¬ Sound a.move.2 := by
  intro hs
  have hlen : 0 = a.size_.toNat := hs.owned
  exact h (UInt64.toNat_inj.mp hlen.symm)

theorem move_empty (h : a.size_ = 0) : Sound a.move.2 := by
  refine .of_owned ?_
  show 0 = a.size_.toNat
  rw [h]
  rfl

theorem sound_moved (h : Sound a) : Sound a.move.1 := .of_owned h.owned

variable [Inhabited T]

/-! ## all objects -/

/-- **`insert` in an object is not what it should be**: it makes the array longer or throws. -/
theorem not_inserts {i : ℕ} (ha : objects[i]? = some a) (pos : UInt64) (val : T) :
    ¬ Inserts objects (.insert i pos val) := by
  intro h
  obtain ⟨hin, hout⟩ := h i pos val a rfl ha
  by_cases hpos : pos < a.size_
  · obtain ⟨a', ha', -⟩ := hin hpos
    cases ha'
  · cases (hout (UInt64.not_lt.mp hpos)).1

omit [Inhabited T] in
theorem sound_append (h : ∀ b ∈ objects, Sound b) (ha : Sound a) : ∀ b ∈ objects ++ [a], Sound b := by
  intro b hb
  rcases List.mem_append.mp hb with hb | hb
  · exact h b hb
  · rw [List.mem_singleton.mp hb]
    exact ha

/-- **A call that meets its condition keeps all objects sound.** -/
theorem step_sound (h : ∀ b ∈ objects, Sound b) {c : Call T} (hc : Keeps objects c)
    {objects' : List (Array T)} (hs : step objects c = some objects') : ∀ b ∈ objects', Sound b := by
  cases c with
  | ofSize N =>
    cases hs
    exact sound_append h (sound_ofSize N)
  | ofData data N =>
    obtain ⟨a, ha, rfl⟩ := Option.map_eq_some_iff.mp hs
    exact sound_append h (sound_ofData (ok_of_toOption ha))
  | copy i =>
    obtain ⟨other, -, hs⟩ := Option.bind_eq_some_iff.mp hs
    obtain ⟨a, ha, rfl⟩ := Option.map_eq_some_iff.mp hs
    exact sound_append h (sound_copy (ok_of_toOption ha))
  | move i =>
    obtain ⟨other, ho, rfl⟩ := Option.map_eq_some_iff.mp hs
    refine sound_append (fun b hb => ?_) (sound_moved (h other (List.mem_of_getElem? ho)))
    rcases List.mem_or_eq_of_mem_set hb with hb | rfl
    · exact h b hb
    · exact move_empty (hc other ho)
  | insert i pos val =>
    obtain ⟨a, ha, -⟩ := Option.bind_eq_some_iff.mp hs
    cases ha.symm.trans hc

theorem step_move {i : ℕ} (ha : objects[i]? = some a) (hsize : a.size_ ≠ 0) :
    ∃ objects', step objects (.move i) = some objects' ∧ ¬ ∀ b ∈ objects', Sound b := by
  refine ⟨objects.set i a.move.2 ++ [a.move.1], ?_, fun h => move_unsound hsize (h _ ?_)⟩
  · rw [step, ha]
    rfl
  · have hi := (List.getElem?_eq_some_iff.mp ha).1
    exact List.mem_append_left _ (List.mem_set hi _)

/-- **All objects stay sound, and `insert` does what it should, iff it is never called and only empty
arrays are moved.** -/
theorem arrays_iff (calls : List (Call T)) :
    Along step (fun objects => ∀ a ∈ objects, Sound a) Inserts [] calls ↔
      Each step Keeps ([] : List (Array T)) calls := by
  refine Along.iff (I := fun objects => ∀ a ∈ objects, Sound a) (fun _ h => h) ?_ ?_
    (fun a ha => absurd ha List.not_mem_nil) calls
  · intro objects c h hc
    refine ⟨?_, fun objects' hs => step_sound h hc hs⟩
    rintro i pos val a rfl ha
    cases ha.symm.trans hc
  · intro objects c h hc hins
    cases c with
    | move i =>
      by_cases hex : ∃ a, objects[i]? = some a ∧ a.size_ ≠ 0
      · obtain ⟨a, ha, hsize⟩ := hex
        exact step_move ha hsize
      · exact absurd (fun a ha => by_contra fun hne => hex ⟨a, ha, hne⟩) hc
    | insert i pos val =>
      obtain ⟨a, ha⟩ := Option.ne_none_iff_exists'.mp hc
      exact absurd hins (not_inserts ha pos val)
    | ofSize N => exact absurd trivial hc
    | ofData data N => exact absurd trivial hc
    | copy i => exact absurd trivial hc

/-- an array of one element that was moved away still has the length 1 -/
theorem not_arrays : ¬ ∀ calls : List (Call ℕ),
    Along step (fun objects => ∀ a ∈ objects, Sound a) Inserts [] calls := by
  intro hall
  have h0 := hall [.ofSize 1, .move 0]
  have h1 := h0.2.2 _ rfl
  have h2 := (h1.2.2 _ rfl).here
  exact absurd (h2 ⟨1, none⟩ (by decide)).owned (by decide)

end
end Arrays
end CppCores
