import CppCores.Utils.SimpleOstream

/-!
# DecodeFromStream: streams that do not hold a string

`DecodeFromStream<std::string>(is, &s)` names the overload for strings.  That one reads a size, does not
ask if it was there, and makes the string as long as the size says before it reads the string.

* `resized`          what the string is resized to: the size in the stream, with bytes of a variable that
                     was not written where the stream has too few;
* `decodeString_eq`  the call;
* `decodes_iff`      **a call is right iff the stream holds a size and as many bytes as it says**, and a
                     string can be that long.
-/

namespace CppCores
namespace SimpleOstream
open CallDepth

/-- `DecodeFromStream<std::string>(is, &value)` on the bytes of a stream -/
def decodeString (max_size : ℕ) (junk value bytes : List UInt8) :
    Option (Outcome × List Value × IStream) :=
  decodeOverload max_size junk (run (DecodeFromStream max_size junk) 1) .string [.str value] ⟨bytes, true⟩

/-- the argument of `value->resize` -/
def resized (junk bytes : List UInt8) : ℕ := ofLe ((IStream.mk bytes true).read junk).1

/-- the stream holds a size, and as many bytes behind it -/
def Complete (bytes : List UInt8) : Prop :=
  8 ≤ bytes.length ∧ ofLe (bytes.take 8) ≤ bytes.length - 8

instance instDecidableComplete (bytes : List UInt8) : Decidable (Complete bytes) :=
  inferInstanceAs (Decidable (_ ∧ _))

/-- what is wanted of the call: it returns if the stream is complete, it resizes to no more than the
stream still holds, and to the same size whatever was in the variable for it before -/
structure Decodes (max_size : ℕ) (bytes : List UInt8) : Prop where
  answer : ∀ junk value : List UInt8, junk.length = 8 →
    (decodeString max_size junk value bytes).map (fun r => r.1) =
      some (.returned (decide (Complete bytes)))
  available : ∀ junk : List UInt8, junk.length = 8 → resized junk bytes ≤ bytes.length - 8
  read : ∀ junk junk' : List UInt8, junk.length = 8 → junk'.length = 8 →
    resized junk bytes = resized junk' bytes

section
variable {max_size : ℕ} {junk value bytes : List UInt8}

theorem read_size (hj : junk.length = 8) (h : 8 ≤ bytes.length) :
    (IStream.mk bytes true).read junk = (bytes.take 8, ⟨bytes.drop 8, true⟩) := by
  show (if junk.length ≤ bytes.length then _ else _) = _
  rw [hj, if_pos h]

/-- a stream with fewer: the rest of the variable stays -/
theorem read_size_short (hj : junk.length = 8) (h : bytes.length < 8) :
    (IStream.mk bytes true).read junk = (bytes ++ junk.drop bytes.length, ⟨[], false⟩) := by
  show (if junk.length ≤ bytes.length then _ else _) = _
  rw [hj, if_neg (Nat.not_le.mpr h)]

theorem decodeString_eq : decodeString max_size junk value bytes =
    let is := ((IStream.mk bytes true).read junk).2
    let size := resized junk bytes
    some (if max_size < size then (.thrown, [.str value], is)
      else
        let x := is.read (paddedTo size 0 (value.take size))
        (.returned x.2.good, [.str x.1], x.2)) := rfl

theorem resized_of_le (hj : junk.length = 8) (h : 8 ≤ bytes.length) :
    resized junk bytes = ofLe (bytes.take 8) := by
  rw [resized, read_size hj h]

/-- **A size that is not all in the stream depends on what was in its variable.** -/
theorem resized_short (h : bytes.length < 8) :
    resized (List.replicate 8 0) bytes ≠ resized (List.replicate 8 1) bytes := by
  intro heq
  rw [resized, resized, read_size_short List.length_replicate h,
    read_size_short List.length_replicate h, List.drop_replicate, List.drop_replicate] at heq
  have hlist := ofLe_inj (by simp only [List.length_append, List.length_replicate]) heq
  have hrest := List.append_cancel_left hlist
  obtain ⟨n, hn⟩ : ∃ n, 8 - bytes.length = n + 1 := ⟨7 - bytes.length, by omega⟩
  rw [hn, List.replicate_succ, List.replicate_succ] at hrest
  exact absurd (List.cons.inj hrest).1 (by decide)

theorem decodeString_of_le (hj : junk.length = 8) (h : 8 ≤ bytes.length)
    (hmax : ofLe (bytes.take 8) ≤ max_size) :
    (decodeString max_size junk value bytes).map (fun r => r.1) =
      some (.returned (decide (Complete bytes))) := by
  have hsize : (paddedTo (ofLe (bytes.take 8)) 0 (value.take (ofLe (bytes.take 8)))).length =
      ofLe (bytes.take 8) := length_paddedTo _ (List.length_take_le _ _)
  have hrest : (bytes.drop 8).length = bytes.length - 8 := List.length_drop
  rw [decodeString_eq]
  dsimp only
  rw [resized_of_le hj h, if_neg (Nat.not_lt.mpr hmax), read_size hj h]
  by_cases hle : ofLe (bytes.take 8) ≤ bytes.length - 8
  · have hread : ((IStream.mk (bytes.drop 8) true).read
        (paddedTo (ofLe (bytes.take 8)) 0 (value.take (ofLe (bytes.take 8))))).2.good = true := by
      rw [IStream.read, if_pos rfl, if_pos (by rw [hsize, hrest]; exact hle)]
    rw [decide_eq_true (show Complete bytes from ⟨h, hle⟩), Option.map_some, hread]
  · have hread : ((IStream.mk (bytes.drop 8) true).read
        (paddedTo (ofLe (bytes.take 8)) 0 (value.take (ofLe (bytes.take 8))))).2.good = false := by
      rw [IStream.read, if_pos rfl, if_neg (by rw [hsize, hrest]; exact hle)]
    rw [decide_eq_false (fun hc : Complete bytes => hle hc.2), Option.map_some, hread]

end

theorem decodes_iff (max_size : ℕ) (bytes : List UInt8) :
    Decodes max_size bytes ↔ Complete bytes ∧ ofLe (bytes.take 8) ≤ max_size := by
  have h0 : (List.replicate 8 (0 : UInt8)).length = 8 := List.length_replicate
  have h1 : (List.replicate 8 (1 : UInt8)).length = 8 := List.length_replicate
  refine ⟨fun h => ?_, fun h => ?_⟩
  · have hlen : 8 ≤ bytes.length := by
      by_contra hlt
      exact resized_short (Nat.lt_of_not_le hlt) (h.read _ _ h0 h1)
    have havail := h.available _ h0
    rw [resized_of_le h0 hlen] at havail
    refine ⟨⟨hlen, havail⟩, ?_⟩
    by_contra hmax
    have hans := h.answer _ [] h0
    rw [decodeString_eq] at hans
    dsimp only at hans
    rw [resized_of_le h0 hlen, if_pos (Nat.lt_of_not_le hmax), Option.map_some] at hans
    cases hans
  · obtain ⟨hc, hmax⟩ := h
    refine ⟨fun junk value hj => decodeString_of_le hj hc.1 hmax, fun junk hj => ?_,
      fun junk junk' hj hj' => ?_⟩
    · rw [resized_of_le hj hc.1]
      exact hc.2
    · rw [resized_of_le hj hc.1, resized_of_le hj' hc.1]

/-- the empty stream -/
theorem decodes_empty : ¬ ∀ bytes, Decodes (2 ^ 63 - 1) bytes := by
  intro h
  have hread := (h []).read (List.replicate 8 0) (List.replicate 8 1) List.length_replicate
    List.length_replicate
  exact resized_short (by decide) hread

end SimpleOstream
end CppCores
