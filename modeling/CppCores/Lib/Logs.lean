import Mathlib.Data.List.Nodup
import Mathlib.Tactic.Common

/-!
# Logs

A log is a list that grows at its end, and is read through `filterMap`.

* `concat_split`            an entry of a longer log is the last one or one of the log before;
* `eq_of_nodup_filterMap`   if the readings are all different, each comes from one entry.
-/

namespace CppCores

variable {α β : Type*} {l : List α}

theorem concat_split {pre post : List α} {e a : α} (h : l ++ [e] = pre ++ a :: post) :
    (l = pre ∧ e = a) ∨ ∃ post', l = pre ++ a :: post' := by
  rcases List.eq_nil_or_concat post with rfl | ⟨post', b, rfl⟩
  · obtain ⟨hl, he⟩ := List.append_inj' h rfl
    exact .inl ⟨hl, List.head_eq_of_cons_eq he⟩
  · rw [List.concat_eq_append, ← List.cons_append, ← List.append_assoc] at h
    exact .inr ⟨post', (List.append_inj' h rfl).1⟩

theorem nodup_concat {x : α} (h : l.Nodup) (hx : x ∉ l) : (l ++ [x]).Nodup := by
  rw [List.nodup_append]
  refine ⟨h, List.nodup_singleton x, ?_⟩
  intro a ha b hb hab
  apply hx
  rwa [← List.mem_singleton.mp hb, ← hab]

theorem eq_of_nodup_filterMap {f : α → Option β} (h : (l.filterMap f).Nodup) {a b : α} {x : β}
    (ha : a ∈ l) (hb : b ∈ l) (hfa : f a = some x) (hfb : f b = some x) : a = b := by
  induction l with
  | nil => cases ha
  | cons d l ih =>
    have hmem : ∀ {c}, c ∈ l → f c = some x → x ∈ l.filterMap f := by
      intro c hc hfc
      exact List.mem_filterMap.mpr ⟨c, hc, hfc⟩
    rcases List.mem_cons.mp ha with rfl | ha' <;> rcases List.mem_cons.mp hb with rfl | hb'
    · rfl
    · rw [List.filterMap_cons_some hfa, List.nodup_cons] at h
      exact absurd (hmem hb' hfb) h.1
    · rw [List.filterMap_cons_some hfb, List.nodup_cons] at h
      exact absurd (hmem ha' hfa) h.1
    · apply ih ?_ ha' hb'
      exact h.sublist ((List.sublist_cons_self d l).filterMap f)

end CppCores
