import Mathlib.Data.List.Basic
import Mathlib.Data.List.Perm.Basic
import Mathlib.Data.List.Nodup
import Mathlib.Tactic.Common
import CppCores.Lib.Logs

/-!
# Logs of a bounded double-ended queue

`DequeOp α` is an operation on a double-ended queue together with its answer, `Legal cap l q` says
that the log `l` (first operation first) is a history of a queue with room for `cap` elements that
is empty at the start and holds `q` at the end, oldest element first.

* `Legal.fits`       in a legal log every operation fits the content at its moment: an element
                     taken at the back is the newest, at the front the oldest, `full` is answered
                     when `cap` elements are held and `empty` when none is;
* `Legal.perm`       every element pushed has been taken or is still held;
* `Legal.eq_held`    if the elements are distinct, the content is what was pushed and not taken, in
                     the order of the pushes;
* `Legal.fifo`       without `popBack` the elements leave in the order in which they came.
-/

namespace CppCores

/-- an operation on a bounded double-ended queue and its answer -/
inductive DequeOp (α : Type*) where
  | pushBack (a : α)
  | full
  | popBack (a : α)
  | popFront (a : α)
  | empty
  deriving DecidableEq, Repr

namespace DequeOp
variable {α : Type*}

def pushed? : DequeOp α → Option α
  | .pushBack a => some a
  | _ => none

def taken? : DequeOp α → Option α
  | .popBack a => some a
  | .popFront a => some a
  | _ => none

/-- the operation and its answer fit a queue that holds `q` -/
def Fits (cap : ℕ) (q : List α) : DequeOp α → Prop
  | .pushBack _ => q.length < cap
  | .full => q.length = cap
  | .popBack a => q.getLast? = some a
  | .popFront a => q.head? = some a
  | .empty => q = []

end DequeOp

/-- the elements that entered, in order -/
def pushed {α : Type*} (l : List (DequeOp α)) : List α := l.filterMap DequeOp.pushed?

/-- the elements that left, in order -/
def taken {α : Type*} (l : List (DequeOp α)) : List α := l.filterMap DequeOp.taken?

/-- the elements that entered and have not left, in the order in which they entered; `key` tells
elements apart -/
def held {α κ : Type*} [DecidableEq κ] (key : α → κ) (l : List (DequeOp α)) : List α :=
  (pushed l).filter fun a => key a ∉ (taken l).map key

/-- the log `l` is a history of a queue of capacity `cap` that ends with the content `q` -/
inductive Legal {α : Type*} (cap : ℕ) : List (DequeOp α) → List α → Prop where
  | nil : Legal cap [] []
  | pushBack {l q} (a : α) : Legal cap l q → q.length < cap →
      Legal cap (l ++ [.pushBack a]) (q ++ [a])
  | full {l q} : Legal cap l q → q.length = cap → Legal cap (l ++ [.full]) q
  | popBack {l q} (a : α) : Legal cap l (q ++ [a]) → Legal cap (l ++ [.popBack a]) q
  | popFront {l q} (a : α) : Legal cap l (a :: q) → Legal cap (l ++ [.popFront a]) q
  | empty {l} : Legal cap l [] → Legal cap (l ++ [.empty]) []

section
variable {α : Type*}

@[simp] theorem pushed_nil : pushed ([] : List (DequeOp α)) = [] := rfl
@[simp] theorem taken_nil : taken ([] : List (DequeOp α)) = [] := rfl

@[simp] theorem pushed_append (l m : List (DequeOp α)) :
    pushed (l ++ m) = pushed l ++ pushed m := List.filterMap_append

@[simp] theorem taken_append (l m : List (DequeOp α)) :
    taken (l ++ m) = taken l ++ taken m := List.filterMap_append

@[simp] theorem pushed_cons (op : DequeOp α) (l : List (DequeOp α)) :
    pushed (op :: l) = op.pushed?.toList ++ pushed l := by
  cases op <;> rfl

@[simp] theorem taken_cons (op : DequeOp α) (l : List (DequeOp α)) :
    taken (op :: l) = op.taken?.toList ++ taken l := by
  cases op <;> rfl

@[simp] theorem pushed?_pushBack (a : α) : (DequeOp.pushBack a).pushed? = some a := rfl
@[simp] theorem pushed?_full : (DequeOp.full : DequeOp α).pushed? = none := rfl
@[simp] theorem pushed?_popBack (a : α) : (DequeOp.popBack a).pushed? = none := rfl
@[simp] theorem pushed?_popFront (a : α) : (DequeOp.popFront a).pushed? = none := rfl
@[simp] theorem pushed?_empty : (DequeOp.empty : DequeOp α).pushed? = none := rfl
@[simp] theorem taken?_pushBack (a : α) : (DequeOp.pushBack a).taken? = none := rfl
@[simp] theorem taken?_full : (DequeOp.full : DequeOp α).taken? = none := rfl
@[simp] theorem taken?_popBack (a : α) : (DequeOp.popBack a).taken? = some a := rfl
@[simp] theorem taken?_popFront (a : α) : (DequeOp.popFront a).taken? = some a := rfl
@[simp] theorem taken?_empty : (DequeOp.empty : DequeOp α).taken? = none := rfl

end

namespace Legal
variable {α : Type*} {cap : ℕ} {l : List (DequeOp α)} {q : List α}

/-- **Every operation of a legal log fits the content at its moment.** -/
theorem fits (h : Legal cap l q) : ∀ pre op post, l = pre ++ op :: post →
    ∃ q', Legal cap pre q' ∧ op.Fits cap q' := by
  -- the last operation of the log is either the one asked for or one of `post`
  have last : ∀ (l' : List (DequeOp α)) (o : DequeOp α) (q' : List α), Legal cap l' q' →
      o.Fits cap q' → (∀ pre op post, l' = pre ++ op :: post →
        ∃ q', Legal cap pre q' ∧ op.Fits cap q') →
      ∀ pre op post, l' ++ [o] = pre ++ op :: post → ∃ q', Legal cap pre q' ∧ op.Fits cap q' := by
    intro l' o q' hl ho ih pre op post e
    rcases concat_split e with ⟨rfl, rfl⟩ | ⟨post', rfl⟩
    · exact ⟨q', hl, ho⟩
    · exact ih pre op post' rfl
  induction h with
  | nil => intro pre op post e; simp at e
  | pushBack a hl hq ih => exact last _ _ _ hl hq ih
  | full hl hq ih => exact last _ _ _ hl hq ih
  | popBack a hl ih => exact last _ _ _ hl (by simp [DequeOp.Fits]) ih
  | popFront a hl ih => exact last _ _ _ hl (by simp [DequeOp.Fits]) ih
  | empty hl ih => exact last _ _ _ hl rfl ih

/-- **Nothing is lost and nothing is taken twice.** -/
theorem perm (h : Legal cap l q) : (pushed l).Perm (taken l ++ q) := by
  induction h with
  | nil => exact List.Perm.refl _
  | @pushBack l q a _ _ ih =>
    simp only [pushed_append, taken_append, pushed_cons, taken_cons, pushed_nil, taken_nil]
    simpa using ih.append_right [a]
  | full _ _ ih => simpa using ih
  | @popBack l q a _ ih =>
    simp only [pushed_append, taken_append, pushed_cons, taken_cons, pushed_nil, taken_nil]
    refine List.Perm.trans (by simpa using ih) ?_
    simpa using (@List.perm_append_comm _ q [a]).append_left (taken l)
  | popFront a _ ih => simpa using ih
  | empty _ ih => simpa using ih

theorem sublist (h : Legal cap l q) : q.Sublist (pushed l) := by
  induction h with
  | nil => exact List.Sublist.refl _
  | pushBack a _ _ ih => simpa using ih.append (List.Sublist.refl [a])
  | full _ _ ih => simpa using ih
  | popBack a _ ih => simpa using (List.sublist_append_left _ [a]).trans ih
  | popFront a _ ih => simpa using (List.sublist_cons_self a _).trans ih
  | empty _ ih => simp

theorem taken_nodup {κ : Type*} (key : α → κ) (h : Legal cap l q)
    (hn : ((pushed l).map key).Nodup) : ((taken l).map key).Nodup := by
  have hp := h.perm.map key
  rw [List.map_append] at hp
  exact (hp.nodup_iff.mp hn).of_append_left

/-- **The content of the queue is what was pushed and not taken**, if `key` tells the elements
apart. -/
theorem eq_held {κ : Type*} [DecidableEq κ] (key : α → κ) (h : Legal cap l q)
    (hn : ((pushed l).map key).Nodup) : q = held key l := by
  have hp : ((pushed l).map key).Perm ((taken l).map key ++ q.map key) := by
    rw [← List.map_append]
    exact h.perm.map key
  have hd := List.disjoint_of_nodup_append (hp.nodup_iff.mp hn)
  have hsub : q.Sublist (held key l) := by
    have h1 := h.sublist.filter (fun a => decide (key a ∉ (taken l).map key))
    rwa [List.filter_eq_self.mpr fun a ha => by
      rw [decide_eq_true_iff]
      exact fun ht => hd ht (List.mem_map_of_mem ha)] at h1
  refine hsub.eq_of_length_le (List.Subperm.length_le ?_)
  apply List.subperm_of_subset ((hn.of_map key).filter _)
  intro a ha
  obtain ⟨h1, h2⟩ := List.mem_filter.mp ha
  apply (List.mem_append.mp (h.perm.mem_iff.mp h1)).resolve_left
  intro ht
  exact of_decide_eq_true h2 (List.mem_map_of_mem ht)

/-- **First in, first out**, when nothing is taken at the back. -/
theorem fifo (h : Legal cap l q) (hb : ∀ a, DequeOp.popBack a ∉ l) :
    pushed l = taken l ++ q := by
  induction h with
  | nil => rfl
  | pushBack a _ _ ih => simp [ih fun b hm => hb b (List.mem_append_left _ hm)]
  | full _ _ ih => simpa using ih fun b hm => hb b (List.mem_append_left _ hm)
  | popBack a _ _ => exact absurd (List.mem_append_right _ (List.mem_singleton.mpr rfl)) (hb a)
  | popFront a _ ih => simp [ih fun b hm => hb b (List.mem_append_left _ hm)]
  | empty _ ih => simpa using ih fun b hm => hb b (List.mem_append_left _ hm)

end Legal
end CppCores
