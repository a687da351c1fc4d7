import CppCores.Lib.Tally
import CppCores.Utils.ProcessUtil

/-!
# GetThreadJiffies and GetProcessStat

Every directory in `/proc/self/task` is a thread; its time is added to the group that the caller's
function gives for its name.

* `Tallied`               a map with the time of each group;
* `threadJiffies_spec`    **no time is lost or counted twice**, in whichever order the directory is read.
-/

namespace CppCores
namespace ProcessUtil

/-! ## the code -/

/-- a `struct dirent`, and whether its `d_type` is `DT_DIR` -/
structure Entry where
  d_name : Str
  dir : Bool
  deriving DecidableEq, Repr

/-- what the system has: for a thread the text of `/proc/self/task/<thread>/stat`, where a file that cannot
be opened is read as an empty one is, and what `GetThreadStat` finds in its variables -/
structure Sys where
  page_size : PageSize
  stat_file : Str → Str
  junk : Str → Junk

/-- `std::map<std::string, int64_t>` -/
abbrev Jiffies := Str → Option (BitVec 64)

def Jiffies.empty : Jiffies := fun _ => none

/-- `GetThreadStat` on the file of a thread -/
def Sys.thread (sys : Sys) (d_name : Str) : Option ThreadStat :=
  getThreadStat sys.page_size (sys.junk d_name) ⟨[], 0, 0, 0⟩ (sys.stat_file d_name)

/-- a turn of the loop -/
def addEntry (sys : Sys) (classfier : Str → Str) (output : Jiffies) (ent : Entry) : Option Jiffies :=
  if ent.d_name = [46] ∨ ent.d_name = [46, 46] then some output
  else if ent.dir then
    (sys.thread ent.d_name).bind fun stat =>
      let thread_group := classfier stat.thread_name_
      (Signed.checkedAdd ((output thread_group).getD 0) stat.jiffies_).map fun n =>
        Function.update output thread_group (some n)
  else some output

/-- what is in the directory, nothing if it cannot be opened; no result where an `int64_t` overflows -/
def GetThreadJiffies (sys : Sys) (classfier : Str → Str) (task : Option (List Entry)) :
    Option Jiffies :=
  match task with
  | none => some Jiffies.empty
  | some ents => ents.foldlM (addEntry sys classfier) Jiffies.empty

structure ProcessStat where
  virtual_memory_bytes_ : BitVec 64
  physical_memory_bytes_ : BitVec 64
  total_jiffies_ : BitVec 64
  threadpool_jiffies_ : Jiffies

/-- `self` and `junk` are for `/proc/self/stat` -/
def GetProcessStat (sys : Sys) (self : Str) (junk : Junk) (threadpool_classfier : Option (Str → Str))
    (task : Option (List Entry)) : Option ProcessStat :=
  (getThreadStat sys.page_size junk ⟨[], 0, 0, 0⟩ self).bind fun t_stat =>
    (match threadpool_classfier with
      | none => some Jiffies.empty
      | some classfier => GetThreadJiffies sys classfier task).map fun jiffies => {
        virtual_memory_bytes_ := t_stat.virtual_memory_bytes_
        physical_memory_bytes_ := t_stat.physical_memory_bytes_
        total_jiffies_ := t_stat.jiffies_
        threadpool_jiffies_ := jiffies }

/-! ## what it is for -/

/-- the entries that are threads -/
def Entry.thread (ent : Entry) : Bool := ent.dir && ent.d_name != [46] && ent.d_name != [46, 46]

/-- a map has the time of each group that is in the list -/
def Tallied (l : List (Str × ℤ)) (out : Jiffies) : Prop :=
  ∀ g, (out g).map BitVec.toInt = if g ∈ l.map Prod.fst then some (tally l g) else none

variable {sys : Sys} {classfier : Str → Str} {out : Jiffies} {l : List (Str × ℤ)} {ent : Entry}

/-! ## a turn -/

theorem Tallied.getD (h : Tallied l out) (g : Str) : ((out g).getD 0).toInt = tally l g := by
  have hg := h g
  cases ho : out g with
  | none =>
    rw [ho] at hg
    split at hg
    · cases hg
    · rename_i hmem
      have hnil : l.filter (fun x => x.1 = g) = [] := by
        apply List.filter_eq_nil_iff.mpr
        intro x hx he
        exact hmem (List.mem_map.mpr ⟨x, hx, of_decide_eq_true he⟩)
      rw [tally, hnil]
      rfl
  | some n =>
    rw [ho] at hg
    split at hg
    · exact Option.some.inj hg
    · cases hg

theorem Tallied.add (h : Tallied l out) (g : Str) {x n : BitVec 64}
    (hn : n.toInt = tally l g + x.toInt) :
    Tallied (l ++ [(g, x.toInt)]) (Function.update out g (some n)) := by
  intro k
  rw [tally_append, tally_cons, tally_nil, List.map_append]
  by_cases hk : k = g
  · subst hk
    simp [hn]
  · have hkg : ¬ g = k := fun he => hk he.symm
    rw [Function.update_of_ne hk, h k]
    simp only [List.mem_append, List.map_cons, List.map_nil, List.mem_singleton, hk, or_false, hkg, if_false,
      add_zero]

theorem addEntry_other (h : ent.thread = false) : addEntry sys classfier out ent = some out := by
  unfold addEntry
  split
  · rfl
  · rename_i hdots
    obtain ⟨h1, h2⟩ := not_or.mp hdots
    rw [if_neg]
    intro hdir
    simp [Entry.thread, hdir, h1, h2] at h

theorem addEntry_thread (h : ent.thread = true) {stat : ThreadStat}
    (hstat : sys.thread ent.d_name = some stat) (hl : Tallied l out)
    (hfits : Signed.Fits 64 (tally l (classfier stat.thread_name_) + stat.jiffies_.toInt)) :
    ∃ out', addEntry sys classfier out ent = some out' ∧
      Tallied (l ++ [(classfier stat.thread_name_, stat.jiffies_.toInt)]) out' := by
  simp only [Entry.thread, Bool.and_eq_true, bne_iff_ne, ne_eq] at h
  obtain ⟨⟨hdir, h1⟩, h2⟩ := h
  have hget := hl.getD (classfier stat.thread_name_)
  have hadd : Signed.checkedAdd ((out (classfier stat.thread_name_)).getD 0) stat.jiffies_ =
      some (BitVec.ofInt 64 (tally l (classfier stat.thread_name_) + stat.jiffies_.toInt)) := by
    rw [Signed.checkedAdd, hget, Signed.checked_of_fits hfits]
  refine ⟨_, ?_, hl.add _ (Signed.toInt_ofInt (by decide) hfits)⟩
  rw [addEntry, if_neg (not_or.mpr ⟨h1, h2⟩), if_pos hdir, hstat, Option.bind_some]
  dsimp only
  rw [hadd, Option.map_some]

/-! ## the loop -/

/-- the groups and the times of the threads, whose `stat` is known -/
def times (classfier : Str → Str) (stat : Str → ThreadStat) (ents : List Entry) : List (Str × ℤ) :=
  (ents.filter Entry.thread).map fun ent =>
    (classfier (stat ent.d_name).thread_name_, (stat ent.d_name).jiffies_.toInt)

variable {stat : Str → ThreadStat} {ents : List Entry}

/-- none of the times is negative, and their sum is an `int64_t` -/
def Addable (l : List (Str × ℤ)) : Prop := (∀ x ∈ l, 0 ≤ x.2) ∧ (l.map Prod.snd).sum < 2 ^ 63

theorem Addable.left {l' : List (Str × ℤ)} (h : Addable (l ++ l')) : Addable l := by
  obtain ⟨hpos, hsum⟩ := h
  have hl' : 0 ≤ (l'.map Prod.snd).sum := by
    apply List.sum_nonneg
    intro m hm
    obtain ⟨x, hx, rfl⟩ := List.mem_map.mp hm
    exact hpos x (List.mem_append_right l hx)
  rw [List.map_append, List.sum_append] at hsum
  exact ⟨fun x hx => hpos x (List.mem_append_left l' hx), by omega⟩

theorem Addable.fits (h : Addable l) (g : Str) : Signed.Fits 64 (tally l g) := by
  have h1 := tally_nonneg h.1 g
  have h2 := tally_le_sum h.1 g
  have h3 := h.2
  exact ⟨by omega, by omega⟩

/-- **The loop adds the times of the threads to the map.** -/
theorem addEntries
    (hstat : ∀ ent ∈ ents, ent.thread = true → sys.thread ent.d_name = some (stat ent.d_name))
    (hl : Tallied l out) (hc : Addable (l ++ times classfier stat ents)) :
    ∃ out', ents.foldlM (addEntry sys classfier) out = some out' ∧
      Tallied (l ++ times classfier stat ents) out' := by
  induction ents generalizing l out with
  | nil => exact ⟨out, rfl, by rwa [times, List.filter_nil, List.map_nil, List.append_nil]⟩
  | cons ent ents ih =>
    have hrest := fun e he => hstat e (List.mem_cons_of_mem ent he)
    rw [List.foldlM_cons]
    cases ht : ent.thread with
    | false =>
      have htimes : times classfier stat (ent :: ents) = times classfier stat ents := by
        rw [times, List.filter_cons_of_neg (by rw [ht]; decide), times]
      rw [htimes] at hc ⊢
      rw [addEntry_other ht]
      exact ih hrest hl hc
    | true =>
      have htimes : times classfier stat (ent :: ents) =
          (classfier (stat ent.d_name).thread_name_, (stat ent.d_name).jiffies_.toInt) ::
            times classfier stat ents := by
        rw [times, List.filter_cons_of_pos ht, List.map_cons, times]
      rw [htimes, List.append_cons] at hc ⊢
      have hfits := hc.left.fits (classfier (stat ent.d_name).thread_name_)
      rw [tally_append, tally_cons, tally_nil, if_pos rfl, add_zero] at hfits
      obtain ⟨out', ho, hl'⟩ := addEntry_thread ht (hstat ent List.mem_cons_self ht) hl hfits
      rw [ho]
      exact ih hrest hl' hc

theorem tallied_empty : Tallied [] Jiffies.empty := fun _ => rfl

theorem Tallied.unique {out' : Jiffies} (h : Tallied l out) (h' : Tallied l out') : out = out' := by
  funext g
  have hg := (h g).trans (h' g).symm
  exact Option.map_injective (fun x y hxy => BitVec.toInt_inj.mp hxy) hg

theorem Tallied.perm {l' : List (Str × ℤ)} (h : Tallied l out) (hp : l.Perm l') :
    Tallied l' out := by
  intro g
  rw [h g, tally_perm hp]
  simp only [(hp.map Prod.fst).mem_iff]

theorem Addable.perm {l' : List (Str × ℤ)} (h : Addable l) (hp : l.Perm l') : Addable l' :=
  ⟨fun x hx => h.1 x (hp.mem_iff.mpr hx), (hp.map Prod.snd).sum_eq ▸ h.2⟩

/-- what all groups have together -/
theorem Tallied.total (h : Tallied l out) {gs : List Str} (hgs : gs.Nodup)
    (hall : ∀ g, out g ≠ none → g ∈ gs) :
    (gs.map fun g => ((out g).getD 0).toInt).sum = (l.map Prod.snd).sum := by
  have hget : (fun g => ((out g).getD 0).toInt) = tally l := by
    funext g
    exact h.getD g
  rw [hget]
  apply sum_tally hgs
  intro x hx
  apply hall
  intro hnone
  have hx1 := h x.1
  rw [hnone, if_pos (List.mem_map_of_mem hx)] at hx1
  cases hx1

/-- **No time is lost or counted twice, in whichever order the directory is read.** -/
theorem threadJiffies_spec
    (hstat : ∀ ent ∈ ents, ent.thread = true → sys.thread ent.d_name = some (stat ent.d_name))
    (hc : Addable (times classfier stat ents)) :
    ∃ out, (∀ ents', ents.Perm ents' →
        GetThreadJiffies sys classfier (some ents') = some out ∧
        ∀ self junk t_stat, getThreadStat sys.page_size junk ⟨[], 0, 0, 0⟩ self = some t_stat →
          GetProcessStat sys self junk (some classfier) (some ents') =
            some ⟨t_stat.virtual_memory_bytes_, t_stat.physical_memory_bytes_, t_stat.jiffies_, out⟩) ∧
      Tallied (times classfier stat ents) out ∧
      ∀ gs : List Str, gs.Nodup → (∀ g, out g ≠ none → g ∈ gs) →
        (gs.map fun g => ((out g).getD 0).toInt).sum =
          ((times classfier stat ents).map Prod.snd).sum := by
  obtain ⟨out, -, ht⟩ := addEntries hstat tallied_empty hc
  refine ⟨out, fun ents' hp => ?_, ht, fun gs hgs hall => ht.total hgs hall⟩
  have htimes : (times classfier stat ents).Perm (times classfier stat ents') :=
    (hp.filter _).map _
  obtain ⟨out', ho, ht'⟩ := addEntries (fun ent hent => hstat ent (hp.mem_iff.mpr hent)) tallied_empty
    (hc.perm htimes)
  have hj : GetThreadJiffies sys classfier (some ents') = some out := by
    rw [GetThreadJiffies, ho, (ht.perm htimes).unique ht']
  refine ⟨hj, fun self junk t_stat hself => ?_⟩
  rw [GetProcessStat, hself, Option.bind_some, hj, Option.map_some]

/-! ## three threads in two groups -/

/-- a line of 24 fields with the name `c` and the times `u` and 1 -/
def lineOf (c u : UInt8) : Str :=
  [49, 32, 40, c, 41, 32, 83] ++ (List.replicate 10 [32, 48]).flatten ++ [32, u, 32, 49] ++
    (List.replicate 9 [32, 48]).flatten

/-- the threads 1, 2 and 3, two of them with the name `a` and one with the name `b` -/
def threeThreads : Sys where
  page_size := ⟨4096, by decide⟩
  stat_file name := if name = [49] then lineOf 97 53 else if name = [50] then lineOf 98 54 else lineOf 97 55
  junk _ := ⟨0, 0⟩

def entsOfThree : List Entry :=
  [⟨[46], true⟩, ⟨[46, 46], true⟩, ⟨[49], true⟩, ⟨[50], true⟩, ⟨[51], true⟩, ⟨[120], false⟩]

def statsOfThree (name : Str) : ThreadStat :=
  if name = [49] then ⟨[97], 0, 0, 6⟩ else if name = [50] then ⟨[98], 0, 0, 7⟩ else ⟨[97], 0, 0, 8⟩

theorem threadJiffies_three : ∃ out,
    GetThreadJiffies threeThreads id (some entsOfThree) = some out ∧
      (out [97]).map BitVec.toInt = some 14 ∧ (out [98]).map BitVec.toInt = some 7 ∧ out [99] = none := by
  obtain ⟨out, hout, ht, -⟩ := @threadJiffies_spec threeThreads id statsOfThree entsOfThree (by decide)
    (by unfold Addable; decide)
  refine ⟨out, (hout _ (List.Perm.refl _)).1, ?_, ?_, ?_⟩
  · exact (ht [97]).trans (by decide)
  · exact (ht [98]).trans (by decide)
  · exact Option.map_eq_none_iff.mp ((ht [99]).trans (by decide))

end ProcessUtil
end CppCores
