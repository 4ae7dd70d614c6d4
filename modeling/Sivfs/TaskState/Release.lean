/-
# The end of the address space

An anon inode that was created but never opened has nobody who would put it.
`sivfs_mm_release` looks for these in batches of `DELETE_BATCH` and puts each.

A batch drops the anon inodes in it (`releaseBatch_of_unreferenced`), which leaves those behind
it where they are (`unreferencedFrom_batch`), so the loop ends with no anon inode that is
unreferenced (`releaseLoop_of_lt`), and with the others as they were (`mmRelease_eq`).
-/

import Sivfs.TaskState.Calls

namespace Sivfs
namespace Tasks

open AnonInodes (Workingset DentryPtr Failure Creation Opening AnonInode unreferenced create
  skipRefcount einval eperm)
open Call

variable {ws : Workingset} {ino k held : ℕ} {files : ℕ → ℕ} {t : Task} {s : Slot}
  {inode : AnonInode}

/-! ### The end of the address space -/

/-- The state without the anon inode of `ino`. -/
def Task.drop (t : Task) (ino : ℕ) : Task :=
  ⟨t.nref - 1, t.notifierRegistered,
    ⟨t.workingset.anonInodes.delete ino, t.workingset.anonDentries.delete ino⟩⟩

/-- The anon inode of `ino` is there, and nobody has opened it. -/
def Task.Unreferenced (t : Task) (ino : ℕ) : Prop :=
  ∃ inode, t.workingset.anonInodes.lookup ino = some inode ∧ inode.refcount = unreferenced

theorem Task.lookup_drop_of_ne (h : k ≠ ino) : (t.drop ino).workingset.anonInodes.lookup k =
    t.workingset.anonInodes.lookup k := KeyTree.lookup_delete_of_ne _ h

/-- **The anon inodes of a list are removed.** -/
theorem Task.lookup_foldl_drop (dropped : List ℕ) (t : Task) :
    (dropped.foldl drop t).workingset.anonInodes.lookup k =
      if k ∈ dropped then none else t.workingset.anonInodes.lookup k := by
  induction dropped generalizing t with
  | nil => rfl
  | cons ino dropped ih =>
    rw [List.foldl_cons, ih]
    by_cases hk : k = ino
    · rw [hk, drop]
      simp
    · rw [lookup_drop_of_ne hk]
      simp [hk]

/-- The notifier is not among what is removed. -/
theorem Task.notifierRegistered_foldl_drop (dropped : List ℕ) (t : Task) :
    (dropped.foldl drop t).notifierRegistered = t.notifierRegistered := by
  induction dropped generalizing t with
  | nil => rfl
  | cons ino dropped ih => exact ih (t.drop ino)

/-- The anon inodes of a batch are those that nobody has opened, from an index on. -/
theorem mem_unreferencedFrom (h : t.workingset.Synced) {index : ℕ} :
    k ∈ unreferencedFrom t.workingset index ↔ index ≤ k ∧ t.Unreferenced k := by
  have hdentry : k ∈ (t.workingset.anonDentries.map Prod.fst).toFinset ↔
      (t.workingset.anonDentries.lookup k).isSome := by
    simp
  rw [unreferencedFrom, Finset.mem_sort, Finset.mem_filter, hdentry, h k, Task.Unreferenced]
  cases hl : t.workingset.anonInodes.lookup k with
  | none => simp
  | some inode => simp

section Unreferenced

variable (h : TaskOk t held files) (hun : t.Unreferenced ino)

include h hun

/-- An anon inode goes with its reference. -/
theorem TaskOk.drop : TaskOk (t.drop ino) held files := by
  obtain ⟨inode, hl, hrefcount⟩ := hun
  have hfiles : files ino = 0 := (h.counted ino inode hl).unreferenced_iff.1 hrefcount
  have hdelete := h.delete hl
  rw [← hfiles, Function.update_eq_self] at hdelete
  refine ⟨hdelete.synced, ?_, hdelete.absent, hdelete.counted, hdelete.watched⟩
  have hnref := hdelete.nref
  rw [Task.drop]
  dsimp only at hnref ⊢
  omega

/-- An anon inode that nobody has opened is removed.  The notifier keeps the state. -/
theorem putAnonInode_of_unreferenced (hs : s.task = some t) :
    putAnonInode ino s = (.ok (), { s with task := some (t.drop ino) }) := by
  have hregistered : t.notifierRegistered = true := by
    obtain ⟨inode, hl, hrefcount⟩ := hun
    exact h.watched ino inode hl hrefcount
  have hnref := (h.drop hun).nref
  rw [Task.drop, hregistered, Bool.toNat_true] at hnref
  have hpos : t.nref - 1 ≠ 0 := by
    dsimp only at hnref
    omega
  obtain ⟨inode, hl, hrefcount⟩ := hun
  have hd : t.workingset.anonDentries.lookup ino = some ino := by rw [h.synced ino, hl]; rfl
  simp only [putAnonInode, bind_apply, theTask_of_some hs, hl, hd, onWorkingset, hs, hrefcount,
    Call.modify, true_or, true_and, Option.isSome_some, if_true, Slot.put, if_neg hpos, Task.drop,
    AnonInodes.putAnonInode_of_freed hl (.inl hrefcount)]

end Unreferenced

/-- **A batch of anon inodes that nobody has opened is removed.** -/
theorem releaseBatch_of_unreferenced (h : TaskOk t held files) (hs : s.task = some t)
    {dropped : List ℕ} (hnodup : dropped.Nodup) (hun : ∀ ino ∈ dropped, t.Unreferenced ino) :
    TaskOk (dropped.foldl Task.drop t) held files ∧
      releaseBatch dropped s = (.ok true, { s with task := some (dropped.foldl Task.drop t) }) := by
  induction dropped generalizing t s with
  | nil =>
    refine ⟨h, ?_⟩
    rw [List.foldl_nil, ← hs]
    rfl
  | cons ino dropped ih =>
    have hino : t.Unreferenced ino := hun ino List.mem_cons_self
    obtain ⟨hnotin, hnodup⟩ := List.nodup_cons.1 hnodup
    have hrest : ∀ k ∈ dropped, (t.drop ino).Unreferenced k := fun k hk => by
      have hne : k ≠ ino := fun hno => hnotin (hno ▸ hk)
      rw [Task.Unreferenced, Task.lookup_drop_of_ne hne]
      exact hun k (List.mem_cons_of_mem _ hk)
    have hgone : (t.drop ino).workingset.anonDentries.lookup ino = none :=
      KeyTree.lookup_delete_self ..
    obtain ⟨hok, hbatch⟩ := ih (s := { s with task := some (t.drop ino) }) (h.drop hino) rfl
      hnodup hrest
    refine ⟨hok, ?_⟩
    have hthe : theTask { s with task := some (t.drop ino) } =
        (.ok (t.drop ino), { s with task := some (t.drop ino) }) := theTask_of_some rfl
    simp only [releaseBatch, bind_apply, putAnonInode_of_unreferenced h hino hs, hthe, hgone,
      Option.isSome_none, Bool.false_eq_true, if_false]
    exact hbatch

/-- What is left of a sorted list after a batch. -/
theorem mem_drop_iff {all : List ℕ} (h : all.SortedLT) {n last : ℕ}
    (hlast : (all.take n).getLast? = some last) : k ∈ all.drop n ↔ last < k ∧ k ∈ all := by
  have hsplit : (all.take n ++ all.drop n).Pairwise (· < ·) := by
    rw [List.take_append_drop]
    exact h.pairwise
  obtain ⟨hbatch, -, hcross⟩ := List.pairwise_append.1 hsplit
  constructor
  · intro hk
    exact ⟨hcross last (List.mem_of_getLast? hlast) k hk, List.mem_of_mem_drop hk⟩
  · rintro ⟨hlt, hk⟩
    rw [← List.take_append_drop n all] at hk
    refine (List.mem_append.1 hk).resolve_left fun hno => ?_
    -- Everything in the batch is at most `last`.
    obtain ⟨batch, hbatch'⟩ := List.getLast?_eq_some_iff.1 hlast
    rw [hbatch'] at hno hbatch
    rcases List.mem_append.1 hno with hno | hno
    · have := (List.pairwise_append.1 hbatch).2.2 k hno last List.mem_cons_self
      omega
    · rw [List.mem_singleton] at hno
      omega

/-- The anon inodes that are left for the next batches. -/
theorem unreferencedFrom_batch (h : TaskOk t held files) {index n last : ℕ}
    (hok : TaskOk (((unreferencedFrom t.workingset index).take n).foldl Task.drop t) held files)
    (hlast : ((unreferencedFrom t.workingset index).take n).getLast? = some last) :
    unreferencedFrom (((unreferencedFrom t.workingset index).take n).foldl
      Task.drop t).workingset (last + 1) = (unreferencedFrom t.workingset index).drop n := by
  have hsorted : (unreferencedFrom t.workingset index).SortedLT := Finset.sortedLT_sort _
  have hrest : ((unreferencedFrom t.workingset index).drop n).SortedLT :=
    hsorted.pairwise.drop.sortedLT
  refine (Finset.sortedLT_sort _).eq_of_mem_iff hrest fun k => ?_
  have hleft := mem_drop_iff (k := k) hsorted hlast
  have hindex : last ∈ unreferencedFrom t.workingset index :=
    List.mem_of_mem_take (List.mem_of_getLast? hlast)
  change k ∈ unreferencedFrom _ _ ↔ _
  rw [mem_unreferencedFrom hok.synced, Task.Unreferenced, Task.lookup_foldl_drop]
  by_cases hk : k ∈ (unreferencedFrom t.workingset index).take n
  · rw [if_pos hk]
    exact iff_of_false (by simp) (List.disjoint_take_drop hsorted.nodup le_rfl hk)
  · rw [if_neg hk, hleft, mem_unreferencedFrom h.synced]
    have hle := ((mem_unreferencedFrom h.synced).1 hindex).1
    refine and_congr_right fun hlt => (and_iff_right ?_).symm
    omega

/-- **The loop removes all anon inodes that nobody has opened**, with the fuel that it has. -/
theorem releaseLoop_of_lt (h : TaskOk t held files) (hs : s.task = some t) {fuel index : ℕ}
    (hfuel : (unreferencedFrom t.workingset index).length < fuel) :
    TaskOk ((unreferencedFrom t.workingset index).foldl Task.drop t) held files ∧
      releaseLoop fuel index s = (.ok true,
        { s with task := some ((unreferencedFrom t.workingset index).foldl Task.drop t) }) := by
  induction fuel generalizing t s index with
  | zero => exact absurd hfuel (Nat.not_lt_zero _)
  | succ fuel ih =>
    set all := unreferencedFrom t.workingset index with hall
    have hnodup : (all.take deleteBatch).Nodup :=
      ((Finset.sortedLT_sort _).nodup).sublist (List.take_sublist ..)
    have hun : ∀ ino ∈ all.take deleteBatch, t.Unreferenced ino := fun ino hino =>
      ((mem_unreferencedFrom h.synced).1 (List.mem_of_mem_take hino)).2
    obtain ⟨hok, hbatch⟩ := releaseBatch_of_unreferenced h hs hnodup hun
    have hsplit : all.foldl Task.drop t =
        (all.drop deleteBatch).foldl Task.drop ((all.take deleteBatch).foldl Task.drop t) := by
      rw [← List.foldl_append, List.take_append_drop]
    simp only [releaseLoop, bind_apply, theTask_of_some hs, ← hall, hbatch, if_true]
    cases hlast : (all.take deleteBatch).getLast? with
    | none =>
      have hnil : all = [] := by
        rw [List.getLast?_eq_none_iff, List.take_eq_nil_iff] at hlast
        exact hlast.resolve_left (by decide)
      rw [hnil] at hok ⊢
      exact ⟨hok, rfl⟩
    | some last =>
      have hrest := unreferencedFrom_batch h hok hlast
      rw [← hall] at hrest
      have hlength : 0 < all.length :=
        List.length_pos_of_mem (List.mem_of_mem_take (List.mem_of_getLast? hlast))
      rw [hsplit, ← hrest]
      refine ih hok rfl ?_
      rw [hrest, List.length_drop, deleteBatch]
      omega

/-- **`sivfs_mm_release`**: the anon inodes that nobody has opened go, and the reference of the
notifier. -/
theorem mmRelease_eq (h : TaskOk t held files) (hs : s.task = some t)
    (hregistered : t.notifierRegistered = true) : ∃ t' : Task,
      mmRelease s = (.ok (), ({ s with task := some t' } : Slot).put) ∧
      TaskOk t' (held + 1) files ∧ t'.notifierRegistered = false ∧
      ∀ ino, t'.workingset.anonInodes.lookup ino =
        if files ino = 0 then none else t.workingset.anonInodes.lookup ino := by
  set all := unreferencedFrom t.workingset 0 with hall
  have hfuel : all.length < t.workingset.anonDentries.length + 1 := by
    rw [hall, unreferencedFrom, Finset.length_sort]
    have hfilter := Finset.card_filter_le (t.workingset.anonDentries.map Prod.fst).toFinset
      fun ino => 0 ≤ ino ∧ (t.workingset.anonInodes.lookup ino).any fun inode =>
        inode.refcount = unreferenced
    have hdentries := List.toFinset_card_le (t.workingset.anonDentries.map Prod.fst)
    rw [List.length_map] at hdentries
    omega
  obtain ⟨hok, hloop⟩ := releaseLoop_of_lt h hs hfuel
  rw [← hall] at hok hloop
  have hlookup (ino : ℕ) : (all.foldl Task.drop t).workingset.anonInodes.lookup ino =
      if files ino = 0 then none else t.workingset.anonInodes.lookup ino := by
    have hmem : ino ∈ all ↔ t.Unreferenced ino := by
      rw [hall, mem_unreferencedFrom h.synced]
      exact and_iff_right (Nat.zero_le _)
    rw [Task.lookup_foldl_drop]
    simp only [hmem, Task.Unreferenced]
    cases hl : t.workingset.anonInodes.lookup ino with
    | none => simp
    | some inode =>
      have hun := (h.counted ino inode hl).unreferenced_iff
      simp [hun]
  refine ⟨{ all.foldl Task.drop t with notifierRegistered := false }, ?_, ?_, rfl, hlookup⟩
  · simp only [mmRelease, bind_apply, theTask_of_some hs, hloop, if_true, Call.modify,
      Option.map_some]
  · refine ⟨hok.synced, ?_, hok.absent, hok.counted, fun ino inode hl hun => ?_⟩
    · have hnref := hok.nref
      rw [Task.notifierRegistered_foldl_drop, hregistered] at hnref
      simp only [Bool.toNat_true, Bool.toNat_false] at hnref ⊢
      omega
    · dsimp only at hl
      rw [hlookup] at hl
      split_ifs at hl with hfiles
      exact absurd ((h.counted ino inode hl).unreferenced_iff.1 hun) hfiles

end Tasks
end Sivfs
