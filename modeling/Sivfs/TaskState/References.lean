/-
# The references to the state of a task

The refcount is the number of holders: the calls that have the state, the anon inodes, and the
notifier (`TaskOk`).  To get and to put a reference moves both by one (`TaskOk.hold`,
`TaskOk.put`), and the last put frees the state.  A change of the anon inodes keeps the count if
as many references come as go (`TaskOk.change`): an anon inode takes over the reference of the
call that creates it (`TaskOk.insert`), and gives it back when it goes (`TaskOk.delete`).
-/

import Sivfs.TaskState

namespace Sivfs
namespace Tasks

open AnonInodes (Workingset DentryPtr Failure Creation Opening AnonInode unreferenced create
  skipRefcount einval eperm)
open Call

/-! ### The references -/

/-- The files that have an anon inode. -/
def inos (ws : Workingset) : Finset ℕ := (ws.anonInodes.map Prod.fst).toFinset

/-- The first anon inode of a task is selected in a transaction that is aborted. -/
def Doomed (s : Slot) : Act → Prop
  | .select env _ => env.aborted = true ∧ ∀ t, s.task = some t → inos t.workingset = ∅
  | _ => False

variable {ws : Workingset} {ino k held : ℕ} {files : ℕ → ℕ} {t : Task} {s : Slot}
  {inode : AnonInode}

/-- A file has an anon inode if a lookup finds it. -/
theorem mem_inos : k ∈ inos ws ↔ (ws.anonInodes.lookup k).isSome := by
  simp [inos]

/-- One more. -/
theorem inos_create (flags : ℕ) : inos (ws.create ino flags) = insert ino (inos ws) := by
  simp [inos, Workingset.create, KeyTree.insert]

/-- One less. -/
theorem inos_delete (dentries : KeyTree ℕ ℕ) :
    inos ⟨ws.anonInodes.delete ino, dentries⟩ = (inos ws).erase ino := by
  ext k
  rw [Finset.mem_erase, mem_inos, mem_inos]
  by_cases hk : k = ino
  · simp [hk]
  · simp only [KeyTree.lookup_delete_of_ne _ hk, ne_eq, hk, not_false_eq_true, true_and]

/-- A refcount does not add or remove any. -/
theorem inos_setRefcount (refcount : ℤ) : inos (ws.setRefcount ino refcount) = inos ws := by
  ext k
  rw [mem_inos, mem_inos]
  by_cases hk : k = ino
  · rw [hk, AnonInodes.Workingset.setRefcount_self, Option.isSome_map]
  · rw [AnonInodes.Workingset.setRefcount_of_ne hk]

/-- The refcount of an anon inode is the number of open files. -/
def Exact (refcount : ℤ) (files : ℕ) : Prop :=
  refcount = unreferenced ∧ files = 0 ∨ 0 < files ∧ refcount = files

/-- With exact counts, an anon inode is unreferenced if and only if nobody has opened it. -/
theorem Exact.unreferenced_iff {refcount : ℤ} {n : ℕ} (h : Exact refcount n) :
    refcount = unreferenced ↔ n = 0 := by
  rw [Exact, unreferenced] at *
  omega

/-- **What a state is like** while `held` references are held by calls. -/
structure TaskOk (t : Task) (held : ℕ) (files : ℕ → ℕ) : Prop where
  synced : t.workingset.Synced
  nref : t.nref = held + (inos t.workingset).card + t.notifierRegistered.toNat
  absent : ∀ ino, t.workingset.anonInodes.lookup ino = none → files ino = 0
  counted : ∀ ino inode, t.workingset.anonInodes.lookup ino = some inode →
    Exact inode.refcount (files ino)
  watched : ∀ ino inode, t.workingset.anonInodes.lookup ino = some inode →
    inode.refcount = unreferenced → t.notifierRegistered = true

/-- A state that may be freed: nothing points to it. -/
def Clean (t : Task) : Prop := t.notifierRegistered = false ∧ inos t.workingset = ∅

/-- **What holds between the calls.** -/
structure Ok (s : Slot) (held : ℕ) (files : ℕ → ℕ) : Prop where
  task : ∀ t, s.task = some t → TaskOk t held files ∧ 0 < t.nref
  gone : s.task = none → held = 0 ∧ ∀ ino, files ino = 0
  freed : ∀ t ∈ s.freed, Clean t

/-- A state that is referenced has not been freed. -/
theorem Ok.of_task (h : TaskOk t held files) (hpos : 0 < t.nref) {freed : List Task}
    (hfreed : ∀ t ∈ freed, Clean t) : Ok ⟨some t, freed⟩ held files where
  task t' ht' := by
    obtain rfl := Option.some.inj ht'
    exact ⟨h, hpos⟩
  gone hno := absurd hno (by simp)
  freed := hfreed

/-- A new state has the one reference of the call that makes it. -/
theorem TaskOk.new : TaskOk .new 1 fun _ => 0 where
  synced _ := rfl
  nref := rfl
  absent _ _ := rfl
  counted _ _ h := absurd h (by simp [Task.new])
  watched _ _ h := absurd h (by simp [Task.new])

/-- One more reference is held. -/
theorem TaskOk.hold (h : TaskOk t held files) :
    TaskOk { t with nref := t.nref + 1 } (held + 1) files where
  synced := h.synced
  nref := by
    have hnref := h.nref
    dsimp only
    omega
  absent := h.absent
  counted := h.counted
  watched := h.watched

/-- **A reference is put**, and the state is freed with the last one. -/
theorem TaskOk.put (h : TaskOk t (held + 1) files) (hs : s.task = some t)
    (hfreed : ∀ t ∈ s.freed, Clean t) : Ok s.put held files := by
  have hnref := h.nref
  rw [Slot.put, hs]
  dsimp only
  split_ifs with hlast
  · have hcard : (inos t.workingset).card = 0 := by omega
    have hnotifier : t.notifierRegistered = false := by
      cases hn : t.notifierRegistered with
      | false => rfl
      | true =>
        rw [hn, Bool.toNat_true] at hnref
        omega
    have hempty : inos t.workingset = ∅ := Finset.card_eq_zero.1 hcard
    refine ⟨by simp, fun _ => ⟨by omega, fun ino => h.absent ino ?_⟩, fun t' ht' => ?_⟩
    · have hno : ino ∉ inos t.workingset := by simp [hempty]
      rwa [mem_inos, Option.not_isSome_iff_eq_none] at hno
    · rcases List.mem_cons.1 ht' with rfl | ht'
      · exact ⟨hnotifier, hempty⟩
      · exact hfreed t' ht'
  · refine .of_task (t := { t with nref := t.nref - 1 })
      ⟨h.synced, ?_, h.absent, h.counted, h.watched⟩ ?_ hfreed
    · dsimp only
      omega
    · dsimp only
      omega

/-- To store the state that is there changes nothing. -/
theorem Slot.eq_of_task (hs : s.task = some t) : ({ s with task := some t } : Slot) = s := by
  rw [← hs]

/-- The reference of a caller goes back. -/
theorem put_of_hold (hs : s.task = some t) (hpos : 0 < t.nref) :
    ({ s with task := some { t with nref := t.nref + 1 } } : Slot).put = s := by
  obtain ⟨task, freed⟩ := s
  obtain rfl : task = some t := hs
  have hnref : t.nref + 1 - 1 = t.nref := by omega
  simp only [Slot.put, hnref, if_neg hpos.ne']

/-- The pointer leads to the state. -/
theorem theTask_of_some (hs : s.task = some t) : theTask s = (.ok t, s) := by
  simp only [theTask, bind_apply, Call.get, hs]
  rfl

/-- To get a state that is there only counts. -/
theorem getTaskState_of_some (hs : s.task = some t) (env : Entry) :
    getTaskState env s = (.ok (), { s with task := some { t with nref := t.nref + 1 } }) := by
  simp only [getTaskState, bind_apply, Call.get, hs]
  rfl

/-- A call on the working set, seen from the task. -/
theorem wp_onWorkingset {α : Type} {m : Call Workingset Failure α} {Q : α → Slot → Prop}
    {E : Failure → Slot → Prop} (hs : s.task = some t) : (onWorkingset m).wp Q E s ↔
      m.wp (fun a ws => Q a { s with task := some { t with workingset := ws } })
        (fun e ws => E e { s with task := some { t with workingset := ws } }) t.workingset := by
  rw [wp, wp, onWorkingset, hs]
  dsimp only
  rcases m t.workingset with ⟨e | a, ws⟩ <;> rfl

/-- A call about the anon inode of `ino`, for which `n` files are open afterwards. -/
theorem TaskOk.change (h : TaskOk t held files) {t' : Task} {held' n : ℕ}
    (hsynced : t'.workingset.Synced)
    (hnref : t'.nref = held' + (inos t'.workingset).card + t'.notifierRegistered.toNat)
    (hnotifier : t.notifierRegistered = true → t'.notifierRegistered = true)
    (hother : ∀ k, k ≠ ino →
      t'.workingset.anonInodes.lookup k = t.workingset.anonInodes.lookup k)
    (hnone : t'.workingset.anonInodes.lookup ino = none → n = 0)
    (hcounted : ∀ inode, t'.workingset.anonInodes.lookup ino = some inode →
      Exact inode.refcount n ∧
        (inode.refcount = unreferenced → t'.notifierRegistered = true)) :
    TaskOk t' held' (Function.update files ino n) where
  synced := hsynced
  nref := hnref
  absent k hk := by
    by_cases hki : k = ino
    · subst hki
      rw [Function.update_self]
      exact hnone hk
    · rw [Function.update_of_ne hki]
      exact h.absent k ((hother k hki).symm.trans hk)
  counted k inode hk := by
    by_cases hki : k = ino
    · subst hki
      rw [Function.update_self]
      exact (hcounted inode hk).1
    · rw [Function.update_of_ne hki]
      exact h.counted k inode ((hother k hki).symm.trans hk)
  watched k inode hk hun := by
    by_cases hki : k = ino
    · subst hki
      exact (hcounted inode hk).2 hun
    · exact hnotifier (h.watched k inode ((hother k hki).symm.trans hk) hun)

section TaskOk

variable (h : TaskOk t held files)

include h

/-- An anon inode is created; the reference for it was held before. -/
theorem TaskOk.insert (hl : t.workingset.anonInodes.lookup ino = none)
    (hregistered : t.notifierRegistered = true) (hheld : held = k + 1) :
    TaskOk { t with workingset := t.workingset.create ino (create ||| skipRefcount) } k files := by
  have hno : ino ∉ inos t.workingset := by
    rw [mem_inos, hl]
    exact Bool.false_ne_true
  have hfiles : Function.update files ino 0 = files := by
    rw [← h.absent ino hl, Function.update_eq_self]
  have hself : (t.workingset.create ino (create ||| skipRefcount)).anonInodes.lookup ino =
      some ⟨unreferenced, 0, []⟩ := KeyTree.lookup_insert_self ..
  rw [← hfiles]
  refine h.change h.synced.create ?_ (fun hn => hn)
    (fun k hk => KeyTree.lookup_insert_of_ne _ hk) (fun _ => rfl) fun inode hinode => ?_
  · have hnref := h.nref
    dsimp only
    rw [inos_create, Finset.card_insert_of_notMem hno]
    omega
  · obtain rfl := Option.some.inj (hself.symm.trans hinode)
    exact ⟨.inl ⟨rfl, rfl⟩, fun _ => hregistered⟩

/-- An anon inode is removed: the reference for it is held by the remover. -/
theorem TaskOk.delete (hl : t.workingset.anonInodes.lookup ino = some inode) :
    TaskOk { t with workingset :=
      ⟨t.workingset.anonInodes.delete ino, t.workingset.anonDentries.delete ino⟩ }
      (held + 1) (Function.update files ino 0) := by
  have hmem : ino ∈ inos t.workingset := mem_inos.2 (by rw [hl]; rfl)
  refine h.change h.synced.delete ?_ (fun hn => hn)
    (fun k hk => KeyTree.lookup_delete_of_ne _ hk) (fun _ => rfl) fun inode hinode => ?_
  · have hnref := h.nref
    have hpos : 0 < (inos t.workingset).card := Finset.card_pos.2 ⟨ino, hmem⟩
    dsimp only
    rw [inos_delete, Finset.card_erase_of_mem hmem]
    omega
  · rw [KeyTree.lookup_delete_self] at hinode
    cases hinode

/-- The refcount goes with the open files. -/
theorem TaskOk.setRefcount {n : ℕ} (hpos : 0 < n)
    (hl : t.workingset.anonInodes.lookup ino = some inode) :
    TaskOk { t with workingset := t.workingset.setRefcount ino n } held
      (Function.update files ino n) := by
  have hself : (t.workingset.setRefcount ino n).anonInodes.lookup ino =
      some { inode with refcount := n } := by
    rw [AnonInodes.Workingset.setRefcount_self, hl]
    rfl
  refine h.change h.synced.setRefcount ?_ (fun hn => hn)
    (fun k hk => AnonInodes.Workingset.setRefcount_of_ne hk) (fun hno => ?_) fun inode hinode => ?_
  · dsimp only
    rw [inos_setRefcount]
    exact h.nref
  · rw [hself] at hno
    cases hno
  · obtain rfl := Option.some.inj (hself.symm.trans hinode)
    refine ⟨.inr ⟨hpos, rfl⟩, fun hno => ?_⟩
    rw [unreferenced] at hno
    dsimp only at hno
    omega

end TaskOk

end Tasks
end Sivfs
