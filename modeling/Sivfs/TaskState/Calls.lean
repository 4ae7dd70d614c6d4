/-
# What the calls keep

One lemma for each call, with its error paths: `sivfs_get_task_state` (`wp_getTaskState`),
`sivfs_create_anon_inode` (`wp_createAnonInode`), `sivfs_get_anon_inode` (`wp_select`),
`sivfs_put_anon_inode` (`wp_putAnonInode`), the open of an anon file (`wp_openAnon`) and
`sivfs_check_nontxnal_op` (`wp_check`).

A task that opens its first file calls `sivfs_commit_update`.  If that aborts, the error path
returns 0 and the caller uses a NULL pointer; this is where `wp_select` ends with
`Failure.badPointer`.
-/

import Sivfs.TaskState.References

namespace Sivfs
namespace Tasks

open AnonInodes (Workingset DentryPtr Failure Creation Opening AnonInode unreferenced create
  skipRefcount einval eperm)
open Call

variable {ws : Workingset} {ino k held : ℕ} {files : ℕ → ℕ} {t : Task} {s : Slot}
  {inode : AnonInode}

/-! ### The calls -/

theorem wp_orNull {m : Call Slot Failure DentryPtr} {Q : DentryPtr → Slot → Prop}
    {E : Failure → Slot → Prop} : (orNull m).wp Q E s ↔
      m.wp Q (fun e s' => if e = .rc 0 then Q .null s' else E e s') s := by
  rw [wp, wp, orNull]
  rcases m s with ⟨e | dentry, s'⟩
  · by_cases he : e = .rc 0 <;> simp [he]
  · rfl

/-- The error paths return an error code, but for a first anon inode in a transaction that is
aborted. -/
theorem getNewAnonInode_failure (env : Creation) (flags : ℕ) (ws : Workingset) :
    (AnonInodes.getNewAnonInode env ino flags).wp (fun _ _ => True)
      (fun e _ => e ≠ .badPointer ∧ (e = .rc 0 → env.aborted = true ∧ inos ws = ∅)) ws := by
  rw [AnonInodes.getNewAnonInode]
  by_cases hflags : flags &&& create = 0
  · rw [if_pos hflags]
    trivial
  rw [if_neg hflags]
  simp only [AnonInodes.call, AnonInodes.insertAnonInode, AnonInodes.insertAnonDentry, wp_bind,
    wp_require, wp_get, wp_modify, wp_onError]
  cases hempty : ws.anonInodes.isEmpty with
  | false => simp +contextual [AnonInodes.eexist, AnonInodes.einval]
  | true =>
    have hinos : inos ws = ∅ := by
      rw [inos, List.isEmpty_iff.1 hempty]
      rfl
    simp +contextual [AnonInodes.eexist, AnonInodes.einval, hinos]

theorem wp_getTaskState (h : Ok s held files) (env : Entry) :
    (getTaskState env).wp (fun _ s' => Ok s' (held + 1) files)
      (fun e s' => e ≠ .badPointer ∧ Ok s' held files) s := by
  cases hs : s.task with
  | some t =>
    rw [wp, getTaskState_of_some hs]
    obtain ⟨hok, hpos⟩ := h.task t hs
    exact .of_task hok.hold (by dsimp only; omega) h.freed
  | none =>
    obtain ⟨rfl, hfiles⟩ := h.gone hs
    obtain rfl : files = fun _ => 0 := funext hfiles
    simp only [getTaskState, call, wp_bind, wp_get, hs, wp_require, wp_onError, wp_modify]
    refine ⟨fun _ => ⟨fun _ => .of_task .new (by decide) h.freed, fun _ => ⟨by simp, ?_⟩⟩,
      fun _ => ⟨by simp, h⟩⟩
    refine ⟨fun t ht => absurd ht (by simp), fun _ => ⟨rfl, hfiles⟩, fun t ht => ?_⟩
    rcases List.mem_cons.1 ht with rfl | ht
    · exact ⟨rfl, rfl⟩
    · exact h.freed t ht

/-- With the notifier registered there is one more reference. -/
theorem wp_createAnonInode (hs : s.task = some t) (h : TaskOk t held files) (hpos : 0 < t.nref)
    (env : Creating) : (createAnonInode env).wp
      (fun _ s' => ∃ t', s' = { s with task := some t' } ∧ TaskOk t' held files ∧
        t'.workingset = t.workingset ∧ t'.notifierRegistered = true)
      (fun e s' => e ≠ .badPointer ∧ e ≠ .rc 0 ∧ s' = s) s := by
  simp only [createAnonInode, wp_bind, wp_require]
  refine ⟨fun _ => ?_, fun _ => ⟨by simp, by simp [enomem], trivial⟩⟩
  rw [wp_of_ok (theTask_of_some hs)]
  cases hn : t.notifierRegistered with
  | true => exact ⟨t, (Slot.eq_of_task hs).symm, h, rfl, hn⟩
  | false =>
    simp only [Bool.false_eq_true, if_false, wp_bind, wp_require]
    refine ⟨fun _ => ?_, fun _ => ⟨by simp, by simp [einval], trivial⟩⟩
    rw [wp_of_ok (getTaskState_of_some hs env.entry)]
    simp only [wp_onError, wp_bind, call, wp_require, wp_modify, put_of_hold hs hpos]
    refine ⟨fun _ => ⟨_, rfl, ⟨h.synced, ?_, h.absent, h.counted, fun _ _ _ _ => rfl⟩, rfl, rfl⟩,
      fun hno => ⟨by simp, by simpa using hno, trivial⟩⟩
    have hnref := h.nref
    rw [hn] at hnref
    simp only [Bool.toNat_true, Bool.toNat_false] at hnref ⊢
    omega

/-- A new anon inode takes a reference; without it, the reference is put again. -/
theorem wp_getNewAnonInode (h : Ok s held files) (hs : s.task = some t)
    (hl : t.workingset.anonInodes.lookup ino = none) (env : Creating) :
    (getNewAnonInode env ino (create ||| skipRefcount)).wp
      (fun dentry s' => dentry = .dentry ino ∧ Ok s' held files ∧ (s'.anonInode ino).isSome)
      (fun e s' => e ≠ .badPointer ∧
        (e = .rc 0 → env.aborted = true ∧ inos t.workingset = ∅) ∧ Ok s' held files) s := by
  obtain ⟨hok, hpos⟩ := h.task t hs
  rw [getNewAnonInode, if_neg (by decide), wp_bind, wp_of_ok (getTaskState_of_some hs env.entry)]
  simp only [wp_onError, wp_bind]
  refine wp_mono (wp_createAnonInode rfl hok.hold (by dsimp only; omega) env) ?_ ?_
  · rintro - _ ⟨t', rfl, hok', hws, hregistered⟩
    have hl' : t'.workingset.anonInodes.lookup ino = none := by rw [hws, hl]
    rw [wp_onWorkingset rfl]
    refine wp_mono (wp_and (AnonInodes.wp_getNewAnonInode hok'.synced hl' (by decide))
      (getNewAnonInode_failure ..)) ?_ ?_
    · rintro dentry _ ⟨⟨rfl, rfl⟩, -⟩
      have hcreated := hok'.insert hl' hregistered rfl
      refine ⟨rfl, .of_task hcreated ?_ h.freed, ?_⟩
      · have hnref := hcreated.nref
        rw [hregistered] at hnref
        simp only [Bool.toNat_true] at hnref ⊢
        omega
      · simp [Slot.anonInode, AnonInodes.Workingset.create]
    · rintro e _ ⟨rfl, he, hzero⟩
      rw [hws] at hzero
      exact ⟨he, hzero, hok'.put rfl h.freed⟩
  · rintro e _ ⟨he, hzero, rfl⟩
    exact ⟨he, fun hno => absurd hno hzero, hok.hold.put rfl h.freed⟩

/-- The state of a caller. -/
theorem Ok.exists_task (h : Ok s held files) (hheld : 0 < held) : ∃ t, s.task = some t := by
  cases hs : s.task with
  | some t => exact ⟨t, rfl⟩
  | none => exact absurd (h.gone hs).1 hheld.ne'

/-- **An anon inode is selected.** -/
theorem wp_select (h : Ok s held files) (hheld : 0 < held) (env : Creating) (ino : ℕ) :
    (Act.select env ino).call.wp (fun _ s' => Ok s' held files)
      (fun e s' => (e = .badPointer → Doomed s (.select env ino)) ∧ Ok s' held files) s := by
  obtain ⟨t, hs⟩ := h.exists_task hheld
  have hself := Slot.eq_of_task hs
  have hsynced := (h.task t hs).1.synced
  simp only [Act.call, wp_bind, getAnonInode]
  rw [wp_of_ok (theTask_of_some hs), hsynced ino]
  cases hl : t.workingset.anonInodes.lookup ino with
  | some inode =>
    have hget : AnonInodes.getAnonInode env.rest ino (create ||| skipRefcount) t.workingset =
        (.ok (.dentry ino), t.workingset) := by
      rw [AnonInodes.getAnonInode_of_some hsynced hl, if_neg (by decide)]
    simp only [Option.map_some, wp_onWorkingset hs, wp_of_ok hget, hself]
    simp only [wp_onWorkingset hs, AnonInodes.dInode, wp_bind, wp_get, hl, wp_pure, hself]
    exact h
  | none =>
    simp only [Option.map_none, wp_orNull]
    refine wp_mono (wp_getNewAnonInode h hs hl env) ?_ ?_
    · rintro _ s' ⟨rfl, hok, hsome⟩
      rw [Slot.anonInode] at hsome
      obtain ⟨inode, hinode⟩ := Option.isSome_iff_exists.1 hsome
      obtain ⟨t', ht', hl'⟩ := Option.bind_eq_some_iff.1 hinode
      simp only [wp_onWorkingset ht', AnonInodes.dInode, wp_bind, wp_get, hl', wp_pure,
        Slot.eq_of_task ht']
      exact hok
    · rintro e s' ⟨he, hzero, hok⟩
      split_ifs with hrc
      -- `sivfs_d_select_anon_inode` takes the NULL for a dentry.
      · obtain ⟨t', ht'⟩ := hok.exists_task hheld
        simp only [wp_bind, wp_onWorkingset ht', AnonInodes.dInode, wp_fail,
          Slot.eq_of_task ht']
        refine ⟨fun _ => ⟨(hzero hrc).1, fun t₀ ht₀ => ?_⟩, hok⟩
        obtain rfl := Option.some.inj (hs.symm.trans ht₀)
        exact (hzero hrc).2
      · exact ⟨fun hno => absurd hno he, hok⟩

/-- **The anon inode of a file that is closed is put.** -/
theorem wp_putAnonInode (hok : TaskOk t held files) (hs : s.task = some t)
    (hfreed : ∀ t ∈ s.freed, Clean t) (hpos : 0 < t.nref)
    (hl : t.workingset.anonInodes.lookup ino = some inode) :
    (putAnonInode ino).wp (fun _ s' => Ok s' held (Function.update files ino (files ino - 1)))
      (fun _ _ => False) s := by
  have hd : t.workingset.anonDentries.lookup ino = some ino := by rw [hok.synced ino, hl]; rfl
  have hexact := hok.counted ino inode hl
  have hun := hexact.unreferenced_iff
  rw [putAnonInode, wp_bind, wp_of_ok (theTask_of_some hs)]
  simp only [hl, hd, Option.isSome_some, and_true, wp_bind, wp_onWorkingset hs, wp_modify]
  by_cases hlast : inode.refcount = unreferenced ∨ inode.refcount = 1
  · have hfiles : files ino - 1 = 0 := by
      rw [Exact] at hexact
      omega
    rw [if_pos hlast, wp_modify, AnonInodes.putAnonInode_of_freed hl hlast, hfiles]
    exact (hok.delete hl).put rfl hfreed
  · rw [if_neg hlast, wp_pure]
    have hmany : 1 < inode.refcount ∧ inode.refcount - 1 = (files ino - 1 : ℕ) ∧
        0 < files ino - 1 := by
      rw [Exact] at hexact
      omega
    rw [AnonInodes.putAnonInode_of_kept hl hmany.1, hmany.2.1]
    exact .of_task (hok.setRefcount hmany.2.2 hl) hpos hfreed

/-- A reference that can be counted is one more open file. -/
theorem TaskOk.count (h : TaskOk t held files)
    (hl : t.workingset.anonInodes.lookup ino = some inode) {refcount : ℤ}
    (hcount : AnonInodes.countReference inode.refcount = some refcount) :
    TaskOk { t with workingset := t.workingset.setRefcount ino refcount } held
      (Function.update files ino (files ino + 1)) := by
  have hexact := h.counted ino inode hl
  have hrefcount : refcount = (files ino + 1 : ℕ) := by
    rw [Exact, unreferenced] at hexact
    rcases AnonInodes.countReference_eq_some hcount with ⟨hun, rfl⟩ | ⟨hpos, -, rfl⟩
    · rw [unreferenced] at hun
      omega
    · omega
  rw [hrefcount]
  exact h.setRefcount (by omega) hl

/-- **A file is opened.** -/
theorem wp_openAnon (h : Ok s held files) (hl : s.anonInode ino = some inode)
    (newFinfo openDirectAccess : ℤ) : (Act.openAnon newFinfo openDirectAccess ino).call.wp
      (fun _ s' => Ok s' held (Function.update files ino (files ino + 1)))
      (fun e s' => e ≠ .badPointer ∧ Ok s' held files) s := by
  obtain ⟨t, hs, hl⟩ := Option.bind_eq_some_iff.1 hl
  obtain ⟨hok, hpos⟩ := h.task t hs
  have hself := Slot.eq_of_task hs
  simp only [Act.call, anonOpen, AnonInodes.anonOpen, AnonInodes.call, AnonInodes.takeReference,
    wp_bind, wp_get, hs, wp_onWorkingset hs, wp_require, hl, if_false, Bool.false_eq_true, hself]
  refine ⟨fun _ => ⟨fun _ => ⟨fun _ => ?_, fun _ => ⟨by simp, h⟩⟩, fun _ => ⟨by simp, h⟩⟩,
    fun _ => ⟨by simp, h⟩⟩
  cases hcount : AnonInodes.countReference inode.refcount with
  | none =>
    simp only [wp_fail, hself]
    exact ⟨by simp, h⟩
  | some refcount =>
    simp only [wp_modify, wp_pure, not_true_eq_false, false_imp_iff, and_true, true_imp_iff]
    exact .of_task (hok.count hl hcount) hpos h.freed

/-- **The guard of the operations outside transactions**: its reference is one more open file
for a moment. -/
theorem wp_check (h : Ok s held files) (hl : s.anonInode ino = some inode) (env : Creating) :
    (Act.check env ino).call.wp (fun _ s' => Ok s' held files)
      (fun e s' => e ≠ .badPointer ∧ Ok s' held files) s := by
  obtain ⟨t, hs, hl⟩ := Option.bind_eq_some_iff.1 hl
  obtain ⟨hok, hpos⟩ := h.task t hs
  have hd : t.workingset.anonDentries.lookup ino = some ino := by rw [hok.synced ino, hl]; rfl
  have hself := Slot.eq_of_task hs
  simp only [Act.call, checkNontxnalOp, getAnonInode, wp_bind]
  rw [wp_of_ok (theTask_of_some hs)]
  simp only [hd, wp_onWorkingset hs]
  cases hcount : AnonInodes.countReference inode.refcount with
  | none =>
    rw [wp, AnonInodes.getAnonInode_of_some hok.synced hl, if_pos (by decide), hcount]
    simp only [hself]
    exact ⟨by simp, h⟩
  | some refcount =>
    have hget : AnonInodes.getAnonInode env.rest ino 0 t.workingset =
        (.ok (.dentry ino), t.workingset.setRefcount ino refcount) := by
      rw [AnonInodes.getAnonInode_of_some hok.synced hl, if_pos (by decide), hcount]
    have hself' : (t.workingset.setRefcount ino refcount).anonInodes.lookup ino =
        some { inode with refcount := refcount } := by
      rw [AnonInodes.Workingset.setRefcount_self, hl]
      rfl
    have hcounted := hok.count hl hcount
    rw [wp_of_ok hget, wp_bind, wp_onWorkingset rfl]
    simp only [AnonInodes.dInode, wp_bind, wp_get, hself', wp_pure]
    refine wp_mono (wp_putAnonInode hcounted rfl h.freed hpos hself') (fun _ s' hput => ?_)
      fun _ _ hno => hno.elim
    rwa [Function.update_self, Nat.add_sub_cancel, Function.update_idem,
      Function.update_eq_self] at hput

end Tasks
end Sivfs
