/-
# What each step of a thread keeps

| before | in | no write to a recorded page |
| --- | --- | --- |
| fault | the checkpoint to the snapshot | `sivfs_find_first_write` |
| update | the snapshot to the next one | `sivfs_find_get_wspg` |

A fault records a page that nothing between the checkpoint and the snapshot writes to
(`TaskOk.fault`); the three phases of a call keep what holds of the pages recorded
(`TaskOk.commitWrites`, `TaskOk.checkOut`, `TaskOk.takeSnapshot`).

The update leaves out the thread's own commit, whose words are in pages of its own, as
long as the commit has the tags of its addresses (`misses_of_commitWrites`).  A write-set that
is cut short at the end of a file keeps the tags that user space put in.
-/

import Sivfs.Update.Steady

open PathCopy

namespace Sivfs
namespace Mapped

open Checkpoint
open Update (Workingset Resident Env Txn sivfsFindVma submit CutShort)

section Tasks

variable {s s' : Lifetimes.State} {task : Task}

/-! ### Faults -/

/-- If `sivfs_find_first_write` finds nothing, nothing was written. -/
theorem untouched_of_findFirstWrite {s : Shared} (hlog : Consecutive 1 s.log) {a t ino pgoff : ℕ}
    (h : findFirstWrite s a t ino (pgoff * pageSize) (pgoff * pageSize + pageSize) =
      .ok invalidTs) : Untouched s.log a t ino pgoff := by
  intro l hl hlt hle hlive ent hent hit
  rw [findFirstWrite] at h
  split_ifs at h with hrange heq
  · omega
  · cases hrest : tsToLogEntry s.log (a + 1) with
    | nil => simp [hrest] at h
    | cons l₀ rest =>
      simp only [hrest, Except.ok.injEq] at h
      have hdrop : s.log.drop a = l₀ :: rest := by
        rw [← hrest, hlog.tsToLogEntry_eq (Nat.le_add_left 1 a), Nat.add_sub_cancel]
      have hcons := hlog.drop a
      rw [hdrop] at hcons
      have hl₀ : l₀.ts = 1 + a := hcons.1
      have hno := noWrite_of_findFirstWriteLoop rest (show l₀.ts ≤ t by omega) h
      have hmem : l ∈ upTo t (l₀ :: rest) := by
        rw [hcons.upTo_eq, ← hdrop]
        have hl' := hlog.mem_drop_iff.2 ⟨hl, hlt⟩
        obtain ⟨i, hi⟩ := List.mem_iff_getElem?.1 hl'
        have hts := (hlog.drop a).ts_of_getElem? hi
        refine List.mem_iff_getElem?.2 ⟨i, ?_⟩
        rw [List.getElem?_take, if_pos (by omega)]
        exact hi
      refine hno l hmem hlive ent hent ?_
      obtain ⟨hino, hpg⟩ := Update.hitsPage_pgoff.1 hit
      simp only [pageSize] at hpg ⊢
      omega

/-- What `sivfs_fault_checkpoint` records. -/
theorem faultCheckpoint_some {s : Shared} {th : Update.Thread} {ino pgoff : ℕ} {p : Ref}
    (h : faultCheckpoint s th ino pgoff = .ok (some p)) :
    ∃ (t : ℕ) (cp : Cp), th.ts = (t : Ts) ∧ th.checkpoint = some cp ∧
      findFirstWrite s cp.cpTs t ino (pgoff * pageSize) (pgoff * pageSize + pageSize) =
        .ok invalidTs ∧
      InRange ino (pgoff * pageSize) ∧
      follow s.heap.child cp.root (pathOf ino (pgoff * pageSize)) = some p := by
  unfold faultCheckpoint at h
  split at h
  · rename_i t cp hts hcp
    cases hfirst : findFirstWrite s cp.cpTs t ino (pgoff * pageSize)
      (pgoff * pageSize + pageSize) with
    | error e => simp [hfirst] at h
    | ok first =>
      simp only [hfirst] at h
      rw [checkpointIterInit_eq] at h
      split_ifs at h with hmod hown hin
      · simp at h
      · simp at h
      · refine ⟨t, cp, hts, hcp, ?_, hin, by simpa [Except.map] using h⟩
        rw [hfirst, not_not.1 hmod]
      · simp [Except.map] at h
  · simp at h

/-- In user space the pages do not matter. -/
theorem PcOk.of_user {task' : Task} (h : PcOk s task) (hpc : ∃ returned, task.pc = .user returned)
    (hpc' : task'.pc = task.pc) (hcp : task'.thread.checkpoint = task.thread.checkpoint)
    (hts : task'.thread.ts = task.thread.ts) : PcOk s task' := by
  obtain ⟨returned, hpc⟩ := hpc
  rw [PcOk, hpc] at h
  rw [PcOk, hpc', hpc, hcp, hts]
  cases returned with
  | false => trivial
  | true => exact h

/-- A thread that gets a page of its own. -/
theorem TaskOk.put (h : TaskOk s task) {ino pgoff : ℕ} {r : Resident} (hr : r.checkpoint = false)
    (hpc : ∃ returned, task.pc = .user returned) :
    TaskOk s (task.setPage ino pgoff r) := by
  refine ⟨h.outside, h.checkpoint, h.none, h.ts, fun i o hrec => ?_, ?_⟩
  · rcases recorded_put hrec with ⟨-, -, x, hx, hcp⟩ | ⟨-, hold⟩
    · obtain rfl := Option.some.inj hx
      exact absurd hcp (by simp [hr])
    · exact h.pages i o hold
  · exact h.pc.of_user hpc rfl rfl rfl

/-- **A fault maps a page of the checkpoint that is checked out.** -/
theorem TaskOk.fault (h : TaskOk s task) (hi : Lifetimes.Inv s) {task' : Task} {write : Bool}
    {ino pgoff : ℕ} (hpc : ∃ returned, task.pc = .user returned)
    (hf : fault s.toShared task write ino pgoff = some task') : TaskOk s task' := by
  unfold Mapped.fault at hf
  split at hf
  · simp at hf
  · rename_i p hp
    obtain rfl := Option.some.inj hf
    obtain ⟨t, cp, hts, hcp, hfirst, hin, hfollow⟩ := faultCheckpoint_some hp
    have hun := untouched_of_findFirstWrite hi.shared.log hfirst
    refine ⟨h.outside, h.checkpoint, h.none, h.ts, fun i o hrec => ?_, ?_⟩
    · rcases recorded_put hrec with ⟨rfl, rfl, -⟩ | ⟨hne, hold⟩
      · exact ⟨hin, cp, (h.checkpoint cp hcp).1, by simpa using hfollow, ⟨cp, hcp, le_rfl⟩, t, hts,
          hun⟩
      · obtain ⟨hin', cp₀, hcp₀, hfollow', hrest⟩ := h.pages i o hold
        refine ⟨hin', cp₀, hcp₀, ?_, hrest⟩
        exact hfollow'.trans (congrArg some (if_neg hne).symm)
    · exact h.pc.of_user hpc rfl rfl rfl
  · obtain rfl := Option.some.inj hf
    exact h.put rfl hpc
  · split_ifs at hf
    · obtain rfl := Option.some.inj hf
      exact h
    · cases hpage : updatePage s.toShared task.thread.toThread ino (pgoff * pageSize) with
      | error e => simp [hpage] at hf
      | ok words =>
        simp only [hpage] at hf
        obtain rfl := Option.some.inj hf
        exact h.put rfl hpc

/-- A store. -/
theorem TaskOk.store (h : TaskOk s task) {task' : Task} {ino pgoff j value : ℕ}
    (hpc : ∃ returned, task.pc = .user returned)
    (hs : store task ino pgoff j value = some task') : TaskOk s task' := by
  unfold Mapped.store at hs
  split at hs
  · obtain rfl := Option.some.inj hs
    exact h.put rfl hpc
  · simp at hs

/-! ### Calls -/

/-- The words of a write-set were stored to pages of the thread's own. -/
def storedFirst (mm : Update.Mm) (pages : Workingset) (ws : List WsEntry) : Bool :=
  ws.all fun ent =>
    match sivfsFindVma mm ent.address wordBytes true with
    | .error _ => true
    | .ok vma =>
      (pages vma.backingIno (vma.fileOffset ent.address / pageSize)).any fun r => !r.checkpoint

/-- What is stored first is written to no recorded page. -/
theorem misses_of_storedFirst {mm : Update.Mm} {iSize : ℕ → ℕ → ℕ} {pages : Workingset}
    {ws : List WsEntry} (h : storedFirst mm pages ws = true) (hpass : Update.AllPass mm iSize ws)
    {ino pgoff : ℕ} (hrec : Recorded pages ino pgoff) :
    Misses ino pgoff (ws.map (Update.located mm)) := by
  intro ent hent hit
  obtain ⟨ent₀, hent₀, rfl⟩ := List.mem_map.1 hent
  obtain ⟨k, hk⟩ := List.mem_iff_getElem?.1 hent₀
  obtain ⟨vma, ha, -⟩ := hpass k ent₀ hk
  have hown := List.all_eq_true.1 h ent₀ hent₀
  simp only [ha.found] at hown
  rw [ha.located] at hit
  obtain ⟨rfl, rfl⟩ := Update.hitsPage_pgoff.1 hit
  exact not_recorded_of_own hown hrec

/-- How a write-set is dealt with: nothing new is recorded, and `commit_ts` is that of
the entry appended. -/
structure Deals (env : Env) (th : Update.Thread)
    (out : Update.Thread × Option LogEntry × Except Update.Exit (Ts × Bool)) : Prop where
  pages : ∃ pages, out.1 = { th with workingset := pages } ∧
    ∀ ino pgoff, Recorded pages ino pgoff → Recorded th.workingset ino pgoff
  entry : ∀ l, out.2.1 = some l → l.ts = env.earlier.length + 1
  commitTs : ∀ commitTs aborted, out.2.2 = .ok (commitTs, aborted) → ∀ c : ℕ,
    commitTs = (c : Ts) → ∃ l, out.2.1 = some l ∧ l.ts = c

section Writes

variable {env : Env} {th : Update.Thread}

theorem deals_error {entry : Option LogEntry} (e : Update.Exit)
    (hentry : ∀ l, entry = some l → l.ts = env.earlier.length + 1) :
    Deals env th (th, entry, .error e) :=
  ⟨⟨th.workingset, rfl, fun _ _ h => h⟩, hentry, by simp⟩

theorem deals_nothing (aborted : Bool) : Deals env th (th, none, .ok (invalidTs, aborted)) := by
  refine ⟨⟨th.workingset, rfl, fun _ _ h => h⟩, by simp, fun commitTs aborted' h c hc => ?_⟩
  obtain ⟨rfl, -⟩ := Prod.mk.inj (Except.ok.inj h)
  exact absurd hc.symm WithTop.coe_ne_top

theorem deals_abort (ws : List WsEntry) {entry : Option LogEntry} {commitTs : Ts}
    (hentry : ∀ l, entry = some l → l.ts = env.earlier.length + 1)
    (hts : ∀ c : ℕ, commitTs = (c : Ts) → ∃ l, entry = some l ∧ l.ts = c) :
    Deals env th (Update.abortWrites th ws entry commitTs) := by
  have hrec : ∀ ino pgoff, Recorded (Update.walkWs Update.unmapPageRange ws th.workingset).1 ino
      pgoff → Recorded th.workingset ino pgoff := fun ino pgoff =>
    recorded_walkWs Update.unmapPageRange recorded_unmap ws
  unfold Update.abortWrites Update.invalidateWorkingsetLog
  generalize Update.walkWs Update.unmapPageRange ws th.workingset = res at hrec ⊢
  rcases res with ⟨pages, e | ⟨⟩⟩
  · exact ⟨⟨pages, rfl, hrec⟩, hentry, by simp⟩
  · refine ⟨⟨pages, rfl, hrec⟩, hentry, fun commitTs' aborted h c hc => hts c ?_⟩
    obtain ⟨rfl, -⟩ := Prod.mk.inj (Except.ok.inj h)
    exact hc

/-- **What becomes of a write-set.** -/
theorem commitWrites_deals (env : Env) (th : Update.Thread) (w : Option Update.Submitted)
    (doomed : Bool) : Deals env th (Update.commitWrites env th w doomed) := by
  unfold Update.commitWrites
  cases w with
  | none => exact deals_nothing doomed
  | some w =>
    simp only
    split_ifs
    · exact deals_nothing doomed
    · rcases Update.addMetadataToChanges env.mm env.iSize w with ⟨w', e | ⟨⟩⟩
      · exact deals_error (.code e) (by simp)
      · show Deals env th (Update.commitTagged env th w'.entries doomed)
        unfold Update.commitTagged Update.commitChanges
        split_ifs
        · exact deals_abort w'.entries (by simp) fun c hc => absurd hc.symm WithTop.coe_ne_top
        · cases env.lock with
          | some e => exact deals_error (.code e) (by simp)
          | none =>
            cases Update.validate env th.ts w'.entries (env.earlier.length + 1) with
            | none => exact deals_error .fault (by simp)
            | some aborted =>
              cases aborted with
              | false =>
                refine ⟨⟨th.workingset, rfl, fun _ _ h => h⟩, by simp,
                  fun commitTs aborted h c hc => ?_⟩
                obtain ⟨rfl, -⟩ := Prod.mk.inj (Except.ok.inj h)
                exact ⟨_, rfl, WithTop.coe_inj.1 hc⟩
              | true =>
                exact deals_abort w'.entries (by simp) fun c hc => ⟨_, rfl, WithTop.coe_inj.1 hc⟩

/-- **The commit of a thread writes to none of the pages it has recorded**, unless its
write-set is cut short. -/
theorem misses_of_commitWrites {ws : List WsEntry} {doomed : Bool} {l : LogEntry}
    (hstored : storedFirst env.mm th.workingset ws = true)
    (hcut : ¬CutShort env.mm env.iSize ws)
    (h : (Update.commitWrites env th (some (submit ws)) doomed).2.1 = some l) {ino pgoff : ℕ}
    (hrec : Recorded th.workingset ino pgoff) : Misses ino pgoff l.ws := by
  obtain ⟨w', hmeta, hws⟩ := Update.commitWrites_entry h
  have hpass := Update.allPass_of_admitted hcut hmeta
  rw [hpass.addMetadata] at hmeta
  obtain ⟨rfl, -⟩ := Prod.mk.inj hmeta
  rw [hws]
  exact misses_of_storedFirst hstored hpass hrec

end Writes

/-- A thread that keeps no more than some of its pages. -/
theorem TaskOk.shrink (h : TaskOk s task) {th : Update.Thread} {pc : Pc}
    (hts : th.ts = task.thread.ts) (hcp : th.checkpoint = task.thread.checkpoint)
    (hcpTs : th.checkpointTs = task.thread.checkpointTs)
    (hda : th.directAccess = task.thread.directAccess)
    (hrec : ∀ ino pgoff, Recorded th.workingset ino pgoff →
      Recorded task.thread.workingset ino pgoff) (hpc : PcOk s ⟨th, pc, task.mapped⟩) :
    TaskOk s ⟨th, pc, task.mapped⟩ := by
  refine ⟨hda.trans h.outside, fun c hc => ?_, fun hc => ?_, fun t ht => h.ts t (hts ▸ ht),
    fun ino pgoff hr => ?_, hpc⟩
  · exact ⟨(h.checkpoint c (hcp ▸ hc)).1, hcpTs.trans (h.checkpoint c (hcp ▸ hc)).2⟩
  · exact hcpTs.trans (h.none (hcp ▸ hc))
  · have hok := h.pages ino pgoff (hrec ino pgoff hr)
    unfold PageOk at hok ⊢
    rw [hts, hcp]
    exact hok

/-- What a call submits: its words were stored first, and it is not cut short. -/
def Whole (pages : Workingset) (env : Env) (ws : Option (List WsEntry)) : Prop :=
  ∀ ws', ws = some ws' → storedFirst env.mm pages ws' = true ∧ ¬CutShort env.mm env.iSize ws'

/-- **The write-set is dealt with.** -/
theorem TaskOk.commitWrites (h : TaskOk s task) (hi : Lifetimes.Inv s) {env : Env}
    {ws : Option (List WsEntry)} {abort : Bool} (hw : Whole task.thread.workingset env ws)
    {task' : Task} {entry : Option LogEntry}
    (hc : commitWrites s.toShared task env ws abort = (task', entry)) :
    (∀ l, entry = some l → l.ts = s.masterTs + 1) ∧ TaskOk (append s entry) task' := by
  have hdeals := commitWrites_deals { env with earlier := txns s.log }
    { task.thread with shouldAbort := false } (ws.map submit) (task.thread.shouldAbort || abort)
  have hmiss : ∀ l, (Update.commitWrites { env with earlier := txns s.log }
      { task.thread with shouldAbort := false } (ws.map submit)
      (task.thread.shouldAbort || abort)).2.1 = some l →
      ∀ ino pgoff, Recorded task.thread.workingset ino pgoff → Misses ino pgoff l.ws := by
    intro l hl ino pgoff hrec
    cases ws with
    | none => simp [Update.commitWrites] at hl
    | some ws =>
      obtain ⟨hstored, hcut⟩ := hw ws rfl
      exact @misses_of_commitWrites { env with earlier := txns s.log }
        { task.thread with shouldAbort := false } ws _ l hstored hcut hl ino pgoff hrec
  unfold Mapped.commitWrites at hc
  generalize Update.commitWrites { env with earlier := txns s.log }
    { task.thread with shouldAbort := false } (ws.map submit)
    (task.thread.shouldAbort || abort) = out at hdeals hmiss hc
  obtain ⟨th, entry', res⟩ := out
  obtain ⟨⟨pages, hth, hrec⟩, hentry, hcommit⟩ := hdeals
  simp only at hth hentry hcommit hmiss
  have hts : ∀ l, entry' = some l → l.ts = s.masterTs + 1 := by
    intro l hl
    rw [hentry l hl, txns, List.length_map, hi.shared.masterTs]
  have hx : Extends s (append s entry') := by
    cases entry' with
    | none => exact .refl s
    | some l => exact extends_append (hts l rfl)
  subst hth
  rcases res with e | ⟨commitTs, aborted⟩
  · obtain ⟨rfl, rfl⟩ := Prod.mk.inj hc
    exact ⟨hts, (h.extends hx).shrink rfl rfl rfl rfl hrec trivial⟩
  · obtain ⟨rfl, rfl⟩ := Prod.mk.inj hc
    refine ⟨hts, (h.extends hx).shrink rfl rfl rfl rfl hrec fun c hc => ?_⟩
    obtain ⟨l, rfl, hlc⟩ := hcommit commitTs aborted rfl c hc
    have hl := hts l rfl
    refine ⟨?_, fun l' hl' hts' ino pgoff hr => ?_⟩
    · show c ≤ s.masterTs + 1
      omega
    · have hmem : l' ∈ s.log ++ [l] := hl'
      rcases List.mem_append.1 hmem with hold | hnew
      · have hlen := hi.shared.masterTs
        obtain ⟨i, hi'⟩ := List.mem_iff_getElem?.1 hold
        have hts := hi.shared.log.ts_of_getElem? hi'
        have := (List.getElem?_eq_some_iff.1 hi').1
        omega
      · obtain rfl := List.mem_singleton.1 hnew
        exact hmiss l' rfl ino pgoff (hrec ino pgoff hr)

/-- **A checkpoint is checked out.** -/
theorem TaskOk.checkOut (h : TaskOk s task) (hi : Lifetimes.Inv s) {env : Env} {commitTs : Ts}
    {aborted : Bool} (hpc : task.pc = .committed commitTs aborted) :
    TaskOk s (checkOut s.toShared task env commitTs aborted) := by
  have hspares : Spares s task.thread.workingset commitTs := by
    have := h.pc
    rwa [PcOk, hpc] at this
  obtain ⟨hth, hcpTs, hws, hda⟩ := Update.allocationOnCommit_frame env task.thread aborted
  have hts := congrArg Checkpoint.Thread.ts hth
  have hcp := congrArg Checkpoint.Thread.checkpoint hth
  clear hth
  unfold Mapped.checkOut
  generalize Update.allocationOnCommit env task.thread aborted = out at hts hcp hcpTs hws hda ⊢
  obtain ⟨th, e | ⟨⟩⟩ := out
  · exact h.shrink hts hcp hcpTs hda (fun ino pgoff hr => by rwa [← hws]) trivial
  · simp only at hts hcp hcpTs hws hda ⊢
    unfold Update.checkOut
    by_cases hsame : th.checkpointTs = (s.latest.cpTs : Ts)
    · simp only [if_pos hsame]
      refine h.shrink hts hcp hcpTs hda (fun ino pgoff hr => by rwa [← hws]) ⟨by rwa [hws], ?_⟩
      show ∃ cp, th.checkpoint = some cp
      rw [hcp]
      rcases hnone : task.thread.checkpoint with _ | cp
      · exact absurd (hsame.symm.trans (hcpTs.trans (h.none hnone))) WithTop.coe_ne_top
      · exact ⟨cp, rfl⟩
    · simp only [if_neg hsame]
      refine ⟨hda.trans h.outside, fun cp hcp => ?_, by simp, fun t ht => ?_,
        fun ino pgoff hr => ?_, ?_, ?_⟩
      · obtain rfl := Option.some.inj hcp
        exact ⟨hi.latest, rfl⟩
      · exact h.ts t (hts.symm.trans ht)
      · have hr' : Recorded task.thread.workingset ino pgoff := hws ▸ hr
        obtain ⟨hin, cp₀, hcp₀, hfollow, -, t, ht, hun⟩ := h.pages ino pgoff hr'
        exact ⟨hin, cp₀, hcp₀, hfollow, ⟨s.latest, rfl, (hi.cps cp₀ hcp₀).2⟩, t, hts.trans ht, hun⟩
      · show Spares s th.workingset commitTs
        rwa [hws]
      · exact ⟨_, rfl⟩

/-- What an update leaves alone. -/
theorem update_frame {env : Env} {log : List LogEntry} {th th' : Update.Thread} {nextTs : ℕ}
    {skipTs : Ts} {e : Except Errno Unit} (hd : th.directAccess = false)
    (h : Update.update env log th nextTs skipTs = (th', e)) :
    th'.checkpoint = th.checkpoint ∧ th'.checkpointTs = th.checkpointTs ∧
      th'.directAccess = th.directAccess ∧
        th'.ts = if e = .ok () then (nextTs : Ts) else th.ts := by
  by_cases htop : th.ts = ⊤
  · rw [Update.update, if_neg (by simp [hd]), htop] at h
    obtain ⟨rfl, rfl⟩ := Prod.mk.inj h
    exact ⟨rfl, rfl, rfl, rfl⟩
  · obtain ⟨t, hts⟩ := WithTop.ne_top_iff_exists.1 htop
    rw [Update.update_of_ts hd hts.symm] at h
    split_ifs at h
    · obtain ⟨rfl, rfl⟩ := Prod.mk.inj h
      exact ⟨rfl, rfl, rfl, rfl⟩
    · obtain ⟨rfl, rfl⟩ := Prod.mk.inj h
      exact ⟨rfl, rfl, rfl, rfl⟩
    · cases hrest : tsToLogEntry log (t + 1) with
      | nil =>
        simp only [hrest] at h
        obtain ⟨rfl, rfl⟩ := Prod.mk.inj h
        exact ⟨rfl, rfl, rfl, rfl⟩
      | cons clog rest =>
        simp only [hrest] at h
        rcases happly : Update.applyLogsWorkingset clog rest nextTs skipTs th.workingset with
          ⟨pages, e | ⟨⟩⟩
        · simp only [happly] at h
          obtain ⟨rfl, rfl⟩ := Prod.mk.inj h
          exact ⟨rfl, rfl, rfl, rfl⟩
        · simp only [happly] at h
          obtain ⟨rfl, rfl⟩ := Prod.mk.inj h
          exact ⟨rfl, rfl, rfl, rfl⟩

theorem leaveDirectAccess_of_outside {th : Update.Thread} (hd : th.directAccess = false) :
    Update.leaveDirectAccess th = th := by
  cases th
  obtain rfl : _ = false := hd
  rfl

/-- **The snapshot is taken.** -/
theorem TaskOk.takeSnapshot (h : TaskOk s task) (hi : Lifetimes.Inv s) {env : Env}
    {commitTs checkpointTs : Ts} (hpc : task.pc = .checkedOut commitTs checkpointTs) :
    TaskOk s (takeSnapshot s.toShared task env commitTs checkpointTs) := by
  obtain ⟨hspares, cp, hcp⟩ : Spares s task.thread.workingset commitTs ∧
      ∃ cp, task.thread.checkpoint = some cp := by
    have := h.pc
    rwa [PcOk, hpc] at this
  unfold Mapped.takeSnapshot Update.takeSnapshot
  simp only [Bool.false_eq_true, if_false, leaveDirectAccess_of_outside h.outside]
  rcases hup : Update.update { env with masterTs := s.masterTs } s.log task.thread s.masterTs
    commitTs with ⟨th, e | ⟨⟩⟩
  · obtain ⟨hcp', hcpTs, hda, hts⟩ := update_frame h.outside hup
    exact h.shrink hts hcp' hcpTs hda (fun ino pgoff hr => (recorded_update hi.shared.log hup hr).1)
      trivial
  · obtain ⟨hcp', hcpTs, hda, hts⟩ := update_frame h.outside hup
    rw [if_pos rfl] at hts
    refine ⟨hda.trans h.outside, fun c hc => ?_, fun hc => ?_, fun t ht => ?_,
      fun ino pgoff hr => ?_, cp, hcp'.trans hcp, s.masterTs, hts,
        (hi.cps cp (h.checkpoint cp hcp).1).1.le⟩
    · exact ⟨(h.checkpoint c (hcp' ▸ hc)).1, hcpTs.trans (h.checkpoint c (hcp' ▸ hc)).2⟩
    · exact hcpTs.trans (h.none (hcp' ▸ hc))
    · exact (WithTop.coe_inj.1 (ht.symm.trans hts)).le
    · obtain ⟨hold, hmiss⟩ := recorded_update hi.shared.log hup hr
      obtain ⟨hin, cp₀, hcp₀, hfollow, hle, t, ht, hun⟩ := h.pages ino pgoff hold
      refine ⟨hin, cp₀, hcp₀, hfollow, ?_, s.masterTs, hts, fun l hl hlt hle' hlive => ?_⟩
      · show ∃ cp, th.checkpoint = some cp ∧ _
        rw [hcp']
        exact hle
      · rcases Nat.lt_or_ge t l.ts with hnew | hsnap
        · by_cases hskip : (l.ts : Ts) = commitTs
          · exact (hspares l.ts hskip.symm).2 l hl rfl ino pgoff hold
          · exact hmiss rfl t ht l hl hnew hle' hskip hlive
        · exact hun l hl hlt hsnap hlive

end Tasks

end Mapped
end Sivfs
