/-
# A call of commit/update

`my_sivfs_commit_update` (`kern/sivfs_commit_update_checkpoints.c`) and what it
calls there, in `kern/sivfs_workingset.c` and in `kern/alloc/sivfs_allocation.c`.

The call is one function here.  What it finds in the state that the threads
share, each time it looks, is an argument, `Env`: the mappings and file sizes, the
log when the commit lock is taken and what comes behind the new entry, the latest
checkpoint, `master_ts`, and the failures of allocations and locks.

The pages that a thread has mapped are of two kinds.  A page of a checkpoint is
shared and read-only; a page of the working set is the thread's own and has its
writes in it.
-/

import Sivfs.Commit.Protocol
import Sivfs.Checkpoint.Snapshot
import Sivfs.Update.Metadata

namespace Sivfs
namespace Update

/-! ### The log -/

/-- A transaction as it ends up in the log. -/
structure Txn where
  aborted : Bool
  ws : List WsEntry
  deriving DecidableEq

/-- The log entries of transactions that take the timestamps from `k` on. -/
def stamp : ℕ → List Txn → List LogEntry
  | _, [] => []
  | k, x :: txns => ⟨k, x.aborted, x.ws⟩ :: stamp (k + 1) txns

/-! ### The pages of a thread -/

/-- A page that a thread has mapped. -/
structure Resident where
  /-- `sivfs_is_checkpoint_page`. -/
  checkpoint : Bool
  words : ℕ → ℕ

/-- The mapped pages, by inode number and page offset. -/
abbrev Workingset := ℕ → ℕ → Option Resident

/-- The page is replaced, or with `none` removed. -/
def Workingset.put (pages : Workingset) (ino pgoff : ℕ) (r : Option Resident) : Workingset :=
  fun i p => if i = ino ∧ p = pgoff then r else pages i p

/-- `sivfs_unmap_page_range` for one page. -/
def unmapPageRange (pages : Workingset) (ent : WsEntry) : Workingset :=
  pages.put ent.ino (ent.fileOffset / pageSize) none

/-- `sivfs_find_get_wspg` with `SIVFS_EVICT_CHECKPOINT`, then
`sivfs_apply_ws_ent_pg`. -/
def applyToWspg (pages : Workingset) (ent : WsEntry) : Workingset :=
  match pages ent.ino (ent.fileOffset / pageSize) with
  | none => pages
  | some r =>
    if r.checkpoint then unmapPageRange pages ent
    else pages.put ent.ino (ent.fileOffset / pageSize)
      (some { r with words := applyWsEntPg r.words ent })

/-- The walk over a write-set: `sivfs_wse_to_stream_info`, then the loop body, for
each entry. -/
def walkWs (body : Workingset → WsEntry → Workingset) :
    List WsEntry → Workingset → Workingset × Except Errno Unit
  | [], pages => (pages, .ok ())
  | ent :: ws, pages =>
    match headInfo ent ws with
    | .error e => (pages, .error e)
    | .ok _ => walkWs body ws (body pages ent)

/-- `sivfs_invalidate_workingset_log`. -/
def invalidateWorkingsetLog : List WsEntry → Workingset → Workingset × Except Errno Unit :=
  walkWs unmapPageRange

/-- `_sivfs_apply_log_entry_workingset`. -/
def applyLogEntryWorkingset (log : LogEntry) (pages : Workingset) :
    Workingset × Except Errno Unit :=
  if log.aborted then (pages, .ok ()) else walkWs applyToWspg log.ws pages

/-- The entry is applied, unless it is the one to skip. -/
def applyUnlessSkipped (tsSkip : Ts) (clog : LogEntry) (pages : Workingset) :
    Workingset × Except Errno Unit :=
  if (clog.ts : Ts) = tsSkip then (pages, .ok ()) else applyLogEntryWorkingset clog pages

/-- The loop of `sivfs_apply_logs_workingset`. -/
def applyLogsLoop (tsStop : ℕ) (tsSkip : Ts) :
    List LogEntry → Workingset → Workingset × Except Errno Unit
  | [], pages => (pages, .ok ())
  | clog :: rest, pages =>
    match applyUnlessSkipped tsSkip clog pages with
    | (pages, .error e) => (pages, .error e)
    | (pages, .ok ()) =>
      if clog.ts = tsStop then (pages, .ok ())
      else
        match rest with
        | [] => (pages, .ok ())
        | next :: _ =>
          if tsStop < next.ts then (pages, .ok ()) else applyLogsLoop tsStop tsSkip rest pages

/-- `sivfs_apply_logs_workingset` from the entry `clog` on. -/
def applyLogsWorkingset (clog : LogEntry) (rest : List LogEntry) (tsStop : ℕ) (tsSkip : Ts)
    (pages : Workingset) : Workingset × Except Errno Unit :=
  if tsStop < clog.ts then (pages, .error .einval)
  else applyLogsLoop tsStop tsSkip (clog :: rest) pages

/-- `sivfs_invalidate_workingset`, with or without `SIVFS_NO_INVALIDATE_CPS`. -/
def invalidateWorkingset (noInvalidateCps : Bool) (pages : Workingset) : Workingset :=
  fun ino pgoff => (pages ino pgoff).filter fun r => noInvalidateCps && r.checkpoint

/-! ### The thread and what it finds -/

/-- `struct sivfs_state`. -/
structure Thread extends Checkpoint.Thread where
  checkpointTs : Ts
  priorCheckpointTs : Ts
  directAccess : Bool
  workingset : Workingset
  /-- `allocated_chunks`. -/
  allocatedChunks : List ℕ
  /-- `alloc_chunks_to_free`. -/
  allocChunksToFree : List ℕ
  shouldAbort : Bool

/-- `SIVFS_ABORT_FLAG` and `SIVFS_DIRECT_ACCESS`. -/
structure Options where
  abort : Bool
  directAccess : Bool
  deriving DecidableEq

/-- What a call finds each time it looks. -/
structure Env where
  mm : Mm
  /-- `i_size_read` for the `k`-th entry of the write-set. -/
  iSize : ℕ → ℕ → ℕ
  /-- A signal while waiting for the commit lock, or an error of
  `sivfs_create_log_entry`. -/
  lock : Option Errno
  /-- The log when the commit lock is taken. -/
  earlier : List Txn
  /-- `master_log_deleted_ts` at validation. -/
  validateDeletedTs : ℕ
  /-- The entries whose `aborted` is still to be set at validation. -/
  undecided : ℕ → Bool
  /-- What is appended to the log behind the entry of the call. -/
  later : List Txn
  /-- The chunks on which `_sivfs_free_block` fails. -/
  freeFails : ℕ → Bool
  /-- The chunks with `ainfo` `NULL`. -/
  noAinfo : ℕ → Bool
  /-- The first read of `latest_checkpoint.ts`. -/
  latestTs : Ts
  /-- What the double read of `latest_checkpoint` settles on. -/
  settled : Option Checkpoint.Cp
  settledTs : ℕ
  masterTs : ℕ
  /-- `commit_started_ts`, read for direct access. -/
  startedTs : ℕ
  /-- `master_log_deleted_ts` at the update. -/
  updateDeletedTs : ℕ

/-- How a call ends that does not return `0`. -/
inductive Exit where
  /-- With this return code. -/
  | code (e : Errno)
  /-- Not at all: it follows a pointer that is `NULL`. -/
  | fault
  deriving DecidableEq

/-! ### Committing -/

/-- `sivfs_ws_ent_conflicts_log`. -/
def wsEntConflictsLog (conflictEnt : WsEntry) : List WsEntry → Except Errno Bool
  | [] => .ok false
  | ent :: ws =>
    match headInfo ent ws with
    | .error e => .error e
    | .ok _ =>
      if Commit.wsEntConflicts ent conflictEnt then .ok true else wsEntConflictsLog conflictEnt ws

/-- The loop of `_sivfs_validate`: whether it aborts. -/
def validateWs (other : List WsEntry) : List WsEntry → Bool
  | [] => false
  | ent :: ws =>
    match headInfo ent ws, wsEntConflictsLog ent other with
    | .ok _, .ok false => validateWs other ws
    | _, _ => true

/-- `_sivfs_validate` against an entry that it may see before its abort. -/
def validateEntry (undecided : ℕ → Bool) (ws : List WsEntry) (other : LogEntry) : Bool :=
  if other.aborted && !undecided other.ts then false else validateWs other.ws ws

/-- The loop of `sivfs_validate`. -/
def validateLoop (undecided : ℕ → Bool) (ws : List WsEntry) (tsStop : ℕ) : List LogEntry → Bool
  | [] => false
  | clog :: rest =>
    if validateEntry undecided ws clog then true
    else if clog.ts = tsStop then false
    else
      match rest with
      | [] => false
      | next :: _ => if tsStop < next.ts then false else validateLoop undecided ws tsStop rest

/-- `sivfs_validate`, if there is a concurrent transaction: whether it aborts;
`none` if there is no log entry to start from. -/
def validate (env : Env) (ts : Ts) (ws : List WsEntry) (nextTs : ℕ) : Option Bool :=
  if tsAdd ts 2 ≤ nextTs then
    if tsAdd ts 1 < env.validateDeletedTs then some true
    else
      match tsToLogEntry (stamp 1 env.earlier) (tsAdd ts 1) with
      | [] => none
      | clog :: rest => some (validateLoop env.undecided ws (nextTs - 1) (clog :: rest))
  else some false

/-- `sivfs_commit_changes`: the entry appended to the log, and `out_ts` and
`aborted`. -/
def commitChanges (env : Env) (ts : Ts) (ws : List WsEntry) :
    Option LogEntry × Except Exit (ℕ × Bool) :=
  match env.lock with
  | some e => (none, .error (.code e))
  | none =>
    match validate env ts ws (env.earlier.length + 1) with
    | none => (some ⟨env.earlier.length + 1, false, ws⟩, .error .fault)
    | some aborted =>
      (some ⟨env.earlier.length + 1, aborted, ws⟩, .ok (env.earlier.length + 1, aborted))

/-- The pages of an aborted write-set are removed. -/
def abortWrites (th : Thread) (ws : List WsEntry) (entry : Option LogEntry) (commitTs : Ts) :
    Thread × Option LogEntry × Except Exit (Ts × Bool) :=
  match invalidateWorkingsetLog ws th.workingset with
  | (pages, .error e) => ({ th with workingset := pages }, entry, .error (.code e))
  | (pages, .ok ()) => ({ th with workingset := pages }, entry, .ok (commitTs, true))

/-- After tagging: the write-set is committed, unless the transaction is aborted
already. -/
def commitTagged (env : Env) (th : Thread) (ws : List WsEntry) (doomed : Bool) :
    Thread × Option LogEntry × Except Exit (Ts × Bool) :=
  if doomed then abortWrites th ws none invalidTs
  else
    match commitChanges env th.ts ws with
    | (entry, .error e) => (th, entry, .error e)
    | (entry, .ok (nextTs, false)) => (th, entry, .ok ((nextTs : Ts), false))
    | (entry, .ok (nextTs, true)) => abortWrites th ws entry nextTs

/-- `if (log_writeset && !sivfs_writeset_empty(..))`: the thread and the entry
appended to the log, and `commit_ts` and `aborted`. -/
def commitWrites (env : Env) (th : Thread) (w : Option Submitted) (doomed : Bool) :
    Thread × Option LogEntry × Except Exit (Ts × Bool) :=
  match w with
  | none => (th, none, .ok (invalidTs, doomed))
  | some w =>
    if w.entries = [] then (th, none, .ok (invalidTs, doomed))
    else
      match addMetadataToChanges env.mm env.iSize w with
      | (_, .error e) => (th, none, .error (.code e))
      | (w, .ok ()) => commitTagged env th w.entries doomed

/-! ### Allocation hooks -/

/-- Chunks are taken off a list one by one, until a step fails. -/
def drain (fails : ℕ → Bool) : List ℕ → List ℕ × Except Errno Unit
  | [] => ([], .ok ())
  | c :: chunks => if fails c then (chunks, .error .einval) else drain fails chunks

/-- `sivfs_allocation_on_commit`. -/
def allocationOnCommit (env : Env) (th : Thread) (aborted : Bool) : Thread × Except Errno Unit :=
  if aborted then
    match drain env.noAinfo th.allocChunksToFree with
    | (toFree, .error e) => ({ th with allocChunksToFree := toFree }, .error e)
    | (toFree, .ok ()) =>
      ({ th with
          allocChunksToFree := toFree
          allocatedChunks := (drain env.freeFails th.allocatedChunks).1 },
        (drain env.freeFails th.allocatedChunks).2)
  else
    ({ th with
        allocatedChunks := []
        allocChunksToFree := (drain env.freeFails th.allocChunksToFree).1 },
      (drain env.freeFails th.allocChunksToFree).2)

/-! ### The new snapshot -/

/-- The checkpoint is kept if it is still the latest, or else exchanged. -/
def checkOut (env : Env) (th : Thread) : Thread × Except Errno Ts :=
  if th.checkpointTs = env.latestTs then (th, .ok env.latestTs)
  else
    ({ th with checkpoint := env.settled, checkpointTs := env.settledTs },
      match env.settled with
      | none => .error .einval
      | some _ => .ok env.settledTs)

/-- `sivfs_update_direct_access`. -/
def updateDirectAccess (env : Env) (th : Thread) (nextTs : ℕ) : Thread × Except Errno Unit :=
  if (nextTs : Ts) ≠ th.checkpointTs then (th, .error .einval)
  else if env.startedTs ≠ nextTs then (th, .error .einval)
  else
    ({ th with
        workingset := if th.directAccess then th.workingset
          else invalidateWorkingset true th.workingset
        ts := nextTs
        directAccess := true },
      .ok ())

/-- `sivfs_update`. -/
def update (env : Env) (log : List LogEntry) (th : Thread) (nextTs : ℕ) (skipTs : Ts) :
    Thread × Except Errno Unit :=
  if th.directAccess then (th, .error .einval)
  else
    match th.ts with
    | ⊤ => ({ th with ts := nextTs }, .ok ())
    | (ts : ℕ) =>
      if nextTs < ts + 1 then ({ th with ts := nextTs }, .ok ())
      else if ts + 1 < env.updateDeletedTs then (th, .error .enomem)
      else
        match tsToLogEntry log (ts + 1) with
        | [] => (th, .error .einval)
        | clog :: rest =>
          match applyLogsWorkingset clog rest nextTs skipTs th.workingset with
          | (pages, .error e) => ({ th with workingset := pages }, .error e)
          | (pages, .ok ()) => ({ th with workingset := pages, ts := nextTs }, .ok ())

/-- The update of a thread that is in a transaction. -/
theorem update_of_ts {env : Env} {log : List LogEntry} {th : Thread} {t nextTs : ℕ} {skipTs : Ts}
    (hd : th.directAccess = false) (hts : th.ts = (t : Ts)) :
    update env log th nextTs skipTs =
      if nextTs < t + 1 then ({ th with ts := nextTs }, .ok ())
      else if t + 1 < env.updateDeletedTs then (th, .error .enomem)
      else
        match tsToLogEntry log (t + 1) with
        | [] => (th, .error .einval)
        | clog :: rest =>
          match applyLogsWorkingset clog rest nextTs skipTs th.workingset with
          | (pages, .error e) => ({ th with workingset := pages }, .error e)
          | (pages, .ok ()) => ({ th with workingset := pages, ts := nextTs }, .ok ()) := by
  rw [update, hd, hts]
  rfl

/-- When direct access is left, all pages are removed. -/
def leaveDirectAccess (th : Thread) : Thread :=
  { th with
    workingset := if th.directAccess then invalidateWorkingset false th.workingset
      else th.workingset
    directAccess := false }

/-- The snapshot at `master_ts` is taken. -/
def takeSnapshot (env : Env) (log : List LogEntry) (th : Thread) (options : Options)
    (commitTs : Ts) : Thread × Except Errno Unit :=
  if options.directAccess then updateDirectAccess env th env.masterTs
  else update env log (leaveDirectAccess th) env.masterTs commitTs

/-! ### The call -/

/-- What a call leaves behind. -/
structure Outcome where
  thread : Thread
  /-- What it appended to the log. -/
  entry : Option LogEntry
  /-- `aborted_out`, or how else the call ends. -/
  ret : Except Exit Bool

/-- The log after the call has appended `entry` and others have gone on. -/
def Env.logAfter (env : Env) (entry : Option LogEntry) : List LogEntry :=
  stamp 1 (env.earlier ++ (entry.map fun l => ⟨l.aborted, l.ws⟩).toList ++ env.later)

/-- The call after the write-set is dealt with. -/
def finish (env : Env) (th : Thread) (entry : Option LogEntry) (options : Options) (commitTs : Ts)
    (aborted : Bool) : Outcome :=
  match allocationOnCommit env th aborted with
  | (th, .error e) => ⟨th, entry, .error (.code e)⟩
  | (th, .ok ()) =>
    match checkOut env th with
    | (th, .error e) => ⟨th, entry, .error (.code e)⟩
    | (th, .ok checkpointTs) =>
      match takeSnapshot env (env.logAfter entry) th options commitTs with
      | (th, .error e) => ⟨th, entry, .error (.code e)⟩
      | (th, .ok ()) => ⟨{ th with priorCheckpointTs := checkpointTs }, entry, .ok aborted⟩

/-- `my_sivfs_commit_update`. -/
def commitUpdate (env : Env) (th : Thread) (w : Option Submitted) (options : Options) : Outcome :=
  if w.any Submitted.aborted then ⟨th, none, .error (.code .einval)⟩
  else
    match commitWrites env { th with shouldAbort := false } w (th.shouldAbort || options.abort) with
    | (th, entry, .error e) => ⟨th, entry, .error e⟩
    | (th, entry, .ok (commitTs, aborted)) => finish env th entry options commitTs aborted

/-- The call goes on when the write-set is dealt with. -/
theorem commitUpdate_of_writes {env : Env} {th th' : Thread} {w : Option Submitted}
    {options : Options} {entry : Option LogEntry} {commitTs : Ts} {aborted : Bool}
    (h : w.any Submitted.aborted = false)
    (hw : commitWrites env { th with shouldAbort := false } w (th.shouldAbort || options.abort) =
      (th', entry, .ok (commitTs, aborted))) :
    commitUpdate env th w options = finish env th' entry options commitTs aborted := by
  rw [commitUpdate, h, if_neg Bool.false_ne_true, hw]

/-- It ends there if that fails. -/
theorem commitUpdate_of_writes_error {env : Env} {th th' : Thread} {w : Option Submitted}
    {options : Options} {entry : Option LogEntry} {e : Exit} (h : w.any Submitted.aborted = false)
    (hw : commitWrites env { th with shouldAbort := false } w (th.shouldAbort || options.abort) =
      (th', entry, .error e)) :
    commitUpdate env th w options = ⟨th', entry, .error e⟩ := by
  rw [commitUpdate, h, if_neg Bool.false_ne_true, hw]

end Update
end Sivfs
