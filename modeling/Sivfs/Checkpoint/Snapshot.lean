/-
# Making checkpoints and reading snapshots

`sivfs_make_checkpoint` (`kern/sivfs_make_checkpoint.c`), `my_sivfs_update_page`
(`kern/sivfs_commit_update_checkpoints.c`) and `sivfs_find_first_write`
(`kern/sivfs_shared_state.h`), and the machine of commits, attempts to make a
checkpoint and checkouts that they run in.

A thread reads a page as its checkpoint has it and replays the log from there;
if the log has no write to the page, the fault handler maps the page of the
checkpoint itself.
-/

import Sivfs.Lib.Machine
import Sivfs.WritesetEntries
import Sivfs.Checkpoint.Apply

open PathCopy

namespace Sivfs
namespace Checkpoint

/-! ### Making a checkpoint -/

/-- The walk over a write-set: `sivfs_wse_to_stream_info`, then the change, for each
entry. -/
def applyWriteset (faults : Faults) (ts : ℕ) : List WsEntry → Build → Build × Except Errno Unit
  | [], b => (b, .ok ())
  | ent :: ws, b =>
    match headInfo ent ws with
    | .error e => (b, .error e)
    | .ok _ =>
      match applyChangeCheckpoint faults ts b ent with
      | (b, .error e) => (b, .error e)
      | (b, .ok ()) => applyWriteset faults ts ws b

/-- A commit is applied, unless it was aborted. -/
def applyLogEntry (faults : Faults) (ts : ℕ) (log : LogEntry) (b : Build) :
    Build × Except Errno Unit :=
  if log.aborted then (b, .ok ()) else applyWriteset faults ts log.ws b

/-- The loop of `_sivfs_make_checkpoint`. -/
def makeCheckpointLoop (faults : Faults) (nextTs : ℕ) :
    List LogEntry → Build → Build × Except Errno Unit
  | [], b => (b, .ok ())
  | log :: rest, b =>
    if nextTs < log.ts then (b, .ok ())
    else
      match applyLogEntry faults nextTs log b with
      | (b, .error e) => (b, .error e)
      | (b, .ok ()) =>
        if log.ts = nextTs then (b, .ok ())
        else
          match rest with
          | [] => (b, .ok ())
          | next :: _ =>
            if nextTs < next.ts then (b, .ok ()) else makeCheckpointLoop faults nextTs rest b

/-- `_sivfs_make_checkpoint`. -/
def applyLog (faults : Faults) (log : List LogEntry) (latestCheckpoint nextTs : ℕ) (b : Build) :
    Build × Except Errno Unit :=
  if nextTs = latestCheckpoint then (b, .error .einval)
  else
    match tsToLogEntry log (latestCheckpoint + 1) with
    | [] => (b, .error .einval)
    | l :: rest => makeCheckpointLoop faults nextTs (l :: rest) b

/-- The inode of a checkpoint: `cp_root` and `cp_ts`. -/
structure Cp where
  root : Option Ref
  cpTs : ℕ

/-- Which steps of `sivfs_make_checkpoint` fail. -/
structure MakeFaults where
  /-- `sivfs_new_stack` or `sivfs_create_checkpoint_inode`. -/
  setup : Option Errno
  pages : Faults
  /-- `_sivfs_checkpoints_insert`. -/
  insert : Option Errno
  /-- `sivfs_gc_mark_pages_obsoleted`. -/
  mark : Option Errno

/-- What commits, the checkpoint thread and the readers share. -/
structure Shared where
  log : List LogEntry
  masterTs : ℕ
  heap : Heap
  /-- `latest_checkpoint`. -/
  latest : Cp

/-- Running out of memory is not reported. -/
def suppressOom : Errno → Except Errno Bool
  | .enomem => .ok false
  | e => .error e

/-- `sivfs_make_checkpoint`: the state after it, and `made_checkpoint` or the
error.  Pages of a failed attempt are not given back. -/
def makeCheckpoint (faults : MakeFaults) (s : Shared) : Shared × Except Errno Bool :=
  if s.masterTs = s.latest.cpTs then (s, .ok false)
  else
    match faults.setup with
    | some e => (s, suppressOom e)
    | none =>
      match applyLog faults.pages s.log s.latest.cpTs s.masterTs ⟨s.heap, s.latest.root, []⟩ with
      | (b, .error e) => ({ s with heap := b.heap }, suppressOom e)
      | (b, .ok ()) =>
        match faults.insert, faults.mark with
        | some e, _ => ({ s with heap := b.heap }, suppressOom e)
        | none, some e => ({ s with heap := b.heap }, suppressOom e)
        | none, none => ({ s with heap := b.heap, latest := ⟨b.root, s.masterTs⟩ }, .ok true)

/-! ### Reading -/

/-- What a thread has checked out. -/
structure Thread where
  ts : Ts
  checkpoint : Option Cp

/-- The writes of an entry to a page are applied to it. -/
def replayEntry (fileIno fileOffset : ℕ) (mem : ℕ → ℕ) (log : LogEntry) : ℕ → ℕ :=
  if log.aborted then mem
  else log.ws.foldl
    (fun mem ent => if hitsPage fileIno fileOffset ent then applyWsEntPg mem ent else mem) mem

/-- The loop of `my_sivfs_update_page`. -/
def replayLoop (fileIno fileOffset targetTs : ℕ) : List LogEntry → (ℕ → ℕ) → ℕ → ℕ
  | [], mem => mem
  | log :: rest, mem =>
    match rest with
    | [] => replayEntry fileIno fileOffset mem log
    | next :: _ =>
      if targetTs < next.ts then replayEntry fileIno fileOffset mem log
      else replayLoop fileIno fileOffset targetTs rest (replayEntry fileIno fileOffset mem log)

/-- `my_sivfs_update_page`: the contents of the page in the thread's snapshot. -/
def updatePage (s : Shared) (th : Thread) (fileIno fileOffset : ℕ) : Except Errno (ℕ → ℕ) :=
  match th.ts, th.checkpoint with
  | ⊤, _ => .error .einval
  | (targetTs : ℕ), checkpoint =>
    if fileOffset % pageSize ≠ 0 then .error .einval
    else
      match checkpoint with
      | none => .error .einval
      | some cp =>
        match readCheckpoint s.heap cp.root fileIno fileOffset with
        | .error e => .error e
        | .ok mem =>
          if targetTs < cp.cpTs + 1 then .ok mem
          else
            match tsToLogEntry s.log (cp.cpTs + 1) with
            | [] => .error .einval
            | l :: rest => .ok (replayLoop fileIno fileOffset targetTs (l :: rest) mem)

/-- `sivfs_range_overlaps_wsent`. -/
def rangeOverlapsWsent (start stop : ℕ) (ent : WsEntry) : Bool :=
  start ≤ ent.fileOffset ∧ ent.fileOffset < stop

/-- The loop of `sivfs_find_first_write`. -/
def findFirstWriteLoop (endTs fileIno offsetStart offsetEnd : ℕ) : List LogEntry → Ts
  | [] => invalidTs
  | log :: rest =>
    if ¬log.aborted ∧ log.ws.any fun ent =>
        ent.ino = fileIno ∧ rangeOverlapsWsent offsetStart offsetEnd ent then (log.ts : Ts)
    else
      match rest with
      | [] => invalidTs
      | next :: _ =>
        if endTs < next.ts then invalidTs
        else findFirstWriteLoop endTs fileIno offsetStart offsetEnd rest

/-- `sivfs_find_first_write`. -/
def findFirstWrite (s : Shared) (startTs endTs fileIno offsetStart offsetEnd : ℕ) :
    Except Errno Ts :=
  if endTs < startTs ∨ offsetEnd ≤ offsetStart then .error .einval
  else if endTs = startTs then .ok invalidTs
  else
    match tsToLogEntry s.log (startTs + 1) with
    | [] => .error .einval
    | l :: rest => .ok (findFirstWriteLoop endTs fileIno offsetStart offsetEnd (l :: rest))

/-! ### The machine -/

/-- The shared state and the threads. -/
structure State (ι : Type*) extends Shared where
  threads : ι → Thread

/-- What happens. -/
inductive Act (ι : Type*) where
  /-- A commit, aborted or not, whose write-set the kernel has tagged. -/
  | commit (aborted : Bool) (ws : List WsEntry)
  | makeCheckpoint (faults : MakeFaults)
  /-- A thread takes the latest checkpoint. -/
  | checkout (i : ι)
  /-- A thread takes `master_ts` for its snapshot. -/
  | update (i : ι)
  /-- `sivfs_ioctl_txn_pause`. -/
  | pause (i : ι)

section Machine

variable {ι : Type*} [DecidableEq ι]

/-- Thread `i` has become `th`. -/
def State.setThread (s : State ι) (i : ι) (th : Thread) : State ι :=
  { s with threads := Function.update s.threads i th }

/-- One step. -/
def step (s : State ι) : Act ι → Option (State ι)
  | .commit aborted ws =>
    if ∀ ent ∈ ws, ent.fileOffset % wordBytes = 0 then
      some { s with
        log := s.log ++ [⟨s.masterTs + 1, aborted, ws⟩]
        masterTs := s.masterTs + 1 }
    else none
  | .makeCheckpoint faults => some { s with toShared := (makeCheckpoint faults s.toShared).1 }
  | .checkout i => some (s.setThread i { s.threads i with checkpoint := some s.latest })
  | .update i => some (s.setThread i { s.threads i with ts := (s.masterTs : Ts) })
  | .pause i => some (s.setThread i ⟨invalidTs, none⟩)

/-- The page that is never handed out. -/
def blankPage : Page := ⟨0, invalidTs, 0, .leaf fun _ => 0⟩

/-- After mounting: an empty checkpoint at time `0`, and no thread has anything
checked out. -/
def Init (s : State ι) : Prop :=
  s.toShared = ⟨[], 0, ⟨0, fun _ => blankPage⟩, ⟨none, 0⟩⟩ ∧ ∀ i, s.threads i = ⟨invalidTs, none⟩

/-- Commits, checkpoints and checkouts, for the threads `ι`. -/
def machine (ι : Type*) [DecidableEq ι] : Machine (State ι) (Act ι) where
  init := Init
  step := step

end Machine

end Checkpoint
end Sivfs
