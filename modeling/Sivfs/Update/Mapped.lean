/-
# Which checkpoint a mapped page belongs to

A page fault (`sivfs_fault`, `kern/inode.c`) maps the page of the checkpoint that the
thread has checked out and records it in `checkpoint_pages`, if no commit after the
checkpoint and up to the snapshot writes to it (`sivfs_fault_checkpoint`); else, and
for a write, the thread gets a page of its own.  When a call moves the thread to a
newer checkpoint, the pages recorded stay mapped.  `sivfs_update` removes those that a
commit since the snapshot writes to, and a checkpoint copies no other page.

The calls are the phases of `my_sivfs_commit_update` with anything in between: the
write-set is committed, a checkpoint is checked out, the snapshot is taken.

`Sivfs.Update.Recorded` says which pages a call leaves recorded, `Sivfs.Update.Steady` what
two checkpoints share, `Sivfs.Update.MappedCalls` what each step of a thread keeps, and
`Sivfs.Update.Belongs` what holds in every run.
-/

import Sivfs.Checkpoint.Lifetimes
import Sivfs.Update.Agree

open PathCopy

namespace Sivfs
namespace Mapped

open Checkpoint
open Update (Workingset Resident Env Txn sivfsFindVma submit CutShort)

/-! ### The machine -/

/-- What a thread is doing. -/
inductive Pc where
  /-- It is in user space; its last call has returned `0` or not. -/
  | user (returned : Bool)
  /-- Its write-set is dealt with. -/
  | committed (commitTs : Ts) (aborted : Bool)
  | checkedOut (commitTs checkpointTs : Ts)
  deriving DecidableEq

/-- A thread with the pages of checkpoints that it has mapped. -/
structure Task where
  thread : Update.Thread
  pc : Pc
  /-- The page that was last recorded, by inode number and page offset. -/
  mapped : ℕ → ℕ → Ref

/-- The state that the threads share, and the threads. -/
structure State (ι : Type*) extends Lifetimes.State where
  tasks : ι → Task

/-- What happens. -/
inductive Act (ι : Type*) where
  /-- Commits of other threads, attempts to make a checkpoint, the collector. -/
  | shared (a : Lifetimes.Act)
  | fault (i : ι) (write : Bool) (ino pgoff : ℕ)
  | store (i : ι) (ino pgoff j value : ℕ)
  /-- `my_sivfs_commit_update` up to the allocation hooks. -/
  | commitWrites (i : ι) (env : Env) (ws : Option (List WsEntry)) (abort : Bool)
  /-- The hooks, and the exchange of the checkpoint. -/
  | checkOut (i : ι) (env : Env)
  | takeSnapshot (i : ι) (env : Env)

/-- `sivfs_fault_checkpoint`: the page that is recorded, if there is one. -/
def faultCheckpoint (s : Shared) (th : Update.Thread) (ino pgoff : ℕ) :
    Except Errno (Option Ref) :=
  match th.ts, th.checkpoint with
  | (ts : ℕ), some cp =>
    match findFirstWrite s cp.cpTs ts ino (pgoff * pageSize) (pgoff * pageSize + pageSize) with
    | .error e => .error e
    | .ok firstModifier =>
      if firstModifier ≠ invalidTs then .ok none
      else if (th.workingset ino pgoff).any fun r => !r.checkpoint then .ok none
      else (checkpointIterInit ino (pgoff * pageSize)).map (follow s.heap.child cp.root)
  | _, _ => .error .einval

/-- A page is mapped. -/
def Task.setPage (task : Task) (ino pgoff : ℕ) (r : Resident) : Task :=
  { task with thread :=
      { task.thread with workingset := task.thread.workingset.put ino pgoff (some r) } }

/-- `sivfs_fault`; a failing one ends the thread.  For a write the page of the checkpoint is
copied; where there is none that may be used, `my_sivfs_update_page` fills the page. -/
def fault (s : Shared) (task : Task) (write : Bool) (ino pgoff : ℕ) : Option Task :=
  match faultCheckpoint s task.thread ino pgoff, write with
  | .error _, _ => none
  | .ok (some p), false =>
    some { task.setPage ino pgoff ⟨true, s.heap.words p⟩ with
      mapped := fun i o => if i = ino ∧ o = pgoff then p else task.mapped i o }
  | .ok (some p), true => some (task.setPage ino pgoff ⟨false, s.heap.words p⟩)
  | .ok none, _ =>
    if (task.thread.workingset ino pgoff).any fun r => !r.checkpoint then some task
    else
      match updatePage s task.thread.toThread ino (pgoff * pageSize) with
      | .error _ => none
      | .ok words => some (task.setPage ino pgoff ⟨false, words⟩)

/-- A store to a page of the thread's own. -/
def store (task : Task) (ino pgoff j value : ℕ) : Option Task :=
  match task.thread.workingset ino pgoff with
  | some ⟨false, words⟩ => some (task.setPage ino pgoff ⟨false, Function.update words j value⟩)
  | _ => none

/-- The transactions of a log. -/
def txns (log : List LogEntry) : List Txn := log.map fun l => ⟨l.aborted, l.ws⟩

section Machine

variable {ι : Type*} [DecidableEq ι]

/-- A thread goes on. -/
def State.setTask (s : State ι) (i : ι) (task : Task) : State ι :=
  { s with tasks := Function.update s.tasks i task }

/-- What a call has appended to the log. -/
def append (s : Lifetimes.State) : Option LogEntry → Lifetimes.State
  | none => s
  | some l => { s with log := s.log ++ [l], masterTs := s.masterTs + 1 }

/-- The thread after its write-set is dealt with, and what is appended to the log. -/
def commitWrites (s : Shared) (task : Task) (env : Env) (ws : Option (List WsEntry))
    (abort : Bool) : Task × Option LogEntry :=
  match Update.commitWrites { env with earlier := txns s.log }
      { task.thread with shouldAbort := false } (ws.map submit)
      (task.thread.shouldAbort || abort) with
  | (th, entry, .error _) => (⟨th, .user false, task.mapped⟩, entry)
  | (th, entry, .ok (commitTs, aborted)) => (⟨th, .committed commitTs aborted, task.mapped⟩, entry)

/-- The thread after the hooks and the exchange of the checkpoint. -/
def checkOut (s : Shared) (task : Task) (env : Env) (commitTs : Ts) (aborted : Bool) : Task :=
  match Update.allocationOnCommit env task.thread aborted with
  | (th, .error _) => ⟨th, .user false, task.mapped⟩
  | (th, .ok ()) =>
    match Update.checkOut { env with
        latestTs := s.latest.cpTs
        settled := some s.latest
        settledTs := s.latest.cpTs } th with
    | (th, .error _) => ⟨th, .user false, task.mapped⟩
    | (th, .ok checkpointTs) => ⟨th, .checkedOut commitTs checkpointTs, task.mapped⟩

/-- The thread after the call. -/
def takeSnapshot (s : Shared) (task : Task) (env : Env) (commitTs checkpointTs : Ts) : Task :=
  match Update.takeSnapshot { env with masterTs := s.masterTs } s.log task.thread ⟨false, false⟩
      commitTs with
  | (th, .error _) => ⟨th, .user false, task.mapped⟩
  | (th, .ok ()) => ⟨{ th with priorCheckpointTs := checkpointTs }, .user true, task.mapped⟩

/-- One step. -/
def step (s : State ι) : Act ι → Option (State ι)
  | .shared a => (Lifetimes.step s.toState a).map fun s' => ⟨s', s.tasks⟩
  | .fault i write ino pgoff =>
    match (s.tasks i).pc with
    | .user _ => (fault s.toShared (s.tasks i) write ino pgoff).map (s.setTask i)
    | _ => none
  | .store i ino pgoff j value =>
    match (s.tasks i).pc with
    | .user _ => (store (s.tasks i) ino pgoff j value).map (s.setTask i)
    | _ => none
  | .commitWrites i env ws abort =>
    match (s.tasks i).pc with
    | .user _ =>
      let res := commitWrites s.toShared (s.tasks i) env ws abort
      some (State.setTask ⟨append s.toState res.2, s.tasks⟩ i res.1)
    | _ => none
  | .checkOut i env =>
    match (s.tasks i).pc with
    | .committed commitTs aborted =>
      some (s.setTask i (checkOut s.toShared (s.tasks i) env commitTs aborted))
    | _ => none
  | .takeSnapshot i env =>
    match (s.tasks i).pc with
    | .checkedOut commitTs checkpointTs =>
      some (s.setTask i (takeSnapshot s.toShared (s.tasks i) env commitTs checkpointTs))
    | _ => none

/-- Threads that have not made a call yet. -/
structure Task.Fresh (task : Task) : Prop where
  ts : task.thread.ts = invalidTs
  checkpoint : task.thread.checkpoint = none
  checkpointTs : task.thread.checkpointTs = invalidTs
  directAccess : task.thread.directAccess = false
  workingset : ∀ ino pgoff, task.thread.workingset ino pgoff = none
  pc : task.pc = .user false

/-- After mounting. -/
def Init (s : State ι) : Prop := Lifetimes.Init s.toState ∧ ∀ i, (s.tasks i).Fresh

/-- Calls of threads outside direct access, commits and checkpoints. -/
def machine (ι : Type*) [DecidableEq ι] : Machine (State ι) (Act ι) where
  init := Init
  step := step

end Machine

end Mapped
end Sivfs
