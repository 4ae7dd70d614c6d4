/-
# Commits, checkpoints and readers over one log

The commit protocol (`Sivfs.Commit.Protocol`), the checkpoint thread and the readers
(`Sivfs.Checkpoint.Snapshot`) share one log, of which `sivfs_gc_log` frees the beginning.

| step | the step of `Checkpoint.machine` |
| --- | --- |
| `master_ts` from `next_ts - 1` to `next_ts` | `commit` |
| `state->ts = master_ts`, then `prior_checkpoint_ts = checkpoint_ts` | `update` |
| `SIVFS_TXN_PAUSE` | `pause` |
| a thread takes `latest_checkpoint` | `checkout` |
| `sivfs_make_checkpoint` | `makeCheckpoint` |
| any other turn of the protocol, `sivfs_delete_log` | none |

There every commit is made at once and the log is never cut.  Here an entry is written in
many turns, and what a reader finds of the log (`readable`) lacks the entries that are freed.
`Sivfs.Commit.MemorySound` shows that each step is the step of the table, and
`Sivfs.Commit.Reads` what a thread reads.
-/

import Sivfs.Commit.ReaderLog

namespace Sivfs
namespace Memory

open Checkpoint (Cp Heap Shared MakeFaults)
open Isolation (Txn contents)

/-! ### The machine -/

/-- What a thread has checked out: `state->checkpoint` and `state->prior_checkpoint_ts`. -/
structure Held where
  checkpoint : Option Cp
  priorTs : Ts

/-- `state->checkpoint_ts`. -/
def Held.checkpointTs (h : Held) : Ts := h.checkpoint.elim invalidTs fun cp => (cp.cpTs : Ts)

/-- The commit protocol, the pages of checkpoints, `latest_checkpoint`, and what the threads
have checked out. -/
structure State (ι : Type*) where
  commit : Commit.State ι
  heap : Heap
  latest : Cp
  held : ι → Held

/-- What happens. -/
inductive Act (ι : Type*) where
  /-- A turn of the commit protocol. -/
  | turn (a : Commit.Act ι)
  /-- A thread between transactions takes the latest checkpoint. -/
  | exchange (i : ι)
  | makeCheckpoint (faults : MakeFaults)

section Machine

variable {ι : Type*} [DecidableEq ι]

/-- What readers and the checkpoint thread find. -/
def State.shared (s : State ι) : Shared where
  log := readable s.commit
  masterTs := s.commit.masterTs
  heap := s.heap
  latest := s.latest

/-- A new snapshot is taken with a checkpoint. -/
def State.ready (s : State ι) : Commit.Act ι → Bool
  | .checkout i => (s.held i).checkpoint.isSome
  | _ => true

/-- What the threads have checked out after a turn of the protocol.  The checkpoint before is
given up with the snapshot before. -/
def State.heldAfter (s : State ι) : Commit.Act ι → ι → Held
  | .checkout i => Function.update s.held i { s.held i with priorTs := (s.held i).checkpointTs }
  | .pause i => Function.update s.held i ⟨none, invalidTs⟩
  | _ => s.held

/-- The state after a turn of the protocol. -/
def State.turned (s : State ι) (a : Commit.Act ι) (c : Commit.State ι) : State ι :=
  { s with commit := c, held := s.heldAfter a }

/-- One step. -/
def step (s : State ι) : Act ι → Option (State ι)
  | .turn a => if s.ready a then (Commit.step s.commit a).map (s.turned a) else none
  | .exchange i =>
    if (s.commit.threads i).pc = .idle then
      some { s with held := Function.update s.held i { s.held i with checkpoint := some s.latest } }
    else none
  | .makeCheckpoint faults =>
    let made := (Checkpoint.makeCheckpoint faults s.shared).1
    some { s with heap := made.heap, latest := made.latest }

/-- After mounting. -/
def Init (s : State ι) : Prop :=
  Commit.Init s.commit ∧ s.heap = ⟨0, fun _ => Checkpoint.blankPage⟩ ∧ s.latest = ⟨none, 0⟩ ∧
    ∀ i, s.held i = ⟨none, invalidTs⟩

/-- Commits, checkpoints, checkouts and log deletions, for the threads `ι`. -/
def machine (ι : Type*) [DecidableEq ι] : Machine (State ι) (Act ι) where
  init := Init
  step := step

/-- Log entries are deleted below the latest checkpoint and below what the threads have
checked out, as in `sivfs_gc_log`, and write-sets are of whole words. -/
def Kept (s : State ι) : Act ι → Prop
  | .turn (.deleteLog stop) => stop ≤ s.latest.cpTs ∧
      ∀ i, (stop : Ts) ≤ (s.held i).checkpointTs ∧ (stop : Ts) ≤ (s.held i).priorTs
  | .turn (.begin _ ws) => Commit.Whole ws
  | _ => True

/-- Whether a step is allowed is decided by looking at every thread. -/
instance [Fintype ι] (s : State ι) (a : Act ι) : Decidable (Kept s a) :=
  match a with
  | .turn (.deleteLog stop) => inferInstanceAs (Decidable (stop ≤ s.latest.cpTs ∧
      ∀ i, (stop : Ts) ≤ (s.held i).checkpointTs ∧ (stop : Ts) ≤ (s.held i).priorTs))
  | .turn (.begin _ ws) => inferInstanceAs (Decidable (∀ ent ∈ ws, ent.fileOffset % wordBytes = 0))
  | .turn (.checkout _) | .turn (.pause _) | .turn (.interrupt _) | .turn (.acquire _)
  | .turn (.createFails _) | .turn (.next _) | .exchange _ | .makeCheckpoint _ => isTrue trivial

/-- The state with the whole log. -/
def State.whole (s : State ι) : Checkpoint.State ι where
  log := history s.commit.ended
  masterTs := s.commit.ended.length
  heap := s.heap
  latest := s.latest
  threads i := ⟨(s.commit.threads i).ts, (s.held i).checkpoint⟩

end Machine

end Memory
end Sivfs
