/-
# Calls of many threads

Calls of `my_sivfs_commit_update` by any number of threads, turn by turn: what a
call finds is what the others have made of the shared state by then.

| program counter | the code there |
| --- | --- |
| `writes` | `sivfs_add_metadata_to_changes` |
| `changes` | `sivfs_commit_changes`, with the turns of `Commit.protocol` |
| `hooks` | `sivfs_invalidate_workingset_log`, `sivfs_allocation_on_commit` |
| `readLatest` to `nullCheck` | the double read of `latest_checkpoint` |
| `readMaster` | `next_ts = master_ts` |
| `enter`, `started`, `direct` | `sivfs_update_direct_access` |
| `leave`, `update` | `sivfs_update`, after direct access is left |
| `advance` | `prior_checkpoint_ts` |

The pages and chunks of a thread only decide whether a step fails, and here it may
fail whenever the code can return an error.
-/

import Sivfs.Update.CommitUpdate

namespace Sivfs
namespace External

open Update

/-- How a call has returned: `rc`, `aborted` and `commit_ts`. -/
structure Return where
  rc : Except Errno Unit
  aborted : Bool
  commitTs : Ts

/-- The local variables that live through a call. -/
structure Locals where
  options : Options
  aborted : Bool
  commitTs : Ts

/-- The call ends with `rc`. -/
def Locals.ret (l : Locals) (rc : Except Errno Unit) : Return := ⟨rc, l.aborted, l.commitTs⟩

/-- Where a thread is; `v` is its local `checkpoint_ts` and `n` is `next_ts`. -/
inductive Pc where
  /-- In no call, with what the last one returned. -/
  | out (last : Option Return)
  | writes (w : Option Submitted) (l : Locals)
  | changes (l : Locals)
  | hooks (l : Locals)
  | readLatest (l : Locals)
  | readPtr (v : Ts) (l : Locals)
  | publish (v : Ts) (l : Locals)
  | validate (v : Ts) (l : Locals)
  | reread (l : Locals)
  | nullCheck (v : Ts) (l : Locals)
  | readMaster (v : Ts) (l : Locals)
  | enter (v : Ts) (n : ℕ) (l : Locals)
  | started (v : Ts) (n : ℕ) (l : Locals)
  | direct (v : Ts) (n : ℕ) (l : Locals)
  | leave (v : Ts) (n : ℕ) (l : Locals)
  | update (v : Ts) (n : ℕ) (l : Locals)
  | advance (v : Ts) (l : Locals)

/-- `struct sivfs_state`, except `ts`, which is with the commit protocol. -/
structure Thread where
  checkpoint : Option ℕ
  checkpointTs : Ts
  priorCheckpointTs : Ts
  directAccess : Bool
  shouldAbort : Bool
  pc : Pc

/-- `sivfs_new_state`. -/
def newState : Thread := ⟨none, invalidTs, invalidTs, false, false, .out none⟩

/-- What the threads share, and the threads. -/
structure State (ι : Type*) where
  shared : Commit.State ι
  /-- `latest_checkpoint.ts`. -/
  latestTs : Ts
  /-- `latest_checkpoint.checkpoint`. -/
  latestCp : Option ℕ
  threads : ι → Thread

/-- The turns a run is made of. -/
inductive Act (ι : Type*) where
  /-- A call of `my_sivfs_commit_update`. -/
  | call (i : ι) (w : Option Submitted) (options : Options)
  /-- `sivfs_add_metadata_to_changes` with these mappings and file sizes. -/
  | tag (i : ι) (mm : Mm) (iSize : ℕ → ℕ → ℕ)
  /-- `spin_trylock` succeeds. -/
  | acquire (i : ι)
  /-- A signal while waiting for the lock. -/
  | interrupt (i : ι)
  /-- `sivfs_create_log_entry` fails. -/
  | createFails (i : ι)
  /-- The next access of a thread. -/
  | next (i : ι)
  /-- What the thread does next returns an error. -/
  | fails (i : ι) (e : Errno)
  /-- `sivfs_ioctl_txn_pause`. -/
  | pause (i : ι)
  /-- `should_abort` is set. -/
  | doom (i : ι)
  /-- The checkpoint thread stores to `latest_checkpoint.ts`. -/
  | storeLatestTs (v : Ts)
  /-- The checkpoint thread stores to `latest_checkpoint.checkpoint`. -/
  | storeLatestCp (c : Option ℕ)
  /-- `sivfs_delete_log(stop)`. -/
  | deleteLog (stop : ℕ)

section Step

variable {ι : Type*} [DecidableEq ι]

/-- `state->ts`. -/
def State.ts (s : State ι) (i : ι) : Ts := (s.shared.threads i).ts

/-- Thread `i` has become `th`. -/
def State.setThread (s : State ι) (i : ι) (th : Thread) : State ι :=
  { s with threads := Function.update s.threads i th }

/-- Thread `i` goes on at `pc`. -/
def State.goto (s : State ι) (i : ι) (pc : Pc) : State ι :=
  s.setThread i { s.threads i with pc := pc }

/-- `state->ts = ts`. -/
def State.setTs (s : State ι) (i : ι) (ts : Ts) : State ι :=
  { s with shared := { s.shared with
      threads := Function.update s.shared.threads i { s.shared.threads i with ts := ts } } }

/-- Where `sivfs_commit_changes` leaves the call when it has read the log entry. -/
def afterChanges (shared : Commit.State ι) (i : ι) (l : Locals) : Pc :=
  match shared.pc i with
  | .report n =>
    match shared.deref n with
    | some e => .hooks { l with aborted := e.aborted, commitTs := (n : Ts) }
    | none => .changes l
  | _ => .changes l

/-- The next access of thread `i`. -/
def next (s : State ι) (i : ι) : Option (State ι) :=
  let th := s.threads i
  match th.pc with
  | .out _ => none
  | .writes _ _ => none
  | .changes l =>
    (Commit.step s.shared (.next i)).map fun shared =>
      { s with shared := shared }.goto i (afterChanges s.shared i l)
  | .hooks l => some (s.goto i (.readLatest l))
  | .readLatest l =>
    if th.checkpointTs = s.latestTs then some (s.goto i (.readMaster s.latestTs l))
    else some (s.goto i (.readPtr s.latestTs l))
  | .readPtr v l => some (s.setThread i { th with checkpoint := s.latestCp, pc := .publish v l })
  | .publish v l => some (s.setThread i { th with checkpointTs := v, pc := .validate v l })
  | .validate v l =>
    if s.latestTs = v ∧ v ≠ invalidTs then some (s.goto i (.nullCheck v l))
    else some (s.goto i (.reread l))
  | .reread l => some (s.goto i (.readPtr s.latestTs l))
  | .nullCheck v l =>
    if th.checkpoint = none then some (s.goto i (.out (some (l.ret (.error .einval)))))
    else some (s.goto i (.readMaster v l))
  | .readMaster v l =>
    if l.options.directAccess then some (s.goto i (.enter v s.shared.masterTs l))
    else some (s.goto i (.leave v s.shared.masterTs l))
  | .enter v n l =>
    if (n : Ts) ≠ th.checkpointTs then some (s.goto i (.out (some (l.ret (.error .einval)))))
    else some (s.goto i (.started v n l))
  | .started v n l =>
    if s.shared.commitLock ≠ none then none
    else if s.shared.commitStartedTs ≠ n then
      some (s.goto i (.out (some (l.ret (.error .einval)))))
    else some (s.goto i (.direct v n l))
  | .direct v n l =>
    some ((s.setTs i (n : Ts)).setThread i { th with directAccess := true, pc := .advance v l })
  | .leave v n l => some (s.setThread i { th with directAccess := false, pc := .update v n l })
  | .update v n l => some ((s.setTs i (n : Ts)).goto i (.advance v l))
  | .advance v l =>
    some (s.setThread i { th with priorCheckpointTs := v, pc := .out (some (l.ret (.ok ()))) })

/-- A step that returns an error: `sivfs_update` can fail only if there are log
entries to apply, and the pages are removed only if the mode changes. -/
def fails (s : State ι) (i : ι) (e : Errno) : Option (State ι) :=
  let th := s.threads i
  match th.pc with
  | .hooks l => some (s.goto i (.out (some (l.ret (.error e)))))
  | .direct _ _ l =>
    if th.directAccess then none else some (s.goto i (.out (some (l.ret (.error e)))))
  | .leave _ _ l =>
    if th.directAccess then some (s.goto i (.out (some (l.ret (.error e))))) else none
  | .update _ n l =>
    if s.ts i < n then some (s.goto i (.out (some (l.ret (.error e))))) else none
  | _ => none

/-- After tagging: the write-set goes to `sivfs_commit_changes`, unless the transaction
is aborted already. -/
def commitTagged (s : State ι) (i : ι) (ws : List WsEntry) (l : Locals) : Option (State ι) :=
  if l.aborted then some (s.goto i (.hooks l))
  else (Commit.step s.shared (.begin i ws)).map fun shared =>
    { s with shared := shared }.goto i (.changes l)

/-- One turn. -/
def step (s : State ι) : Act ι → Option (State ι)
  | .call i w options =>
    match (s.threads i).pc with
    | .out _ =>
      if w.any Submitted.aborted then
        some (s.goto i (.out (some ⟨.error .einval, false, invalidTs⟩)))
      else some (s.setThread i { s.threads i with
        shouldAbort := false
        pc := .writes w ⟨options, (s.threads i).shouldAbort || options.abort, invalidTs⟩ })
    | _ => none
  | .tag i mm iSize =>
    match (s.threads i).pc with
    | .writes none l => some (s.goto i (.hooks l))
    | .writes (some w) l =>
      if w.entries = [] then some (s.goto i (.hooks l))
      else
        match addMetadataToChanges mm iSize w with
        | (_, .error e) => some (s.goto i (.out (some (l.ret (.error e)))))
        | (w, .ok ()) => commitTagged s i w.entries l
    | _ => none
  | .acquire i => (Commit.step s.shared (.acquire i)).map fun shared => { s with shared := shared }
  | .interrupt i =>
    match (s.threads i).pc with
    | .changes l => (Commit.step s.shared (.interrupt i)).map fun shared =>
        { s with shared := shared }.goto i (.out (some (l.ret (.error .eintr))))
    | _ => none
  | .createFails i =>
    match (s.threads i).pc with
    | .changes l => (Commit.step s.shared (.createFails i)).map fun shared =>
        { s with shared := shared }.goto i (.out (some (l.ret (.error .enomem))))
    | _ => none
  | .next i => next s i
  | .fails i e => fails s i e
  | .pause i =>
    match (s.threads i).pc with
    | .out _ => some ((s.setTs i invalidTs).setThread i { s.threads i with
        checkpointTs := invalidTs
        priorCheckpointTs := invalidTs
        checkpoint := none
        pc := .out none })
    | _ => none
  | .doom i => some (s.setThread i { s.threads i with shouldAbort := true })
  | .storeLatestTs v => some { s with latestTs := v }
  | .storeLatestCp c => some { s with latestCp := c }
  | .deleteLog stop =>
    (Commit.step s.shared (.deleteLog stop)).map fun shared => { s with shared := shared }

/-- No commit yet, every thread fresh. -/
def Init (s : State ι) : Prop := Commit.Init s.shared ∧ ∀ i, s.threads i = newState

/-- The calls of the threads `ι`. -/
def machine (ι : Type*) [DecidableEq ι] : Machine (State ι) (Act ι) where
  init := Init
  step := step

end Step

end External
end Sivfs
