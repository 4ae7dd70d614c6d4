/-
# The lock-table transaction systems, call by call

`test/src/tx_sys/locktable.h`.  A table of locks, one for many words, serves three
algorithms (`LOCKTABLE_ALG`):

| algorithm | a read | a write | `locktable_commit_update` |
| --- | --- | --- | --- |
| `LOCKTABLE_LOCKTABLE` | takes the lock | takes the lock | |
| `LOCKTABLE_TINYSTM` | looks at lock and timestamp | takes the lock | validates the reads, stamps |
| `LOCKTABLE_SILO` | looks at lock and timestamp | takes the lock | validates the reads, stamps |

Writes go to memory at once; what was there goes on `writeset`.  The first call of
`locktable_commit_update` of a thread opens its first transaction, every later one ends a
transaction and opens the next.  A call that throws `locktable_aborted_exception` is a
`Call` that fails.

Here every call is one step.  Words are named by their (aligned) addresses, and the
function from addresses to locks is arbitrary; `locktableAddrToLock` is the one of the
source.  A thread without a `locktable_state` has the thread id 0.
-/

import Sivfs.Lib.Call
import Sivfs.Lib.History
import Sivfs.Lib.Machine
import Sivfs.Lib.UndoLog

namespace Sivfs
namespace Locktable

open Call History UndoLog

/-! ### Data -/

/-- `LOCKTABLE_ALG`. -/
inductive Alg where
  | locktable
  | tinystm
  | silo
  deriving DecidableEq

/-- What the program is compiled with. -/
structure Config where
  alg : Alg
  /-- `locktable_addr_to_lock`. -/
  addrToLock : ℕ → ℕ

/-- `locktable_addr_to_lock` for a table of `LOCKTABLE_SIZE` locks. -/
def locktableAddrToLock (size address : ℕ) : ℕ := (address / 64 * 33) % size

/-- `struct locktable_read_entry`. -/
structure ReadEntry where
  lockid : ℕ
  ts : ℕ
  deriving DecidableEq

/-- `struct locktable_state`. -/
structure Thread where
  inTxn : Bool
  thrId : ℕ
  locksHeld : List ℕ
  readset : List ReadEntry
  /-- `address` and `undo_value` of each entry. -/
  writeset : List (ℕ × ℕ)
  aborted : Bool
  commitTs : ℕ
  readsetValidatedTs : ℕ
  deriving DecidableEq

/-- A zero-initialised `struct locktable_state` with the thread id `id`. -/
def newThread (id : ℕ) : Thread := ⟨false, id, [], [], [], false, 0, 0⟩

/-- Memory, `locktable_sstate` and the states of the threads. -/
structure Shared (ι : Type*) where
  mem : ℕ → ℕ
  /-- `locktable[lockid].lock_ownership`. -/
  lockOwnership : ℕ → ℕ
  /-- `locktable[lockid].ts`. -/
  ts : ℕ → ℕ
  globalTs : ℕ
  lastThrId : ℕ
  thread : ι → Thread

/-- `locktable_aborted_exception`. -/
inductive Exn where
  | aborted
  deriving DecidableEq

variable {ι : Type} [DecidableEq ι]

namespace Shared

variable (s : Shared ι) (i : ι)

/-- Thread `i` changes its own state. -/
def setThread (f : Thread → Thread) : Shared ι :=
  { s with thread := Function.update s.thread i (f (s.thread i)) }

/-- `locktable_get_state`. -/
def getState : Shared ι :=
  if (s.thread i).thrId = 0 then
    { s.setThread i fun _ => newThread s.lastThrId with lastThrId := s.lastThrId + 1 }
  else s

/-- The test of `_locktable_validate`. -/
def readValid (entry : ReadEntry) : Bool :=
  (s.lockOwnership entry.lockid = 0 ∨ s.lockOwnership entry.lockid = (s.thread i).thrId) ∧
    entry.ts = s.ts entry.lockid

/-- `_locktable_validate`. -/
def validateEntry (entry : ReadEntry) : Shared ι :=
  if s.readValid i entry then s else s.setThread i fun t => { t with aborted := true }

/-- The loop over the read set in `locktable_validate` and `locktable_validate_pick_ts`. -/
def validateReadset : Shared ι :=
  (s.thread i).readset.foldl (fun s entry => s.validateEntry i entry) s

end Shared

/-! ### The calls -/

section Calls

variable (cfg : Config) (i : ι)

/-- `state->aborted = true` and the exception. -/
def throwAborted {α : Type} : Call (Shared ι) Exn α := do
  modify fun s => s.setThread i fun t => { t with aborted := true }
  fail .aborted

/-- `locktable_validate`. -/
def locktableValidate : Call (Shared ι) Exn Unit :=
  if cfg.alg = .locktable then pure ()
  else do
    modify fun s => s.validateReadset i
    let s ← get
    require ((s.thread i).aborted = false) .aborted

/-- `locktable_add_read_set_entry`. -/
def locktableAddReadSetEntry (lockid ts : ℕ) : Call (Shared ι) Exn Unit := do
  let s ← get
  if cfg.alg = .tinystm ∧ (s.thread i).readsetValidatedTs < ts then do
    locktableValidate cfg i
    modify fun s' => s'.setThread i fun t => { t with readsetValidatedTs := s.globalTs }
  modify fun s => s.setThread i fun t => { t with readset := t.readset ++ [⟨lockid, ts⟩] }

/-- `locktable_locktable_access`. -/
def locktableAccess (address : ℕ) : Call (Shared ι) Exn Unit := do
  let lockid := cfg.addrToLock address
  let s ← get
  if s.lockOwnership lockid = 0 then do
    modify fun s => { s with
      lockOwnership := Function.update s.lockOwnership lockid (s.thread i).thrId }
    modify fun s => s.setThread i fun t => { t with locksHeld := t.locksHeld ++ [lockid] }
    locktableAddReadSetEntry cfg i lockid (s.ts lockid)
  else if s.lockOwnership lockid = (s.thread i).thrId then pure ()
  else throwAborted i

/-- `locktable_write`. -/
def locktableWrite (address value : ℕ) : Call (Shared ι) Exn Unit := do
  modify fun s => s.getState i
  locktableAccess cfg i address
  modify fun s => s.setThread i fun t =>
    { t with writeset := t.writeset ++ [(address, s.mem address)] }
  modify fun s => { s with mem := Function.update s.mem address value }

/-- `locktable_read`.  Within one step the two loads of the timestamp agree, and so do the
two loads of the owner. -/
def locktableRead (address : ℕ) : Call (Shared ι) Exn ℕ := do
  modify fun s => s.getState i
  if cfg.alg = .locktable then do
    locktableAccess cfg i address
    let s ← get
    pure (s.mem address)
  else do
    let lockid := cfg.addrToLock address
    let s ← get
    if s.lockOwnership lockid ≠ 0 ∧ s.lockOwnership lockid ≠ (s.thread i).thrId then
      throwAborted i
    else do
      locktableAddReadSetEntry cfg i lockid (s.ts lockid)
      pure (s.mem address)

/-- `locktable_abort`. -/
def locktableAbort : Call (Shared ι) Exn Unit := do
  modify fun s => s.getState i
  modify fun s => s.setThread i fun t => { t with aborted := false }
  fail .aborted

end Calls

namespace Shared

variable (cfg : Config) (s : Shared ι) (i : ι)

/-- `read_ts` in `locktable_validate_pick_ts`. -/
def readTs : ℕ := (s.thread i).readset.foldl (fun ts entry => max ts (s.ts entry.lockid)) 0

/-- `commit_ts` in `locktable_validate_pick_ts`, and the clock after it. -/
def pickTs : Shared ι :=
  match cfg.alg with
  | .locktable => s
  | .tinystm =>
    { s.setThread i fun t => { t with commitTs := s.globalTs + 1 } with globalTs := s.globalTs + 1 }
  | .silo => s.setThread i fun t => { t with commitTs := s.readTs i + 1 }

/-- The validation in `locktable_validate_pick_ts`. -/
def commitValidate : Shared ι := if cfg.alg = .locktable then s else s.validateReadset i

/-- `locktable_validate_pick_ts`, and `readset.clear()`. -/
def validatePickTs : Shared ι :=
  ((s.commitValidate cfg i).pickTs cfg i).setThread i fun t => { t with readset := [] }

/-- `locktable_apply_undo_entries`, last entry first. -/
def applyUndoEntries : Shared ι :=
  { s with mem := rollback (s.thread i).writeset s.mem }.setThread i fun t =>
    { t with writeset := [] }

/-- The choice between the undo entries and the commit. -/
def undoOrKeep : Shared ι :=
  if (s.thread i).aborted then
    (s.applyUndoEntries i).setThread i fun t => { t with aborted := false }
  else s.setThread i fun t => { t with writeset := [] }

/-- `locktable_unlock_table_entry`. -/
def unlockTableEntry (lockid : ℕ) : Shared ι :=
  { s with
    ts := if cfg.alg = .locktable then s.ts
      else Function.update s.ts lockid (s.thread i).commitTs
    lockOwnership := Function.update s.lockOwnership lockid 0 }

/-- The loop over `locks_held`, and `locks_held.clear()`. -/
def unlockAll : Shared ι :=
  ((s.thread i).locksHeld.foldl (fun s lockid => s.unlockTableEntry cfg i lockid) s).setThread i
    fun t => { t with locksHeld := [] }

/-- "On starting a txn, we are validated up to global_ts." -/
def startTxn : Shared ι :=
  if cfg.alg = .tinystm then s.setThread i fun t => { t with readsetValidatedTs := s.globalTs }
  else s

/-- `locktable_commit_update`: the value of `aborted`, and the state after the call. -/
def locktableCommitUpdate : Bool × Shared ι :=
  let s := s.getState i
  if (s.thread i).inTxn then
    let s := s.validatePickTs cfg i
    ((s.thread i).aborted, ((s.undoOrKeep i).unlockAll cfg i).startTxn cfg i)
  else (false, (s.setThread i fun t => { t with inTxn := true }).startTxn cfg i)

end Shared

/-! ### Threads that take turns -/

/-- A call by a thread. -/
inductive Act (ι : Type) where
  | read (i : ι) (address : ℕ)
  | write (i : ι) (address value : ℕ)
  | commitUpdate (i : ι)
  | abort (i : ι)

/-- The thread that makes a call. -/
def Act.thread : Act ι → ι
  | .read i _ => i
  | .write i _ _ => i
  | .commitUpdate i => i
  | .abort i => i

/-- The program with its history. -/
structure System (ι : Type) where
  shared : Shared ι
  /-- Memory at the start. -/
  start : ℕ → ℕ
  /-- The accesses of the running transaction of a thread, those before it was opened
  included. -/
  txn : ι → List (Access ℕ ℕ)
  /-- The words that the running transaction has written, with what they held before. -/
  pre : ι → ℕ → Option ℕ
  /-- The transactions that `locktable_commit_update` has ended without aborting, in the
  order of these calls. -/
  committed : List (List (Access ℕ ℕ))

namespace System

variable (cfg : Config) (s : System ι) (i : ι)

/-- A read, recorded if it returns. -/
def read (address : ℕ) : System ι :=
  (locktableRead cfg i address).run
    (fun v s' => { s with
      shared := s'
      txn := Function.update s.txn i (s.txn i ++ [.read address v]) })
    (fun _ s' => { s with shared := s' }) s.shared

/-- A write, recorded if it returns. -/
def write (address value : ℕ) : System ι :=
  (locktableWrite cfg i address value).run
    (fun _ s' => { s with
      shared := s'
      txn := Function.update s.txn i (s.txn i ++ [.write address value])
      pre := Function.update s.pre i
        (Function.update (s.pre i) address ((s.pre i address).or (some (s.shared.mem address)))) })
    (fun _ s' => { s with shared := s' }) s.shared

/-- The end of a transaction, if there is one, and the start of the next. -/
def commitUpdate : System ι :=
  let result := s.shared.locktableCommitUpdate cfg i
  if (s.shared.thread i).inTxn then
    { s with
      shared := result.2
      txn := Function.update s.txn i []
      pre := Function.update s.pre i fun _ => none
      committed := if result.1 then s.committed else s.committed ++ [s.txn i] }
  else { s with shared := result.2 }

/-- An explicit abort. -/
def abort : System ι := { s with shared := (locktableAbort i).after s.shared }

end System

/-- One call. -/
def step (cfg : Config) (s : System ι) : Act ι → System ι
  | .read i address => s.read cfg i address
  | .write i address value => s.write cfg i address value
  | .commitUpdate i => s.commitUpdate cfg i
  | .abort i => s.abort i

/-- No thread has called anything yet, and the table is zero-filled. -/
def Init (s : System ι) : Prop :=
  (∀ l, s.shared.lockOwnership l = 0) ∧ s.shared.lastThrId = 1 ∧
    (∀ i, s.shared.thread i = newThread 0) ∧ s.shared.mem = s.start ∧ (∀ i, s.txn i = []) ∧
    (∀ i a, s.pre i a = none) ∧ s.committed = []

/-- The start, with memory `mem`. -/
def initial (mem : ℕ → ℕ) : System ι where
  shared := ⟨mem, fun _ => 0, fun _ => 0, 0, 1, fun _ => newThread 0⟩
  start := mem
  txn := fun _ => []
  pre := fun _ _ => none
  committed := []

omit [DecidableEq ι] in
theorem init_initial (mem : ℕ → ℕ) : Init (initial mem : System ι) :=
  ⟨fun _ => rfl, rfl, fun _ => rfl, rfl, fun _ => rfl, fun _ _ => rfl, rfl⟩

/-- The calls of the threads `ι`, in any order. -/
def calls (cfg : Config) (ι : Type) [DecidableEq ι] : Machine (System ι) (Act ι) where
  init := Init
  step := fun s a => some (step cfg s a)

end Locktable
end Sivfs
