/-
# A run of the checkpoint collector

`sivfs_gc_checkpoints` (`kern/sivfs_gc_checkpoints.c`) with the stacks it moves entries
between (`kern/sivfs_stack.h`).

| stack | entries |
| --- | --- |
| `obsoleted_entries` | listed since the last run |
| `gc_blocked_entries[SIVFS_INVALID_TS]` | taken from there, not yet looked at |
| `gc_blocked_entries[g]` | in use by a reader of checkpoint `g` |

Every allocation may fail.  The loops are bounded by a number of turns; a run that needs
more ends with `Halt.turns`.
-/

import Sivfs.Checkout.Machine
import Sivfs.Lib.Call
import Sivfs.Lib.RadixTree
import Mathlib.Algebra.Order.Group.Multiset

namespace Sivfs
namespace Gc

open Call

/-! ### Entries -/

/-- `SIVFS_GC_ENTRY_PAGE`. -/
def gcEntryPage : ℕ := 2

/-- `SIVFS_GC_ENTRY_INODE`. -/
def gcEntryInode : ℕ := 4

/-- `SIVFS_GC_ENTRY_FLAGS`. -/
def gcEntryFlags : ℕ := 7

/-- The types of entries. -/
inductive EntryType where
  | page
  | inode
  deriving DecidableEq

/-- `sivfs_gc_entry_to_type`. -/
def gcEntryToType (entry : ℕ) : Option EntryType :=
  if entry &&& gcEntryFlags = gcEntryPage then some .page
  else if entry &&& gcEntryFlags = gcEntryInode then some .inode
  else none

/-- `sivfs_gc_entry_to_page` and `sivfs_gc_entry_to_inode`. -/
def gcEntryToAddr (entry : ℕ) : ℕ := entry - (entry &&& gcEntryFlags)

/-- What a run reads, and which of its allocations fail. -/
structure Env where
  /-- `sivfs_task_to_state(current)` is not `NULL`. -/
  hasState : Bool
  /-- `mutex_lock_interruptible` gets a signal. -/
  interrupted : Bool
  /-- `latest_checkpoint_published`. -/
  latestSnapshot : Ts
  /-- `checkpoint_ts` and `prior_checkpoint_ts` of all threads. -/
  checkedOut : List Ts
  /-- `checkpoint_ts` and `obsoleted_ts` of the page at an address, if it has a `pginfo`. -/
  pginfo : ℕ → Option (Ts × Ts)
  /-- `cp_ts` and `obsoleted_ts` of the inode at an address, if it has an `iinfo`. -/
  iinfo : ℕ → Option (Ts × Ts)
  /-- The allocations that fail, counted from the first one. -/
  allocFails : ℕ → Bool

/-- `sivfs_gc_entry_to_lifetime`. -/
def Env.lifetime (env : Env) (entry : ℕ) : Option (Ts × Ts) :=
  (gcEntryToType entry).bind fun
    | .page => env.pginfo (gcEntryToAddr entry)
    | .inode => env.iinfo (gcEntryToAddr entry)

/-! ### Stacks -/

/-- `struct sivfs_stack`, the top at the end. -/
structure Stack (α : Type) where
  values : List α
  capacity : ℕ

/-- What `sivfs_gc_checkpoints` works on. -/
structure State where
  obsoletedEntries : Stack ℕ
  gcBlockedEntries : RadixTree Ts (Stack ℕ)
  /-- What has been freed. -/
  freed : List ℕ
  /-- `did_gc`. -/
  didGc : Bool
  /-- The number of allocations so far. -/
  allocations : ℕ
  /-- The entries that were reassigned: the group they were in, and the group that they
  were pushed onto. -/
  pushes : List (Ts × Ts)

/-- How a run ends that does not succeed. -/
inductive Halt where
  | errno (e : Errno)
  /-- The run takes more turns than its bound. -/
  | turns
  deriving DecidableEq

variable {α : Type}

/-- An allocation. -/
def alloc (env : Env) : Call State Halt Unit := do
  let s ← get
  modify fun s => { s with allocations := s.allocations + 1 }
  require (env.allocFails s.allocations = false) (.errno .enomem)

/-- `sivfs_new_stack`. -/
def newStack (α : Type) (env : Env) : Call State Halt (Stack α) := do
  alloc env
  pure ⟨[], 0⟩

/-- `sivfs_stack_reserve`. -/
def stackReserve (env : Env) (stack : Stack α) (newCapacity : ℕ) : Call State Halt (Stack α) :=
  if stack.capacity ≤ newCapacity then do
    alloc env
    pure { stack with capacity := max (stack.capacity * 2) (max 4 newCapacity) }
  else pure stack

/-- `sivfs_stack_push`. -/
def stackPush (env : Env) (stack : Stack α) (value : α) : Call State Halt (Stack α) := do
  let stack ← stackReserve env stack (stack.values.length + 1)
  pure { stack with values := stack.values ++ [value] }

/-- `sivfs_stack_push_all`. -/
def stackPushAll (env : Env) (dest src : Stack α) : Call State Halt (Stack α) := do
  let dest ← stackReserve env dest (dest.values.length + src.values.length)
  pure { dest with values := dest.values ++ src.values }

/-! ### A run -/

/-- A group is put into the tree, or changed. -/
def State.setGroup (s : State) (ts : Ts) (stack : Stack ℕ) : State :=
  { s with gcBlockedEntries := s.gcBlockedEntries.set ts stack }

/-- `sivfs_gc_get_blocked_entries`. -/
def gcGetBlockedEntries (env : Env) (ts : Ts) : Call State Halt (Stack ℕ) := do
  let s ← get
  (s.gcBlockedEntries.lookup ts).elim
    (do
      let stack ← newStack ℕ env
      alloc env
      modify fun s => s.setGroup ts stack
      pure stack)
    pure

/-- `sivfs_ts_range_contains`. -/
def tsRangeContains (start stop ts : Ts) : Prop := start ≤ ts ∧ ts < stop

instance (start stop ts : Ts) : Decidable (tsRangeContains start stop ts) :=
  inferInstanceAs (Decidable (_ ∧ _))

/-- `reassign_to`. -/
def reassignTo (env : Env) (startTs obsoletedTs : Ts) : Ts :=
  if env.latestSnapshot < obsoletedTs then env.latestSnapshot
  else env.checkedOut.foldl
    (fun target blocker => if tsRangeContains startTs obsoletedTs blocker then blocker else target)
    invalidTs

/-- `sivfs_gc_free_entry`. -/
def State.gcFreeEntry (s : State) (entry : ℕ) : State :=
  { s with freed := if (gcEntryToType entry).isSome then entry :: s.freed else s.freed }

/-- An entry of the group `ts` is pushed onto another group. -/
def reassign (env : Env) (ts target : Ts) (entry : ℕ) : Call State Halt Unit := do
  let stack ← gcGetBlockedEntries env target
  let stack ← stackPush env stack entry
  modify fun s => { s.setGroup target stack with pushes := (ts, target) :: s.pushes }

/-- `sivfs_gc_or_reassign_entry`, for an entry of the group `ts`. -/
def gcOrReassignEntry (env : Env) (ts : Ts) (entry : ℕ) : Call State Halt Unit :=
  (env.lifetime entry).elim (fail (.errno .einval)) fun lifetime =>
    if reassignTo env lifetime.1 lifetime.2 = invalidTs then
      modify fun s => { s.gcFreeEntry entry with didGc := true }
    else reassign env ts (reassignTo env lifetime.1 lifetime.2) entry

/-- The group at `ts`. -/
def State.group (s : State) (ts : Ts) : Stack ℕ := (s.gcBlockedEntries.lookup ts).getD ⟨[], 0⟩

/-- `sivfs_stack_pop` from the group `ts`. -/
def State.popGroup (s : State) (ts : Ts) : State :=
  s.setGroup ts { s.group ts with values := (s.group ts).values.dropLast }

/-- `while (!sivfs_stack_empty(entries))`, at most so many times. -/
def drainGroup (env : Env) (ts : Ts) : ℕ → Call State Halt Unit
  | 0 => fail .turns
  | n + 1 => do
    let s ← get
    (s.group ts).values.getLast?.elim (pure ()) fun entry => do
      gcOrReassignEntry env ts entry
      modify fun s => s.popGroup ts
      drainGroup env ts n

/-- `still_blocked`. -/
def stillBlocked (env : Env) (ts : Ts) : Bool :=
  ts ≠ invalidTs ∧ (env.latestSnapshot ≤ ts ∨ ts ∈ env.checkedOut)

/-- The iteration over `gc_blocked_entries` after the group `c`, with at most so many groups
and at most `turns` entries in each. -/
def gcGroups (env : Env) (turns : ℕ) : ℕ → Option Ts → Call State Halt Unit
  | 0, _ => fail .turns
  | n + 1, c => do
    let s ← get
    (s.gcBlockedEntries.next c).elim (pure ()) fun slot =>
      if stillBlocked env slot.1 then gcGroups env turns n (some slot.1)
      else do
        drainGroup env slot.1 turns
        modify fun s => { s with gcBlockedEntries := s.gcBlockedEntries.delete slot.1 }
        gcGroups env turns n (some slot.1)

/-- `sivfs_gc_blocked_entries_empty`. -/
def State.gcBlockedEntriesEmpty (s : State) : Bool :=
  s.gcBlockedEntries.slots.all fun slot => slot.2.values.isEmpty

/-- `sivfs_get_checked_out_versions`. -/
def getCheckedOutVersions (env : Env) : List Ts → Stack Ts → Call State Halt (Stack Ts)
  | [], out => pure out
  | v :: vs, out => do
    let out ← stackPush env out v
    getCheckedOutVersions env vs out

/-- Step 0: what is obsolete is taken over. -/
def takeObsoleted (env : Env) : Call State Halt Unit := do
  let uncategorized ← gcGetBlockedEntries env invalidTs
  let s ← get
  let uncategorized ← stackPushAll env uncategorized s.obsoletedEntries
  modify fun s => { s.setGroup invalidTs uncategorized with
    obsoletedEntries := { s.obsoletedEntries with values := [] } }

/-- `sivfs_gc_checkpoints`. -/
def gcCheckpoints (env : Env) (turns : ℕ) : Call State Halt Bool := do
  modify fun s => { s with didGc := false }
  require (env.hasState = true) (.errno .einval)
  require (env.interrupted = false) (.errno .eintr)
  takeObsoleted env
  let s ← get
  if s.gcBlockedEntriesEmpty then pure s.didGc
  else do
    let versions ← newStack Ts env
    let _ ← getCheckedOutVersions env env.checkedOut versions
    gcGroups env turns turns none
    let s ← get
    pure s.didGc

end Gc
end Sivfs
