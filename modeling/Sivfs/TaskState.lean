/-
# The state of a task

`sivfs_get_task_state` and `sivfs_put_task_state` (`kern/sivfs_state.c`) count the references to
the `sivfs_state` of a task.

| a reference is held by | from | to |
| --- | --- | --- |
| a call, or a kernel thread | `sivfs_get_task_state` | `sivfs_put_task_state` |
| an anon inode | `_sivfs_get_anon_inode` | `sivfs_put_anon_inode` |
| the mmu notifier | `sivfs_create_anon_inode` | `sivfs_mm_release` |

Every call is a step of its own here.  `Sivfs.TaskState.References` has the invariant,
`Sivfs.TaskState.Calls` what each call keeps, `Sivfs.TaskState.Release` the loop of
`sivfs_mm_release`, and `Sivfs.TaskState.Runs` what holds in every run.
-/

import Mathlib.Data.Finset.Sort
import Sivfs.AnonInodes

namespace Sivfs
namespace Tasks

open AnonInodes (Workingset DentryPtr Failure Creation Opening AnonInode unreferenced create
  skipRefcount einval eperm)
open Call

def enomem : ℤ := 12

/-- `DELETE_BATCH`. -/
def deleteBatch : ℕ := 16

/-- `struct sivfs_state`. -/
structure Task where
  nref : ℤ
  notifierRegistered : Bool
  workingset : Workingset

/-- What `sivfs_new_state` makes. -/
def Task.new : Task := ⟨1, false, ⟨[], []⟩⟩

/-- The entry of the task in `threads`, and the states that `sivfs_put_state` has freed. -/
structure Slot where
  task : Option Task
  freed : List Task

/-! ### The code -/

/-- The state through the pointer that a caller has. -/
def theTask : Call Slot Failure Task := do
  let s ← Call.get
  match s.task with
  | some t => pure t
  | none => fail .badPointer

/-- A call on the working set. -/
def onWorkingset {α : Type} (m : Call Workingset Failure α) : Call Slot Failure α := fun s =>
  match s.task with
  | some t =>
    ((m t.workingset).1, { s with task := some { t with workingset := (m t.workingset).2 } })
  | none => (.error .badPointer, s)

/-- A call with the return code `rc`. -/
def call (rc : ℤ) : Call Slot Failure Unit := require (rc = 0) (.rc rc)

/-- `sivfs_put_task_state`. -/
def Slot.put (s : Slot) : Slot :=
  match s.task with
  | none => s
  | some t =>
    let t := { t with nref := t.nref - 1 }
    if t.nref = 0 then ⟨none, t :: s.freed⟩ else { s with task := some t }

/-- How `sivfs_new_state` and `radix_tree_insert` end. -/
structure Entry where
  newState : ℤ
  insert : ℤ

/-- `sivfs_get_task_state`. -/
def getTaskState (env : Entry) : Call Slot Failure Unit := do
  let s ← Call.get
  match s.task with
  | some t => modify fun s => { s with task := some { t with nref := t.nref + 1 } }
  | none => do
    call env.newState
    onError (call env.insert) fun s => { s with freed := Task.new :: s.freed }
    modify fun s => { s with task := some Task.new }

/-- How the calls of `_sivfs_get_anon_inode` and `sivfs_create_anon_inode` end. -/
structure Creating where
  entry : Entry
  /-- `sivfs_get_inode` gives an inode. -/
  getInode : Bool
  /-- `get_task_mm` gives the address space. -/
  hasMm : Bool
  register : ℤ
  hasIinfo : Bool
  insertInode : ℤ
  createAnonDentry : ℤ
  insertDentry : ℤ
  commitUpdate : ℤ
  /-- `sivfs_commit_update` aborts, as it does without any changes if `should_abort` is set. -/
  aborted : Bool

/-- The calls after `sivfs_create_anon_inode`. -/
def Creating.rest (env : Creating) : Creation :=
  ⟨0, 0, env.hasIinfo, env.insertInode, env.createAnonDentry, env.insertDentry, env.commitUpdate,
    env.aborted⟩

/-- `sivfs_create_anon_inode`, as far as the state is concerned. -/
def createAnonInode (env : Creating) : Call Slot Failure Unit := do
  require env.getInode (.rc (-enomem))
  let t ← theTask
  if t.notifierRegistered then pure ()
  else do
    require env.hasMm (.rc (-einval))
    getTaskState env.entry
    onError (call env.register) Slot.put
    modify fun s => { s with task := s.task.map fun t => { t with notifierRegistered := true } }

/-- `_sivfs_get_anon_inode`. -/
def getNewAnonInode (env : Creating) (ino flags : ℕ) : Call Slot Failure DentryPtr :=
  if flags &&& create = 0 then pure .uninitialized
  else do
    getTaskState env.entry
    onError (do
      createAnonInode env
      onWorkingset (AnonInodes.getNewAnonInode env.rest ino flags)) Slot.put

/-- After an error path without an error code `sivfs_get_anon_inode` goes on, with the NULL of its
lookup. -/
def orNull (m : Call Slot Failure DentryPtr) : Call Slot Failure DentryPtr := fun s =>
  match m s with
  | (.ok dentry, s') => (.ok dentry, s')
  | (.error e, s') => if e = .rc 0 then (.ok .null, s') else (.error e, s')

/-- `sivfs_get_anon_inode`. -/
def getAnonInode (env : Creating) (ino flags : ℕ) : Call Slot Failure DentryPtr := do
  let t ← theTask
  match t.workingset.anonDentries.lookup ino with
  | some _ => onWorkingset (AnonInodes.getAnonInode env.rest ino flags)
  | none => orNull (getNewAnonInode env ino flags)

/-- `sivfs_put_anon_inode`. -/
def putAnonInode (ino : ℕ) : Call Slot Failure Unit := do
  let t ← theTask
  match t.workingset.anonInodes.lookup ino with
  | none => pure ()
  | some inode => do
    onWorkingset (modify (AnonInodes.putAnonInode ino))
    if (inode.refcount = unreferenced ∨ inode.refcount = 1) ∧
        (t.workingset.anonDentries.lookup ino).isSome then
      modify Slot.put

/-- `sivfs_check_nontxnal_op`. -/
def checkNontxnalOp (env : Creating) (ino : ℕ) : Call Slot Failure Bool := do
  let dentry ← getAnonInode env ino 0
  let inode ← onWorkingset (AnonInodes.dInode dentry)
  putAnonInode ino
  pure !(decide (0 < inode.nrpages) || !inode.checkpointPages.isEmpty)

/-- `sivfs_anon_open`, for a dentry that has just been selected: whether a reference was
counted. -/
def anonOpen (newFinfo openDirectAccess : ℤ) (ino : ℕ) : Call Slot Failure Bool := do
  let s ← Call.get
  match s.task with
  | some _ => onWorkingset (AnonInodes.anonOpen ⟨newFinfo, openDirectAccess, true, false⟩ ino)
  | none => do
    call newFinfo
    call openDirectAccess
    fail (.rc (-eperm))

/-- The backing inodes from `index` on whose anon inode is not referenced, in the order in which
`anon_dentries` is visited. -/
def unreferencedFrom (ws : Workingset) (index : ℕ) : List ℕ :=
  (((ws.anonDentries.map Prod.fst).toFinset).filter fun ino => index ≤ ino ∧
    (ws.anonInodes.lookup ino).any fun inode => inode.refcount = unreferenced).sort

/-- The anon inodes of a batch are put; `false` if one of them is still there. -/
def releaseBatch : List ℕ → Call Slot Failure Bool
  | [] => pure true
  | ino :: inos => do
    putAnonInode ino
    let t ← theTask
    if (t.workingset.anonDentries.lookup ino).isSome then pure false else releaseBatch inos

/-- The loop of `sivfs_mm_release`. -/
def releaseLoop : ℕ → ℕ → Call Slot Failure Bool
  | 0, _ => pure true
  | fuel + 1, index => do
    let t ← theTask
    let indices := (unreferencedFrom t.workingset index).take deleteBatch
    if ← releaseBatch indices then
      match indices.getLast? with
      | none => pure true
      | some last => releaseLoop fuel (last + 1)
    else pure false

/-- `sivfs_mm_release`. -/
def mmRelease : Call Slot Failure Unit := do
  let t ← theTask
  if ← releaseLoop (t.workingset.anonDentries.length + 1) 0 then do
    modify fun s => { s with task := s.task.map fun t => { t with notifierRegistered := false } }
    modify Slot.put

/-! ### The machine -/

/-- The state of the task, with the references that calls and kernel threads hold, and the files
that are open. -/
structure System where
  slot : Slot
  held : ℕ
  files : ℕ → ℕ

/-- What happens.  The calls that the kernel makes of the file system are sequences of these. -/
inductive Act where
  | get (env : Entry)
  | put
  /-- An anon inode is selected for an open. -/
  | select (env : Creating) (ino : ℕ)
  | check (env : Creating) (ino : ℕ)
  | openAnon (newFinfo openDirectAccess : ℤ) (ino : ℕ)
  /-- The last mapping or descriptor of an open file is closed: `sivfs_anon_release`. -/
  | release (ino : ℕ)
  /-- The address space goes away. -/
  | mmRelease

/-- The anon inode of a file. -/
def Slot.anonInode (s : Slot) (ino : ℕ) : Option AnonInode :=
  s.task.bind fun t => t.workingset.anonInodes.lookup ino

/-- When a call is made. -/
def System.enabled (s : System) : Act → Bool
  | .get _ => true
  | .put | .select .. => 0 < s.held
  -- Without an anon inode it uses a pointer that has no value.
  | .check _ ino => 0 < s.held ∧ (s.slot.anonInode ino).isSome
  | .openAnon _ _ ino => (s.slot.anonInode ino).isSome
  | .release ino => 0 < s.files ino
  | .mmRelease => s.slot.task.any Task.notifierRegistered

/-- The call. -/
def Act.call : Act → Call Slot Failure Unit
  | .get env => getTaskState env
  | .put => modify Slot.put
  | .select env ino => do
    let dentry ← getAnonInode env ino (create ||| skipRefcount)
    let _ ← onWorkingset (AnonInodes.dInode dentry)
  | .check env ino => do
    let _ ← checkNontxnalOp env ino
  | .openAnon newFinfo openDirectAccess ino => do
    let counted ← anonOpen newFinfo openDirectAccess ino
    require (counted = true) (.rc 0)
  | .release ino => putAnonInode ino
  | .mmRelease => Tasks.mmRelease

/-- What a call has done to the references. -/
def System.after (s : System) (a : Act) (slot : Slot) : System :=
  match a with
  | .get _ => ⟨slot, s.held + 1, s.files⟩
  | .put => ⟨slot, s.held - 1, s.files⟩
  | .openAnon _ _ ino => ⟨slot, s.held, Function.update s.files ino (s.files ino + 1)⟩
  | .release ino => ⟨slot, s.held, Function.update s.files ino (s.files ino - 1)⟩
  | .select .. | .check .. | .mmRelease => ⟨slot, s.held, s.files⟩

/-- One call. -/
def step (s : System) (a : Act) : Option System :=
  if s.enabled a then
    some (a.call.run (fun _ => s.after a) (fun _ slot => ⟨slot, s.held, s.files⟩) s.slot)
  else none

/-- The calls of a task, in any order. -/
def machine : Machine System Act where
  init s := s = ⟨⟨none, []⟩, 0, fun _ => 0⟩
  step := step

end Tasks
end Sivfs
