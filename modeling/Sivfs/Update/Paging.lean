/-
# Pages on demand

`sivfs_fault`, `sivfs_fault_checkpoint` and `sivfs_mkwrite` (`kern/inode.c`), with what the
kernel does around them when a thread loads from or stores to a page.

| the entry in the page table | load | store |
| --- | --- | --- |
| none | `sivfs_fault`, mapped read-only | `sivfs_fault`, then `sivfs_mkwrite` |
| a page of the checkpoint | goes on | `sivfs_mkwrite` |
| a page of the working set, read-only | goes on | `sivfs_mkwrite` |
| a page of the working set, writable | goes on | goes on |

A page may be mapped at several addresses, the kernel may take an entry of the page table away
at any time, and pages that are clean may be reclaimed.  Snapshots are given up by
`SIVFS_TXN_PAUSE` here; `Sivfs.Update.Mapped` has the calls that keep pages.

What a fault does to one page is in `Sivfs.Update.PageOk`, what it takes for a store to go
through in `Sivfs.Update.StoreProgress`, and runs of the machine in `Sivfs.Update.LoadStore`.
-/

import Sivfs.Checkpoint.Stores

open PathCopy

namespace Sivfs
namespace Paging

open Checkpoint (Ref Shared Thread CpOk InRange pathOf)

/-! ### Pages of a thread -/

/-- A page of the working set. -/
structure OwnPage where
  words : ℕ → ℕ
  uptodate : Bool
  dirty : Bool

/-- An entry of the page table; pages of checkpoints are mapped read-only. -/
inductive Pte where
  | cp (r : Ref)
  | own (writable : Bool)
  deriving DecidableEq

/-- What a thread has of a page of a file, mapped at the addresses `V`. -/
structure PageState (V : Type*) where
  /-- `mapping->page_tree`. -/
  own : Option OwnPage
  /-- `iinfo->checkpoint_pages`. -/
  recorded : Bool
  pte : V → Option Pte
  /-- What the thread has stored since it has its snapshot.  The code has this in the page. -/
  stores : ℕ → Option ℕ

/-- What may go wrong in a fault. -/
structure Env where
  /-- `sivfs_radix_tree_set` fails. -/
  recordFails : Bool
  /-- `page_cache_alloc` or `add_to_page_cache_lru` fails. -/
  allocFails : Bool
  /-- The page is locked. -/
  busy : Bool
  /-- The bit of `vmf->flags` that `VM_FAULT_WRITE` asks for. -/
  initialWrite : Bool

/-- How a fault ends. -/
inductive Ret where
  | sigbus
  | retry
  | cp (r : Ref)
  | own
  deriving DecidableEq

/-- How `sivfs_mkwrite` ends. -/
inductive WriteRet where
  | sigbus
  | nopage
  | locked
  deriving DecidableEq

section Fault

variable {V : Type*} [DecidableEq V]

/-- Nothing is mapped. -/
def PageState.empty : PageState V := ⟨none, false, fun _ => none, fun _ => none⟩

/-- `sivfs_unmap_page_range`, which also truncates the working set. -/
def PageState.unmapPageRange (pg : PageState V) : PageState V :=
  { pg with own := none, pte := fun _ => none }

/-- A page of the checkpoint is evicted. -/
def PageState.evict (pg : PageState V) : PageState V :=
  { pg.unmapPageRange with recorded := false }

/-- An entry is put into the page table. -/
def PageState.map (pg : PageState V) (v : V) (e : Pte) : PageState V :=
  { pg with pte := Function.update pg.pte v (some e) }

/-- `sivfs_fault_checkpoint`: the page of the checkpoint, if it may be mapped; `none` is
`VM_FAULT_SIGBUS`. -/
def faultCheckpoint (s : Shared) (th : Thread) (env : Env) (p : ℕ × ℕ) (pg : PageState V) :
    PageState V × Option (Option Ref) :=
  match th.ts, th.checkpoint with
  | (ts : ℕ), some cp =>
    match Checkpoint.findFirstWrite s cp.cpTs ts p.1 (p.2 * pageSize)
        (p.2 * pageSize + pageSize) with
    | .error _ => (pg, none)
    | .ok first =>
      if first ≠ invalidTs ∨ pg.own.isSome then (pg, some none)
      else
        match Checkpoint.checkpointIterInit p.1 (p.2 * pageSize) with
        | .error _ => (pg, none)
        | .ok offsets =>
          match follow s.heap.child cp.root offsets with
          | none => (pg, some none)
          | some r =>
            if env.recordFails then (pg, none) else ({ pg with recorded := true }, some (some r))
  | _, _ => (pg, none)

/-- What a fresh page of the working set is filled with. -/
def fill (s : Shared) (th : Thread) (p : ℕ × ℕ) : Option Ref → Except Errno (ℕ → ℕ)
  | some r => .ok (s.heap.words r)
  | none => Checkpoint.updatePage s th p.1 (p.2 * pageSize)

/-- The page of the working set.  If it cannot be filled it stays there, not up to date. -/
def ownPage (s : Shared) (th : Thread) (env : Env) (p : ℕ × ℕ) (pg : PageState V)
    (cp : Option Ref) : PageState V × Ret :=
  match pg.own with
  | some page => (pg, if env.busy then .retry else if page.uptodate then .own else .sigbus)
  | none =>
    if env.allocFails then (pg, .sigbus)
    else
      match fill s th p cp with
      | .error _ => ({ pg with own := some ⟨fun _ => 0, false, false⟩ }, .sigbus)
      | .ok words => ({ pg with own := some ⟨words, true, false⟩ }, .own)

/-- `sivfs_fault`, with the new `cp_page_to_cow`. -/
def fault (s : Shared) (th : Thread) (env : Env) (p : ℕ × ℕ) (cow : Option Ref)
    (pg : PageState V) : PageState V × Option Ref × Ret :=
  match faultCheckpoint s th env p pg with
  | (pg, none) => (pg, cow, .sigbus)
  | (pg, some cp) =>
    match (if env.initialWrite ∨ cow = cp then none else cp) with
    | some r => (pg, none, .cp r)
    | none =>
      let (pg, ret) := ownPage s th env p (if pg.recorded then pg.evict else pg) cp
      (pg, none, ret)

/-- `sivfs_mkwrite` for the page that is mapped or has just been found. -/
def mkwrite (cow : Option Ref) (pg : PageState V) (e : Pte) : PageState V × Option Ref × WriteRet :=
  if cow.isSome then (pg, cow, .sigbus)
  else
    match e, pg.own with
    | .cp r, _ => (pg.evict, some r, .nopage)
    | .own _, none => (pg, cow, .nopage)
    | .own _, some page => ({ pg with own := some { page with dirty := true } }, cow, .locked)

/-- The page is to be made writable at `v`. -/
def makeWritable (v : V) (cow : Option Ref) (pg : PageState V) (e : Pte) :
    PageState V × Option Ref :=
  match mkwrite cow pg e with
  | (pg, cow, .locked) => (pg.map v (.own true), cow)
  | (pg, cow, _) => (pg, cow)

/-- The page that a fault has found is mapped at `v`, for a store after `sivfs_mkwrite`. -/
def install (v : V) (write : Bool) (cow : Option Ref) (pg : PageState V) (e : Pte) :
    PageState V × Option Ref :=
  if write then makeWritable v cow pg e else (pg.map v e, cow)

/-- What the kernel does on a load or a store at `v`, until the instruction is tried again. -/
def handle (s : Shared) (th : Thread) (env : Env) (p : ℕ × ℕ) (v : V) (write : Bool)
    (cow : Option Ref) (pg : PageState V) : PageState V × Option Ref :=
  match pg.pte v with
  | some e => if write ∧ e ≠ .own true then makeWritable v cow pg e else (pg, cow)
  | none =>
    match fault s th env p cow pg with
    | (pg, cow, .cp r) => install v write cow pg (.cp r)
    | (pg, cow, .own) => install v write cow pg (.own false)
    | (pg, cow, _) => (pg, cow)

end Fault

/-! ### The machine -/

/-- The pages of a thread, by inode number and page offset. -/
structure Task (V : Type*) where
  page : ℕ × ℕ → PageState V
  cpPageToCow : Option Ref

/-- The state that the threads share, their snapshots, and their pages. -/
structure State (ι V : Type*) where
  shared : Checkpoint.State ι
  tasks : ι → Task V

/-- What happens. -/
inductive Act (ι V : Type*) where
  /-- Commits, attempts to make a checkpoint, and threads that take or give up a snapshot. -/
  | shared (a : Checkpoint.Act ι)
  /-- A load or a store at an address of page `p` is tried. -/
  | touch (i : ι) (p : ℕ × ℕ) (v : V) (write : Bool) (env : Env)
  /-- Word `j` of the page is stored. -/
  | store (i : ι) (p : ℕ × ℕ) (v : V) (j x : ℕ)
  /-- The kernel clears an entry of the page table. -/
  | zap (i : ι) (p : ℕ × ℕ) (v : V)
  /-- The kernel asks for a page of the working set back. -/
  | reclaim (i : ι) (p : ℕ × ℕ)

section Machine

variable {ι V : Type*} [DecidableEq ι] [DecidableEq V]

/-- The page of a thread is changed. -/
def Task.setPage (t : Task V) (p : ℕ × ℕ) (res : PageState V × Option Ref) : Task V :=
  ⟨Function.update t.page p res.1, res.2⟩

/-- `sivfs_unmap_mapping`; the stores are gone with the pages. -/
def PageState.invalidate (pg : PageState V) : PageState V :=
  { if pg.own.isSome ∨ pg.recorded then pg.evict else pg with stores := fun _ => none }

/-- `sivfs_writepage` keeps a page that is dirty; others are dropped. -/
def PageState.reclaim (pg : PageState V) : PageState V :=
  match pg.own with
  | some page => if page.dirty then pg else pg.unmapPageRange
  | none => pg

/-- A word is stored through an entry of the page table. -/
def PageState.store (pg : PageState V) (v : V) (j x : ℕ) : Option (PageState V) :=
  match pg.pte v, pg.own with
  | some (.own true), some page =>
    some { pg with
      own := some { page with words := Function.update page.words j x, dirty := true }
      stores := Function.update pg.stores j (some x) }
  | _, _ => none

/-- What a load at `v` gives; `none` if nothing is mapped there. -/
def load (s : Shared) (pg : PageState V) (v : V) (j : ℕ) : Option ℕ :=
  match pg.pte v with
  | some (.cp r) => some (s.heap.words r j)
  | some (.own _) => pg.own.map fun page => page.words j
  | none => none

/-- Thread `i` goes on. -/
def State.setTask (s : State ι V) (i : ι) (t : Task V) : State ι V :=
  { s with tasks := Function.update s.tasks i t }

/-- A step of the shared state.  Giving a snapshot up invalidates the working set. -/
def sharedStep (s : State ι V) (a : Checkpoint.Act ι) : Option (State ι V) :=
  (Checkpoint.step s.shared a).map fun sh =>
    match a with
    | .pause i => State.setTask ⟨sh, s.tasks⟩ i
        { s.tasks i with page := fun p => ((s.tasks i).page p).invalidate }
    | _ => ⟨sh, s.tasks⟩

/-- The threads that take something new have given up what they had. -/
def mayTake (s : State ι V) : Checkpoint.Act ι → Bool
  | .checkout i | .update i => (s.shared.threads i).ts = invalidTs
  | _ => true

/-- One step. -/
def step (s : State ι V) : Act ι V → Option (State ι V)
  | .shared a => if mayTake s a then sharedStep s a else none
  | .touch i p v write env =>
    let t := s.tasks i
    some (s.setTask i (t.setPage p
      (handle s.shared.toShared (s.shared.threads i) env p v write t.cpPageToCow (t.page p))))
  | .store i p v j x =>
    (((s.tasks i).page p).store v j x).map fun pg =>
      s.setTask i ((s.tasks i).setPage p (pg, (s.tasks i).cpPageToCow))
  | .zap i p v =>
    let pg := (s.tasks i).page p
    some (s.setTask i ((s.tasks i).setPage p
      ({ pg with pte := Function.update pg.pte v none }, (s.tasks i).cpPageToCow)))
  | .reclaim i p =>
    some (s.setTask i ((s.tasks i).setPage p
      (((s.tasks i).page p).reclaim, (s.tasks i).cpPageToCow)))

/-- After mounting. -/
def Init (s : State ι V) : Prop :=
  Checkpoint.Init s.shared ∧ ∀ i, s.tasks i = ⟨fun _ => .empty, none⟩

/-- Commits, checkpoints and page faults, for threads `ι` and addresses `V` of each page. -/
def machine (ι V : Type*) [DecidableEq ι] [DecidableEq V] : Machine (State ι V) (Act ι V) where
  init := Init
  step := step

end Machine

end Paging
end Sivfs
