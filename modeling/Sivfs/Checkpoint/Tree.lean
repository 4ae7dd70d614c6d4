/-
# Checkpoint trees

`kern/sivfs_checkpoints.h`, `kern/sivfs_checkpoints.c` and
`sivfs_apply_change_checkpoint` of `kern/sivfs_make_checkpoint.c`.

A checkpoint is a tree of pages of seven levels.  Levels 6 to 4 are indexed by
nine bits each of the inode number, levels 3 to 1 by nine bits each of the page
offset in the file, and level 0 is the page itself.  Missing pages stand for
zeros, and so do the shared zero pages, one for each of the levels 0 to 3.

A change is applied by going down from the root and copying every page on the
way that an earlier checkpoint made.
-/

import Sivfs.Basic
import Sivfs.Log
import Sivfs.Lib.PathCopy
import Mathlib.Logic.Function.Basic
import Mathlib.Algebra.Order.Group.Nat

open PathCopy

namespace Sivfs
namespace Checkpoint

/-! ### Paths -/

/-- `SIVFS_CHECKPOINT_INO_LEVELS`. -/
def inoLevels : ℕ := 3

/-- `SIVFS_CHECKPOINT_FOFFSET_LEVELS`. -/
def foffsetLevels : ℕ := 4

/-- `SIVFS_CHECKPOINT_NODE_SHIFT`. -/
def nodeShift : ℕ := 9

/-- `SIVFS_CHECKPOINT_CHILDREN_PER_NODE`. -/
def childrenPerNode : ℕ := 512

/-- The offset that `sivfs_checkpoint_iter_init` emits for nine bits of `x`; at
the top level it checks that there are no more bits. -/
def iterOffset (x sublevel topSublevel : ℕ) : Except Errno ℕ :=
  if sublevel = topSublevel ∧ childrenPerNode ≤ x / 2 ^ (sublevel * nodeShift) then .error .einval
  else .ok (x / 2 ^ (sublevel * nodeShift) % childrenPerNode)

/-- `sivfs_checkpoint_iter_init`: the offsets of levels 6 to 1. -/
def checkpointIterInit (fileIno fileOffset : ℕ) : Except Errno (List ℕ) := do
  let fileOffsetPg := fileOffset / pageSize
  let inos ← [6, 5, 4].mapM fun level =>
    iterOffset fileIno (level - foffsetLevels) (inoLevels - 1)
  let pgs ← [3, 2, 1].mapM fun level =>
    iterOffset fileOffsetPg (level - 1) (foffsetLevels - 2)
  return inos ++ pgs

/-- The offsets of levels 6 to 1, without the checks. -/
def pathOf (fileIno fileOffset : ℕ) : List ℕ :=
  let pg := fileOffset / pageSize
  [fileIno / 2 ^ 18 % 512, fileIno / 2 ^ 9 % 512, fileIno % 512,
    pg / 2 ^ 18 % 512, pg / 2 ^ 9 % 512, pg % 512]

/-- The pages a checkpoint has room for. -/
def InRange (fileIno fileOffset : ℕ) : Prop := fileIno < 2 ^ 27 ∧ fileOffset < 2 ^ 39

instance (fileIno fileOffset : ℕ) : Decidable (InRange fileIno fileOffset) :=
  inferInstanceAs (Decidable (_ ∧ _))

theorem checkpointIterInit_eq (fileIno fileOffset : ℕ) :
    checkpointIterInit fileIno fileOffset =
      if InRange fileIno fileOffset then .ok (pathOf fileIno fileOffset) else .error .einval := by
  have hino : 512 ≤ fileIno / 262144 ↔ ¬fileIno < 134217728 := by omega
  have hpg : 512 ≤ fileOffset / 4096 / 262144 ↔ ¬fileOffset < 549755813888 := by omega
  simp only [checkpointIterInit, iterOffset, List.mapM_cons, List.mapM_nil, foffsetLevels,
    inoLevels,
    nodeShift, childrenPerNode, pageSize, InRange, pathOf]
  by_cases h₁ : fileIno < 134217728 <;> by_cases h₂ : fileOffset < 549755813888 <;>
    simp [h₁, h₂, hino, hpg, bind, Except.bind, pure, Except.pure]

/-- Different pages have different paths. -/
theorem pathOf_injective {ino ino' off off' : ℕ} (h : InRange ino off) (h' : InRange ino' off')
    (heq : pathOf ino off = pathOf ino' off') :
    ino = ino' ∧ off / pageSize = off' / pageSize := by
  obtain ⟨h₁, h₂⟩ := h
  obtain ⟨h₁', h₂'⟩ := h'
  simp only [pathOf, List.cons.injEq, and_true] at heq
  obtain ⟨h₃, h₄, h₅, h₆, h₇, h₈⟩ := heq
  simp only [pageSize] at h₆ h₇ h₈ ⊢
  omega

theorem pathOf_congr (ino : ℕ) {off off' : ℕ} (h : off / pageSize = off' / pageSize) :
    pathOf ino off = pathOf ino off' := by
  simp only [pathOf, h]

@[simp] theorem length_pathOf (ino off : ℕ) : (pathOf ino off).length = 6 := rfl

/-! ### Pages -/

/-- A physical address: of the zero page of a level, or of another page. -/
inductive Ref where
  | zero (level : ℕ)
  | page (id : ℕ)
  deriving DecidableEq

/-- What is in a page. -/
inductive PageMem where
  | leaf (words : ℕ → ℕ)
  | table (ents : ℕ → Option Ref)

/-- The words of a leaf. -/
def PageMem.words : PageMem → ℕ → ℕ
  | .leaf words => words
  | .table _ => fun _ => 0

/-- The entries of a table. -/
def PageMem.ents : PageMem → ℕ → Option Ref
  | .leaf _ => fun _ => none
  | .table ents => ents

/-- `sivfs_mk_zero_checkpoint_page`. -/
def mkZeroCheckpointPage : ℕ → PageMem
  | 0 => .leaf fun _ => 0
  | level + 1 => .table fun _ => if level + 1 ≤ foffsetLevels then some (.zero level) else none

/-- A page and its `struct sivfs_checkpoint_pginfo`. -/
structure Page where
  checkpointTs : ℕ
  obsoletedTs : Ts
  level : ℕ
  mem : PageMem

/-- The pages `0 .. next - 1` that were handed out. -/
structure Heap where
  next : ℕ
  page : ℕ → Page

namespace Heap

variable (h : Heap)

/-- `page_address`. -/
def mem : Ref → PageMem
  | .zero level => mkZeroCheckpointPage level
  | .page id => (h.page id).mem

/-- `old_pg_checkpoint_ts` of `sivfs_apply_change_checkpoint`. -/
def checkpointTs : Ref → ℕ
  | .zero _ => 0
  | .page id => (h.page id).checkpointTs

/-- The level of a page. -/
def level : Ref → ℕ
  | .zero level => level
  | .page id => (h.page id).level

/-- The entries of a page. -/
def child (r : Ref) (offset : ℕ) : Option Ref := (h.mem r).ents offset

/-- `f` is done to page `id`. -/
def modify (id : ℕ) (f : Page → Page) : Heap :=
  { h with page := Function.update h.page id (f (h.page id)) }

/-- A new page with contents `mem`. -/
def alloc (checkpointTs level : ℕ) (mem : PageMem) : Heap where
  next := h.next + 1
  page := Function.update h.page h.next ⟨checkpointTs, invalidTs, level, mem⟩

/-- The words of a page. -/
def words (r : Ref) : ℕ → ℕ := (h.mem r).words

/-- The words at the end of a path; zeros if there is no page. -/
def contents (root : Option Ref) (offsets : List ℕ) : ℕ → ℕ :=
  match follow h.child root offsets with
  | some r => h.words r
  | none => fun _ => 0

end Heap

/-- `sivfs_read_checkpoint`, through `sivfs_checkpoint_traverse`. -/
def readCheckpoint (h : Heap) (root : Option Ref) (fileIno fileOffset : ℕ) :
    Except Errno (ℕ → ℕ) :=
  if fileOffset % pageSize ≠ 0 then .error .einval
  else (checkpointIterInit fileIno fileOffset).map fun offsets => h.contents root offsets

/-! ### Applying a change -/

/-- Which of the allocations of an attempt fail, by the number of pages handed
out before. -/
structure Faults where
  /-- `sivfs_new_checkpoint_page`. -/
  page : ℕ → Bool
  /-- `sivfs_stack_push`. -/
  push : ℕ → Bool

/-- A checkpoint that is being built: the pages, `cp_root` and
`obsoleted_pages`. -/
structure Build where
  heap : Heap
  root : Option Ref
  obsoletedPages : List ℕ

/-- What `root_ptr` points to. -/
inductive Slot where
  | root
  | ent (table : Ref) (offset : ℕ)
  deriving DecidableEq

/-- `*root_ptr`. -/
def Build.get (b : Build) : Slot → Option Ref
  | .root => b.root
  | .ent table offset => b.heap.child table offset

/-- An entry of a table is written. -/
def Page.setEnt (offset : ℕ) (r : Ref) (pg : Page) : Page :=
  { pg with mem := .table (Function.update pg.mem.ents offset (some r)) }

/-- `*root_ptr = new_pa`.  Zero pages are never written to. -/
def Build.put (b : Build) (slot : Slot) (r : Ref) : Build :=
  match slot with
  | .root => { b with root := some r }
  | .ent (.page id) offset => { b with heap := b.heap.modify id (.setEnt offset r) }
  | .ent (.zero _) _ => b

/-- The word of `ent` is written to a leaf. -/
def Page.setWord (ent : WsEntry) (pg : Page) : Page :=
  { pg with mem := .leaf (applyWsEntPg pg.mem.words ent) }

/-- `sivfs_apply_ws_ent_pg` on page `r`. -/
def Build.applyWsEnt (b : Build) (r : Ref) (ent : WsEntry) : Build :=
  match r with
  | .page id => { b with heap := b.heap.modify id (.setWord ent) }
  | .zero _ => b

/-- `sivfs_new_checkpoint_page`, and what the page is filled with. -/
def Build.newPage (b : Build) (faults : Faults) (ts level : ℕ) (mem : PageMem) :
    Except Errno Build :=
  if faults.page b.heap.next then .error .enomem
  else .ok { b with heap := b.heap.alloc ts level mem }

/-- `obsoleted_ts` is set. -/
def Page.obsolete (ts : ℕ) (pg : Page) : Page := { pg with obsoletedTs := (ts : Ts) }

/-- `old_pginfo->obsoleted_ts = checkpoint_ts`. -/
def Build.stamp (b : Build) (id ts : ℕ) : Build :=
  { b with heap := b.heap.modify id (.obsolete ts) }

/-- The page at `slot` for a change at level `level`: the page that is there if
this checkpoint has made it, else a copy of it, else a new page.  A copy whose
original cannot be put on `obsoleted_pages` is given back. -/
def Build.cowPage (b : Build) (faults : Faults) (ts level : ℕ) (slot : Slot) :
    Build × Except Errno Ref :=
  match b.get slot with
  | some old =>
    if b.heap.checkpointTs old = ts then (b, .ok old)
    else
      match b.newPage faults ts level (b.heap.mem old) with
      | .error e => (b, .error e)
      | .ok b' =>
        match old with
        | .zero _ => (b', .ok (.page b.heap.next))
        | .page id =>
          if faults.push b.heap.next then (b.stamp id ts, .error .enomem)
          else
            let b' := b'.stamp id ts
            ({ b' with obsoletedPages := id :: b'.obsoletedPages }, .ok (.page b.heap.next))
  | none =>
    match b.newPage faults ts level (mkZeroCheckpointPage level) with
    | .error e => (b, .error e)
    | .ok b' => (b', .ok (.page b.heap.next))

/-- The loop of `sivfs_apply_change_checkpoint`; the level is the number of
offsets that are left. -/
def applyLoop (faults : Faults) (ts : ℕ) (ent : WsEntry) :
    List ℕ → Build → Slot → Build × Except Errno Unit
  | [], b, slot =>
    match b.cowPage faults ts 0 slot with
    | (b, .error e) => (b, .error e)
    | (b, .ok r) => ((b.applyWsEnt r ent).put slot r, .ok ())
  | offset :: offsets, b, slot =>
    match b.cowPage faults ts (offsets.length + 1) slot with
    | (b, .error e) => (b, .error e)
    | (b, .ok r) => applyLoop faults ts ent offsets (b.put slot r) (.ent r offset)

/-- `sivfs_apply_change_checkpoint`. -/
def applyChangeCheckpoint (faults : Faults) (ts : ℕ) (b : Build) (ent : WsEntry) :
    Build × Except Errno Unit :=
  match checkpointIterInit ent.ino ent.fileOffset with
  | .error e => (b, .error e)
  | .ok offsets => applyLoop faults ts ent offsets b .root

end Checkpoint
end Sivfs
