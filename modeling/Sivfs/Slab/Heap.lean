/-
# The state of the userspace allocator

`lib/sivfs_allocator.h`: the memory of the mapped files as words, the free lists of the bins
and the undo stacks of the free lists.

| source | here |
| --- | --- |
| `struct sivfs_allocator_mmap_state` | `MmapState`, and `Heap.freeLists` for its bins |
| `struct sivfs_allocator_state` | `Heap` |
| `sivfs_write_ws`, `sivfs_write_wsp` | `writeWs` |
| `sivfs_alloc_lh_add_ws`, `_remove_ws` | `lhAddWs`, `lhRemoveWs` |
| `sivfs_set_free_list` | `setFreeList` |
| `sivfs_lib_allocation_on_commit` | `allocationOnCommit` |
| `sivfs_allocated_region_set_flags` | `setRegionFlags` |
| `sivfs_alloc_region_to_block_head`, `sivfs_block_tag` | `blockHead`, `blockTag` |

A pointer is its address, `0` for `NULL`, and points into an object, so that pointer
arithmetic does not wrap.  A slot, the address of a bin of an mmap state, is the number of
the state in `mmap_states` and the number of the bin.  An append to the write set or to an
undo stack fails when there is no memory for it: `Heap.room` says how many more succeed.
-/

import Sivfs.Alloc.Mapping
import Sivfs.Lib.Call
import Sivfs.Slab.Words

namespace Sivfs
namespace Slab

open Call

/-- `struct sivfs_allocator_mmap_state` without its bins. -/
structure MmapState where
  start : ℕ
  tag : ℕ
  size : ℕ
  deriving DecidableEq, Repr

/-- The address of a bin: `struct sivfs_allocator_lh **`. -/
structure Slot where
  mmap : ℕ
  bin : ℕ
  deriving DecidableEq, Repr

/-- The state of one thread. -/
structure Heap where
  /-- The word at an address. -/
  mem : ℕ → ℕ
  /-- `free_list` of every bin. -/
  freeLists : Slot → ℕ
  mmapStates : List MmapState
  /-- `restore_old_free_list_ptrs`, the last entry at the end. -/
  restorePtrs : List Slot
  /-- `restore_old_free_list_values`. -/
  restoreValues : List ℕ
  /-- The entries of the write set, address and value. -/
  writeset : List (ℕ × ℕ)
  /-- The appends that still find memory. -/
  room : ℕ
  nAllocs : ℕ
  nFrees : ℕ

/-- How a call ends that does not succeed. -/
inductive Failure where
  /-- A check or the kernel refused it. -/
  | errno (e : Errno)
  /-- The write set or a stack did not take an entry. -/
  | fatal (e : Errno)
  /-- `assert(0)` and `exit(1)`. -/
  | exit
  /-- The loop does not end within the iterations allowed. -/
  | diverges
  deriving DecidableEq, Repr

/-- `*address = value`. -/
def Heap.store (s : Heap) (address value : ℕ) : Heap :=
  { s with mem := Function.update s.mem address value }

/-- Memory for one more entry. -/
def spend : Call Heap Failure Unit := do
  let s ← get
  require (s.room ≠ 0) (.fatal .enomem)
  modify fun s => { s with room := s.room - 1 }

/-- `sivfs_write_ws`: the word is stored before it is appended to the write set. -/
def writeWs (address value : ℕ) : Call Heap Failure Unit := do
  require (address % wordBytes = 0) (.fatal .einval)
  modify fun s => s.store address value
  spend
  modify fun s => { s with writeset := s.writeset ++ [(address, value)] }

/-- The state after a successful `sivfs_write_ws`. -/
def Heap.write (s : Heap) (address value : ℕ) : Heap :=
  { s.store address value with
    room := s.room - 1
    writeset := s.writeset ++ [(address, value)] }

@[simp] theorem store_mem (s : Heap) (address value : ℕ) :
    (s.store address value).mem = Function.update s.mem address value := rfl

@[simp] theorem store_freeLists (s : Heap) (address value : ℕ) :
    (s.store address value).freeLists = s.freeLists := rfl

@[simp] theorem store_mmapStates (s : Heap) (address value : ℕ) :
    (s.store address value).mmapStates = s.mmapStates := rfl

@[simp] theorem write_mem (s : Heap) (address value : ℕ) :
    (s.write address value).mem = Function.update s.mem address value := rfl

@[simp] theorem write_room (s : Heap) (address value : ℕ) :
    (s.write address value).room = s.room - 1 := rfl

@[simp] theorem write_freeLists (s : Heap) (address value : ℕ) :
    (s.write address value).freeLists = s.freeLists := rfl

@[simp] theorem write_mmapStates (s : Heap) (address value : ℕ) :
    (s.write address value).mmapStates = s.mmapStates := rfl

/-- **`sivfs_write_ws`.**  A write that fails for want of memory is in memory already. -/
theorem wp_writeWs {address value : ℕ} {Q : Unit → Heap → Prop} {E : Failure → Heap → Prop}
    {s : Heap} : (writeWs address value).wp Q E s ↔
      (address % wordBytes = 0 → (s.room ≠ 0 → Q () (s.write address value)) ∧
        (s.room = 0 → E (.fatal .enomem) (s.store address value))) ∧
      (address % wordBytes ≠ 0 → E (.fatal .einval) s) := by
  simp only [writeWs, spend, wp_bind, wp_require, wp_modify, wp_get, not_not]
  rfl

/-- A write with memory for its entry. -/
theorem wp_writeWs_ok {address value : ℕ} {Q : Unit → Heap → Prop} {E : Failure → Heap → Prop}
    {s : Heap} (haddr : address % wordBytes = 0) (hroom : s.room ≠ 0) :
    (writeWs address value).wp Q E s ↔ Q () (s.write address value) := by
  simp [wp_writeWs, haddr, hroom]

/-- A property of the state that a store keeps and that does not look at the write set. -/
theorem keeps_writeWs {I : Heap → Prop}
    (hcongr : ∀ s room writeset, I s → I { s with room := room, writeset := writeset })
    {address value : ℕ} (hstore : ∀ s, I s → I (s.store address value)) :
    Keeps I (writeWs address value) := by
  rw [keeps_iff]
  intro s hs
  rw [wp_writeWs]
  exact ⟨fun _ => ⟨fun _ => hcongr _ _ _ (hstore s hs), fun _ => hstore s hs⟩, fun _ => hs⟩

/-! ### Lists -/

/-- `lh->next`. -/
def lhNext (mem : ℕ → ℕ) (lh : ℕ) : ℕ := mem (lh + 8)

/-- `lh->prev`. -/
def lhPrev (mem : ℕ → ℕ) (lh : ℕ) : ℕ := mem lh

/-- `sivfs_alloc_lh_add_ws`. -/
def lhAddWs (list lh : ℕ) : Call Heap Failure Unit := do
  let s ← get
  let target := lhNext s.mem list
  let targetPrev := lhPrev s.mem target
  writeWs (lh + 8) target
  writeWs lh targetPrev
  writeWs (targetPrev + 8) lh
  writeWs target lh

/-- `sivfs_alloc_lh_remove_ws`. -/
def lhRemoveWs (lh : ℕ) : Call Heap Failure Unit := do
  let s ← get
  let prev := lhPrev s.mem lh
  let next := lhNext s.mem lh
  require (lh ≠ prev ∧ lh ≠ next) (.errno .einval)
  require (prev ≠ 0 ∧ next ≠ 0) (.errno .einval)
  writeWs lh 0
  writeWs (lh + 8) 0
  writeWs (prev + 8) next
  writeWs next prev

/-! ### Regions and blocks -/

/-- `sivfs_alloc_ret_to_region`, `sivfs_allocator_lh_to_allocated_region`: the region whose
header is before an address. -/
def regionOf (ptr : ℕ) : ℕ := ptr - regionHeaderSize

/-- `sivfs_allocated_region_set_flags`. -/
def setRegionFlags (region flags : ℕ) : Call Heap Failure Unit := do
  require (flags &&& complement allocationFlags = 0) (.errno .einval)
  let s ← get
  writeWs region (s.mem region &&& complement allocationFlags ||| flags)

/-- The size word in the footer of a block. -/
def footerSize (mem : ℕ → ℕ) (block size : ℕ) : ℕ := mem (block + size - blockFooterSize + 8)

/-- `sivfs_alloc_region_to_block_head`, `none` for `NULL`. -/
def blockHead (mem : ℕ → ℕ) (region : ℕ) : Option ℕ :=
  if mem region &&& bigAllocationFlag ≠ 0 then some region
  else
    let first := region - regionSlabIndex (mem region) * regionSize (mem region)
    if regionSlabIndex (mem first) ≠ 0 then none
    else
      let slabHead := first - blockHeaderSize
      let size := mem slabHead
      if size = 0 then none
      else if footerSize mem slabHead size ≠ size then none else some slabHead

/-- `sivfs_block_tag`, `none` for a failed assertion. -/
def blockTag (mem : ℕ → ℕ) (block : ℕ) : Option ℕ :=
  let size := mem block &&& complement bigAllocationFlag
  if size = 0 then none
  else if footerSize mem block size ≠ size then none
  else some (mem (block + size - blockFooterSize))

/-! ### Free lists and their undo stacks -/

/-- `sivfs_set_free_list`. -/
def setFreeList (slot : Slot) (list : ℕ) : Call Heap Failure Unit := do
  let s ← get
  let oldList := s.freeLists slot
  spend
  modify fun s => { s with restorePtrs := s.restorePtrs ++ [slot] }
  spend.onError fun s => { s with restorePtrs := s.restorePtrs.dropLast }
  modify fun s => { s with restoreValues := s.restoreValues ++ [oldList] }
  modify fun s => { s with freeLists := Function.update s.freeLists slot list }

/-- The state after a successful `sivfs_set_free_list`. -/
def Heap.setList (s : Heap) (slot : Slot) (list : ℕ) : Heap :=
  { s with
    freeLists := Function.update s.freeLists slot list
    restorePtrs := s.restorePtrs ++ [slot]
    restoreValues := s.restoreValues ++ [s.freeLists slot]
    room := s.room - 1 - 1 }

@[simp] theorem setList_mem (s : Heap) (slot : Slot) (list : ℕ) :
    (s.setList slot list).mem = s.mem := rfl

@[simp] theorem setList_freeLists (s : Heap) (slot : Slot) (list : ℕ) :
    (s.setList slot list).freeLists = Function.update s.freeLists slot list := rfl

@[simp] theorem setList_mmapStates (s : Heap) (slot : Slot) (list : ℕ) :
    (s.setList slot list).mmapStates = s.mmapStates := rfl

/-- **`sivfs_set_free_list`.**  A push that fails takes the other one back. -/
theorem wp_setFreeList {slot : Slot} {list : ℕ} {Q : Unit → Heap → Prop}
    {E : Failure → Heap → Prop} {s : Heap} : (setFreeList slot list).wp Q E s ↔
      (2 ≤ s.room → Q () (s.setList slot list)) ∧
        (s.room < 2 → E (.fatal .enomem) { s with room := 0 }) := by
  have hpop : (s.restorePtrs ++ [slot]).dropLast = s.restorePtrs := List.dropLast_concat
  simp only [setFreeList, spend, wp_bind, wp_get, wp_require, wp_modify, wp_onError, hpop, not_not]
  rcases hroom : s.room with _ | _ | n
  · have hs : { s with room := 0 } = s := by rw [← hroom]
    simp [hs]
  · simp
  · simp [Heap.setList, hroom]

/-- The loop of `sivfs_lib_allocation_on_commit` over the last `n` indices to go. -/
def restoreLoop (ptrs : List Slot) (values : List ℕ) : ℕ → (Slot → ℕ) → Slot → ℕ
  | 0, f => f
  | i + 1, f =>
    match ptrs[i]?, values[i]? with
    | some slot, some value => restoreLoop ptrs values i (Function.update f slot value)
    | _, _ => restoreLoop ptrs values i f

/-- `sivfs_lib_allocation_on_commit`. -/
def allocationOnCommit (aborted : Bool) (s : Heap) : Heap :=
  { s with
    freeLists := if aborted then
        restoreLoop s.restorePtrs s.restoreValues s.restorePtrs.length s.freeLists
      else s.freeLists
    restorePtrs := []
    restoreValues := [] }

/-- `sivfs_get_allocator_mmap_state`: the number of the state. -/
def getMmapState (ms : List MmapState) (zone tag : ℕ) : Option ℕ :=
  ms.findIdx? fun m => decide (m.start ≤ zone ∧ zone < m.start + m.size ∧ m.tag = tag)

/-- `sivfs_alloc_block`, given what the kernel answers. -/
def sivfsAllocBlock (answer : Except Errno Alloc.AllocatorArgs) :
    Call Heap Failure Alloc.AllocatorArgs :=
  match answer with
  | .error e => fail (.errno e)
  | .ok a => pure a

end Slab
end Sivfs
