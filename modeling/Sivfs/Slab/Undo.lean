/-
# Aborting restores the free lists

`sivfs_set_free_list` records the slot it changes and the value the slot had, on two
stacks; `sivfs_lib_allocation_on_commit` replays them backwards when the transaction
aborted.  The invariant is `Undone`: replaying the stacks gives the free lists as they were
at the last hook.  It holds between any two statements of a call but those of
`sivfs_set_free_list`, so a call keeps it wherever it fails.
-/

import Sivfs.Slab.Malloc

namespace Sivfs
namespace Slab

open Call

/-- A call to the allocator or a store of the program. -/
inductive Op where
  | malloc (zone tag size : ℕ) (answer : Except Errno Alloc.AllocatorArgs) (room : ℕ)
  | free (ptr : ℕ) (answer : Except Errno Unit) (room : ℕ)
  | store (address value : ℕ)

/-- What a call leaves, whether it fails or not.  Each call finds memory for `room` entries. -/
def Op.run (b : Bins) : Op → Heap → Heap
  | .malloc zone tag size answer room, s =>
    (mallocWs b answer zone tag size).after { s with room := room }
  | .free ptr answer room, s => (freeWs b answer ptr).after { s with room := room }
  | .store address value, s => s.store address value

/-- The calls of a transaction. -/
def runOps (b : Bins) (ops : List Op) (s : Heap) : Heap := ops.foldl (fun s op => op.run b s) s

/-- The kernel gives a thread the memory that it had at the start of its transaction. -/
def kernelAbort (start s : Heap) : Heap := { s with mem := start.mem }

/-! ### Replaying the stacks -/

/-- The loop over the first `n` entries does not look at what was pushed later. -/
theorem restoreLoop_append {ptrs : List Slot} {values : List ℕ} {slot : Slot} {value n : ℕ}
    (hlen : ptrs.length = values.length) (hn : n ≤ ptrs.length) (f : Slot → ℕ) :
    restoreLoop (ptrs ++ [slot]) (values ++ [value]) n f = restoreLoop ptrs values n f := by
  induction n generalizing f with
  | zero => rfl
  | succ n ih =>
    simp only [restoreLoop, List.getElem?_append_left (show n < ptrs.length by omega),
      List.getElem?_append_left (show n < values.length by omega), ih (by omega)]

/-- An entry takes back the assignment that it was pushed for. -/
theorem restoreLoop_push {ptrs : List Slot} {values : List ℕ} (hlen : ptrs.length = values.length)
    (f : Slot → ℕ) (slot : Slot) (list : ℕ) :
    restoreLoop (ptrs ++ [slot]) (values ++ [f slot]) (ptrs ++ [slot]).length
      (Function.update f slot list) = restoreLoop ptrs values ptrs.length f := by
  have hptr : (ptrs ++ [slot])[ptrs.length]? = some slot := by simp
  have hvalue : (values ++ [f slot])[ptrs.length]? = some (f slot) := by simp [hlen]
  rw [List.length_append, List.length_singleton, restoreLoop, hptr, hvalue]
  simp only [Function.update_idem, Function.update_eq_self]
  exact restoreLoop_append hlen le_rfl f

/-! ### The invariant -/

/-- Replaying the stacks gives the free lists `lists`. -/
structure Undone (lists : Slot → ℕ) (ms : List MmapState) (s : Heap) : Prop where
  length : s.restorePtrs.length = s.restoreValues.length
  replay : restoreLoop s.restorePtrs s.restoreValues s.restorePtrs.length s.freeLists = lists
  mmaps : s.mmapStates = ms

variable {lists : Slot → ℕ} {ms : List MmapState}

/-- Memory, the write set and the counters do not matter. -/
theorem Undone.congr {s s' : Heap} (h : Undone lists ms s) (hptrs : s'.restorePtrs = s.restorePtrs)
    (hvalues : s'.restoreValues = s.restoreValues) (hlists : s'.freeLists = s.freeLists)
    (hmmaps : s'.mmapStates = s.mmapStates) : Undone lists ms s' :=
  ⟨by rw [hptrs, hvalues, h.length], by rw [hptrs, hvalues, hlists, h.replay],
    by rw [hmmaps, h.mmaps]⟩

/-- A write to the write-set changes memory only. -/
theorem undone_writeWs (address value : ℕ) : Keeps (Undone lists ms) (writeWs address value) :=
  keeps_writeWs (fun _ _ _ h => h.congr rfl rfl rfl rfl) fun _ h => h.congr rfl rfl rfl rfl

/-- The assignment and its two entries come together or not at all. -/
theorem undone_setFreeList (slot : Slot) (list : ℕ) :
    Keeps (Undone lists ms) (setFreeList slot list) := by
  rw [keeps_iff]
  intro s h
  rw [wp_setFreeList]
  refine ⟨fun _ => ⟨?_, ?_, h.mmaps⟩, fun _ => h.congr rfl rfl rfl rfl⟩
  · simp [Heap.setList, h.length]
  · exact (restoreLoop_push h.length s.freeLists slot list).trans h.replay

/-- The lists of regions are words of memory, which the kernel takes back. -/
theorem undone_lhAddWs (list lh : ℕ) : Keeps (Undone lists ms) (lhAddWs list lh) :=
  keeps_bind keeps_get fun _ => keeps_bind (undone_writeWs _ _) fun _ =>
    keeps_bind (undone_writeWs _ _) fun _ => keeps_bind (undone_writeWs _ _) fun _ =>
      undone_writeWs _ _

/-- The same for taking a region off its list. -/
theorem undone_lhRemoveWs (lh : ℕ) : Keeps (Undone lists ms) (lhRemoveWs lh) :=
  keeps_bind keeps_get fun _ => keeps_bind (keeps_require _ _) fun _ =>
    keeps_bind (keeps_require _ _) fun _ => keeps_bind (undone_writeWs _ _) fun _ =>
      keeps_bind (undone_writeWs _ _) fun _ => keeps_bind (undone_writeWs _ _) fun _ =>
        undone_writeWs _ _

/-- The flags of a region are a word of memory, too. -/
theorem undone_setRegionFlags (region flags : ℕ) :
    Keeps (Undone lists ms) (setRegionFlags region flags) :=
  keeps_bind (keeps_require _ _) fun _ => keeps_bind keeps_get fun _ => undone_writeWs _ _

/-- The kernel keeps its own account of the blocks it grants. -/
theorem undone_sivfsAllocBlock (answer : Except Errno Alloc.AllocatorArgs) :
    Keeps (Undone lists ms) (sivfsAllocBlock answer) := by
  cases answer with
  | error e => exact keeps_fail _
  | ok a => exact keeps_pure _

/-! ### Malloc and free -/

theorem undone_createSlab (answer : Except Errno Alloc.AllocatorArgs) (state : MmapState)
    (slot : Slot) (tag elt : ℕ) :
    Keeps (Undone lists ms) (createSlab answer state slot tag elt) := by
  refine keeps_bind (keeps_require _ _) fun _ => keeps_bind (keeps_require _ _) fun _ =>
    keeps_bind (undone_sivfsAllocBlock _) fun _ => keeps_bind (keeps_require _ _) fun _ =>
    keeps_bind (keeps_require _ _) fun _ => keeps_bind (keeps_require _ _) fun _ =>
    keeps_bind (keeps_require _ _) fun _ => ?_
  exact keeps_bind (undone_writeWs _ _) fun _ => keeps_bind (undone_writeWs _ _) fun _ =>
    keeps_bind (undone_writeWs _ _) fun _ => keeps_bind (undone_writeWs _ _) fun _ =>
    keeps_bind (undone_writeWs _ _) fun _ => keeps_bind (undone_writeWs _ _) fun _ =>
    undone_setFreeList _ _

/-- A slab is fetched from the kernel and put on its free list; the call may end between any two
of its statements. -/
theorem undone_refill (alloc : Option (Except Errno Alloc.AllocatorArgs)) (slot : Slot)
    (tag elt : ℕ) : Keeps (Undone lists ms) (refill alloc slot tag elt) := by
  refine keeps_bind keeps_get fun s => ?_
  split
  · exact keeps_ite (undone_createSlab _ _ _ _ _) (keeps_pure _)
  · exact keeps_pure _

/-- A lookup of the slot, with the slab that it may have to fetch. -/
theorem undone_getFreeListSlot (b : Bins) (alloc : Option (Except Errno Alloc.AllocatorArgs))
    (zone tag size : ℕ) : Keeps (Undone lists ms) (getFreeListSlot b alloc zone tag size) := by
  refine keeps_bind (keeps_require _ _) fun _ => keeps_bind (keeps_require _ _) fun _ =>
    keeps_bind keeps_get fun s => ?_
  split
  · exact keeps_fail _
  · split
    · exact keeps_fail _
    · exact keeps_pure _
    · exact keeps_bind (undone_refill _ _ _ _) fun _ => keeps_pure _

/-- A block of the kernel's for a big object. -/
theorem undone_bigBlock (answer : Except Errno Alloc.AllocatorArgs) (tag size : ℕ) :
    Keeps (Undone lists ms) (bigBlock answer tag size) := by
  refine keeps_bind (keeps_require _ _) fun _ => keeps_bind (undone_sivfsAllocBlock _) fun _ =>
    keeps_bind (keeps_require _ _) fun _ => ?_
  exact keeps_bind (undone_writeWs _ _) fun _ => keeps_bind (undone_writeWs _ _) fun _ =>
    keeps_bind (undone_writeWs _ _) fun _ => keeps_bind (undone_writeWs _ _) fun _ =>
    keeps_bind (undone_writeWs _ _) fun _ => keeps_pure _

/-- A region is split in memory. -/
theorem undone_splitRegion (elt head region size : ℕ) :
    Keeps (Undone lists ms) (splitRegion elt head region size) :=
  keeps_bind keeps_get fun _ => keeps_bind (keeps_require _ _) fun _ =>
    keeps_bind (undone_writeWs _ _) fun _ => keeps_bind (undone_writeWs _ _) fun _ =>
      undone_lhAddWs _ _

/-- A region is taken off its list, and the head moves if it was the first. -/
theorem undone_unlinkRegion (slot : Slot) (head iter : ℕ) :
    Keeps (Undone lists ms) (unlinkRegion slot head iter) :=
  keeps_ite (keeps_bind keeps_get fun _ => keeps_bind (keeps_require _ _) fun _ =>
    undone_setFreeList _ _) (undone_lhRemoveWs _)

/-- The two ways to take a region: split, or whole. -/
theorem undone_takeRegion (elt : ℕ) (slot : Slot) (head iter size : ℕ) :
    Keeps (Undone lists ms) (takeRegion elt slot head iter size) :=
  keeps_bind (keeps_require _ _) fun _ => keeps_bind keeps_get fun _ =>
    keeps_bind (undone_writeWs _ _) fun _ => keeps_bind (undone_unlinkRegion _ _ _) fun _ =>
      keeps_pure _

/-- By induction on the iterations: every one ends the loop or starts it again. -/
theorem undone_allocFrom (elt : ℕ) (slot : Slot) (head n : ℕ) (within : Option Allocation) :
    Keeps (Undone lists ms) (allocFrom elt slot head n within) := by
  induction n generalizing within with
  | zero => exact keeps_fail _
  | succ n ih =>
    unfold allocFrom
    refine keeps_bind keeps_get fun s => keeps_ite ?_ ?_
    · cases within with
      | none => exact keeps_fail _
      | some r => exact keeps_pure r
    · refine keeps_bind (keeps_require _ _) fun _ => keeps_ite ?_ (undone_takeRegion _ _ _ _ _)
      exact keeps_bind (undone_splitRegion _ _ _ _) fun _ =>
        keeps_ite (ih _) (undone_takeRegion _ _ _ _ _)

/-- The walk along the free list. -/
theorem undone_slabRegion (elt : ℕ) (slot : Slot) :
    Keeps (Undone lists ms) (slabRegion elt slot) :=
  keeps_bind keeps_get fun _ => keeps_bind (keeps_require _ _) fun _ =>
    keeps_bind (keeps_require _ _) fun _ => undone_allocFrom _ _ _ _ _

/-- **`sivfs_malloc_ws`** keeps the stacks in step with the free lists, however it ends. -/
theorem undone_mallocWs (b : Bins) (answer : Except Errno Alloc.AllocatorArgs)
    (zone tag size : ℕ) : Keeps (Undone lists ms) (mallocWs b answer zone tag size) := by
  refine keeps_bind ?_ fun _ => keeps_bind
    (keeps_modify fun _ h => h.congr rfl rfl rfl rfl) fun _ => keeps_pure _
  refine keeps_bind (undone_getFreeListSlot _ _ _ _ _) fun r => ?_
  rcases r with ⟨_ | slot, elt⟩
  · exact undone_bigBlock _ _ _
  · exact undone_slabRegion _ _

/-- A big object is given back to the kernel. -/
theorem undone_freeBig (answer : Except Errno Unit) (region size : ℕ) :
    Keeps (Undone lists ms) (freeBig answer region size) := by
  cases answer with
  | error e => exact keeps_fail _
  | ok u =>
    exact keeps_bind (undone_writeWs _ _) fun _ => keeps_bind (undone_writeWs _ _) fun _ =>
      undone_writeWs _ _

/-- A region is put at the head of its list. -/
theorem undone_pushRegion (slot : Slot) (list region : ℕ) :
    Keeps (Undone lists ms) (pushRegion slot list region) :=
  keeps_ite
    (keeps_bind (undone_writeWs _ _) fun _ => keeps_bind (undone_writeWs _ _) fun _ =>
      keeps_bind (undone_setFreeList _ _) fun _ => undone_setRegionFlags _ _)
    (keeps_bind (undone_lhAddWs _ _) fun _ => undone_setRegionFlags _ _)

/-- A small object goes to the free list of its slab. -/
theorem undone_freeSlab (b : Bins) (region size : ℕ) :
    Keeps (Undone lists ms) (freeSlab b region size) := by
  refine keeps_bind (keeps_require _ _) fun _ => keeps_bind (keeps_require _ _) fun _ =>
    keeps_bind keeps_get fun s => ?_
  split
  · exact keeps_fail _
  · refine keeps_bind (undone_getFreeListSlot _ _ _ _ _) fun r => ?_
    rcases r with ⟨_ | slot, elt⟩
    · exact keeps_fail _
    · exact undone_pushRegion _ _ _

/-- **`sivfs_free_ws`** keeps the stacks in step with the free lists, however it ends. -/
theorem undone_freeWs (b : Bins) (answer : Except Errno Unit) (ptr : ℕ) :
    Keeps (Undone lists ms) (freeWs b answer ptr) :=
  keeps_bind keeps_get fun _ => keeps_bind (keeps_require _ _) fun _ =>
    keeps_bind (keeps_ite (undone_freeBig _ _ _) (undone_freeSlab _ _ _)) fun _ =>
      keeps_modify fun _ h => h.congr rfl rfl rfl rfl

/-! ### Transactions -/

theorem Undone.op (b : Bins) {s : Heap} (h : Undone lists ms s) (op : Op) :
    Undone lists ms (op.run b s) := by
  cases op with
  | malloc zone tag size answer room =>
    have h' : Undone lists ms { s with room := room } := h.congr rfl rfl rfl rfl
    exact undone_mallocWs b answer zone tag size _ h'
  | free ptr answer room =>
    have h' : Undone lists ms { s with room := room } := h.congr rfl rfl rfl rfl
    exact undone_freeWs b answer ptr _ h'
  | store address value => exact h.congr rfl rfl rfl rfl

/-- By induction on the calls. -/
theorem Undone.ops (b : Bins) {s : Heap} (h : Undone lists ms s) (ops : List Op) :
    Undone lists ms (runOps b ops s) := by
  induction ops generalizing s with
  | nil => exact h
  | cons op ops ih => exact ih (h.op b op)

/-- Behind the hook the stacks are empty, and the free lists are the ones to come back to. -/
theorem undone_allocationOnCommit (aborted : Bool) (s : Heap) :
    Undone (allocationOnCommit aborted s).freeLists s.mmapStates (allocationOnCommit aborted s) :=
  ⟨rfl, rfl, rfl⟩

/-- **Aborting a transaction restores the heap.**  Whatever is called between two hooks and
wherever the calls fail, a hook that says that the transaction aborted sets every free list
back to its value after the hook before and empties both stacks; with the memory that the
kernel restores this is the heap at the start of the transaction.  After a hook that says
that it committed, the start is the heap that was committed. -/
theorem abort_restores_heap (b : Bins) (s : Heap) (aborted : Bool) (ops : List Op) :
    let start := allocationOnCommit aborted s
    let stop := allocationOnCommit true (kernelAbort start (runOps b ops start))
    stop.mem = start.mem ∧ stop.freeLists = start.freeLists ∧
      stop.mmapStates = start.mmapStates ∧ stop.restorePtrs = [] ∧ stop.restoreValues = [] ∧
      (aborted = false → stop.mem = s.mem ∧ stop.freeLists = s.freeLists) := by
  have h := (undone_allocationOnCommit aborted s).ops b ops
  refine ⟨rfl, h.replay, h.mmaps, rfl, rfl, ?_⟩
  rintro rfl
  exact ⟨rfl, h.replay⟩

end Slab
end Sivfs
