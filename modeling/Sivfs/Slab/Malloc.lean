/-
# Malloc and free of the userspace allocator

`lib/sivfs_allocator.h` and `lib/sivfs_allocator_bins.h`.

| source | here |
| --- | --- |
| `sivfs_allocator_bins_get_bin` | `Bins.getBin` |
| `sivfs_get_free_list_slot` | `getFreeListSlot` and `createSlab` |
| `sivfs_malloc_ws` | `mallocWs`, its two paths `bigBlock` and `slabRegion` |
| `sivfs_free_ws` | `freeWs`, `freeBig` and `freeSlab` |

The two floating point expressions of the bins, `floor(log(words) / log(1.15))` and
`floor(exp((i + 1) * log(1.15)))`, are the parameter `Bins`.  The answers of the ioctls are
arguments of the calls.  `sivfs_malloc_ws` returns `NULL` where `mallocWs` fails.
-/

import Sivfs.Slab.Heap

namespace Sivfs
namespace Slab

open Call

/-! ### Bins -/

/-- `SIVFS_ALLOCATOR_NBINS`. -/
def nbins : ℕ := 51

/-- The floating point part of the bins. -/
structure Bins where
  /-- `floor(log(words) / log(1.15))`. -/
  index : ℕ → ℕ
  /-- `sivfs_allocator_bin_maxsize`. -/
  maxsize : ℕ → ℕ

/-- `sivfs_allocator_bins_get_bin`: the bin and its size, `none` for no bin. -/
def Bins.getBin (b : Bins) (size : ℕ) : Except Errno (Option (ℕ × ℕ)) :=
  if size % wordBytes ≠ 0 then .error .einval
  else
    let binindex := b.index (size / wordBytes)
    if nbins ≤ binindex then .ok none
    else if b.maxsize binindex < size then .error .einval
    else .ok (some (binindex, b.maxsize binindex))

/-! ### Slabs -/

/-- `slab_elt_size` of a request before it is rounded up to its bin. -/
def slabEltSize (size : ℕ) : ℕ := max (addSize size regionHeaderSize) regionStructSize

/-- `slab_elts_size`. -/
def slabEltsSize (elt : ℕ) : ℕ := roundUp (slabsize - (blockHeaderSize + blockFooterSize)) elt

/-- `block_alloc` of a slab. -/
def slabRequest (elt : ℕ) : ℕ := addSize (blockHeaderSize + blockFooterSize) (slabEltsSize elt)

/-- The part of `sivfs_get_free_list_slot` that makes a slab for an empty bin. -/
def createSlab (answer : Except Errno Alloc.AllocatorArgs) (state : MmapState) (slot : Slot)
    (tag elt : ℕ) : Call Heap Failure Unit := do
  require (slabEltsSize elt / elt ≤ maxSlabElts) (.errno .einval)
  require (slabRequest elt &&& (allocationFlags ||| slabIndexMask) = 0) (.errno .einval)
  let args ← sivfsAllocBlock answer
  require (args.mmapStart = state.start) (.errno .einval)
  require (args.mmapSize = state.size) (.errno .einval)
  require (slabRequest elt ≠ 0) (.errno .einval)
  require (slabRequest elt ≤ args.allocSize) (.errno .einval)
  let block := args.allocRet
  let footer := block + args.allocSize - blockFooterSize
  let freeRegion := block + blockHeaderSize
  writeWs block args.allocSize
  writeWs footer tag
  writeWs (footer + 8) args.allocSize
  writeWs freeRegion (subSize (subSize args.allocSize blockFooterSize) blockHeaderSize |||
    freedMagic ||| listHeadFlag)
  writeWs (freeRegion + 16) (freeRegion + 8)
  writeWs (freeRegion + 8) (freeRegion + 8)
  setFreeList slot (freeRegion + 8)

/-- An empty bin is given a slab if `SIVFS_ALLOC` is set: then the kernel's answer is there. -/
def refill (alloc : Option (Except Errno Alloc.AllocatorArgs)) (slot : Slot) (tag elt : ℕ) :
    Call Heap Failure Unit := do
  let s ← get
  match alloc, s.mmapStates[slot.mmap]? with
  | some answer, some state =>
    if s.freeLists slot = 0 then createSlab answer state slot tag elt else pure ()
  | _, _ => pure ()

/-- A bin that is not empty is left alone. -/
theorem wp_refill_of_ne {alloc : Option (Except Errno Alloc.AllocatorArgs)} {slot : Slot}
    {tag elt : ℕ} {Q : Unit → Heap → Prop} {E : Failure → Heap → Prop} {s : Heap}
    (hlist : s.freeLists slot ≠ 0) : (refill alloc slot tag elt).wp Q E s ↔ Q () s := by
  rw [refill]
  simp only [wp_bind, wp_get, if_neg hlist]
  split <;> rfl

/-- `sivfs_get_free_list_slot`: the slot, `none` for a big block, and the size of the regions
on its list. -/
def getFreeListSlot (b : Bins) (alloc : Option (Except Errno Alloc.AllocatorArgs))
    (zone tag size : ℕ) : Call Heap Failure (Option Slot × ℕ) := do
  require (size ≠ 0) (.errno .einval)
  require (size % wordBytes = 0) (.errno .einval)
  let s ← get
  match getMmapState s.mmapStates zone tag with
  | none => fail (.errno .einval)
  | some m =>
    match b.getBin (slabEltSize size) with
    | .error e => fail (.errno e)
    | .ok none => pure (none, slabEltSize size)
    | .ok (some (bin, binsize)) =>
      refill alloc ⟨m, bin⟩ tag binsize
      pure (some ⟨m, bin⟩, binsize)

/-! ### Malloc -/

/-- The region that a request is served from, and its bytes up to the next region or to the
footer of the block. -/
structure Allocation where
  region : ℕ
  size : ℕ
  deriving DecidableEq, Repr

/-- `block_size` of a big block. -/
def bigRequest (size : ℕ) : ℕ :=
  max (addSize (addSize size blockHeaderSize) blockFooterSize)
    (regionStructSize + blockFooterSize)

/-- The path of `sivfs_malloc_ws` for sizes without a bin. -/
def bigBlock (answer : Except Errno Alloc.AllocatorArgs) (tag size : ℕ) :
    Call Heap Failure Allocation := do
  require (bigRequest size &&& allocationFlags = 0) (.errno .einval)
  let args ← sivfsAllocBlock answer
  require (bigRequest size ≤ args.allocSize) (.errno .einval)
  let region := args.allocRet
  let footer := region + args.allocSize - blockFooterSize
  writeWs region (args.allocSize ||| bigAllocationFlag)
  writeWs footer tag
  writeWs (footer + 8) args.allocSize
  writeWs (region + 16) (region + 8)
  writeWs (region + 8) (region + 8)
  pure ⟨region, args.allocSize - blockFooterSize⟩

/-- The region at `region`, of a size, is split behind `elt` bytes. -/
def splitRegion (elt head region size : ℕ) : Call Heap Failure Unit := do
  let s ← get
  let splitNext := region + elt
  let splitSlabIndex := regionSlabIndex (s.mem region) + 1
  require (splitSlabIndex ≤ maxSlabElts) (.errno .einval)
  writeWs region (elt ||| regionFlags (s.mem region) ||| s.mem region &&& slabIndexMask)
  writeWs splitNext (subSize size elt ||| freedMagic ||| splitSlabIndex <<< slabIndexShift)
  lhAddWs head (splitNext + 8)

/-- A region is taken off its list.  The head is the last one. -/
def unlinkRegion (slot : Slot) (head iter : ℕ) : Call Heap Failure Unit :=
  if iter = head then do
    let s ← get
    require (lhNext s.mem head = head) (.errno .einval)
    setFreeList slot 0
  else lhRemoveWs iter

/-- The region is marked as allocated and taken off the list. -/
def takeRegion (elt : ℕ) (slot : Slot) (head iter size : ℕ) : Call Heap Failure Allocation := do
  require (elt ≤ size) (.errno .einval)
  let s ← get
  let region := regionOf iter
  let size := if elt < size then elt else size
  writeWs region (size ||| s.mem region &&& slabIndexMask)
  unlinkRegion slot head iter
  pure ⟨region, size⟩

/-- `sivfs_alloc_lh_for_each_incl` over a free list from `split_head` on: the body ends the
loop or starts it again.  `within` is `allocate_within`. -/
def allocFrom (elt : ℕ) (slot : Slot) (head : ℕ) :
    ℕ → Option Allocation → Call Heap Failure Allocation
  | 0, _ => fail .diverges
  | n + 1, within => do
    let s ← get
    let iter := lhNext s.mem head
    if iter = 0 then
      match within with
      | none => fail (.errno .enomem)
      | some r => pure r
    else
      let region := regionOf iter
      require (isFreed (s.mem region)) .exit
      let size := regionSize (s.mem region)
      if elt * 2 % u64Size ≤ size then do
        splitRegion elt head region size
        if iter = head then allocFrom elt slot head n (some ⟨region, elt⟩)
        else takeRegion elt slot head iter elt
      else takeRegion elt slot head iter size

/-- The iterations of the loop that the model follows. -/
def loopBound : ℕ := maxSlabElts + 2

/-- The path of `sivfs_malloc_ws` for sizes with a bin. -/
def slabRegion (elt : ℕ) (slot : Slot) : Call Heap Failure Allocation := do
  let s ← get
  let head := s.freeLists slot
  require (head ≠ 0) (.errno .enomem)
  require (isFreed (s.mem (regionOf head))) .exit
  allocFrom elt slot head loopBound none

/-- `sivfs_malloc_ws` up to the label `out`. -/
def allocateWithin (b : Bins) (answer : Except Errno Alloc.AllocatorArgs) (zone tag size : ℕ) :
    Call Heap Failure Allocation := do
  let size := roundUp size wordBytes
  let r ← getFreeListSlot b (some answer) zone tag size
  match r with
  | (none, _) => bigBlock answer tag size
  | (some slot, elt) => slabRegion elt slot

/-- `sivfs_malloc_ws`. -/
def mallocWs (b : Bins) (answer : Except Errno Alloc.AllocatorArgs) (zone tag size : ℕ) :
    Call Heap Failure ℕ := do
  let r ← allocateWithin b answer zone tag size
  modify fun s => { s with nAllocs := s.nAllocs + 1 }
  pure (r.region + regionHeaderSize)

/-! ### Free -/

/-- The part of `sivfs_free_ws` for big blocks, given what the kernel answers.  The last
write is at `footer_ptr + sizeof(uint64_t)`, which counts words. -/
def freeBig (answer : Except Errno Unit) (region size : ℕ) : Call Heap Failure Unit :=
  match answer with
  | .error e => fail (.errno e)
  | .ok () => do
    let footer := region + size - blockFooterSize
    writeWs region 0
    writeWs footer 0
    writeWs (footer + wordBytes * 8) 0

/-- A region starts the free list of its bin or is added to it, and is marked as free. -/
def pushRegion (slot : Slot) (list region : ℕ) : Call Heap Failure Unit :=
  let lh := region + regionHeaderSize
  if list = 0 then do
    writeWs lh lh
    writeWs (lh + 8) lh
    setFreeList slot lh
    setRegionFlags region (freedMagic ||| listHeadFlag)
  else do
    lhAddWs list lh
    setRegionFlags region freedMagic

/-- The part of `sivfs_free_ws` for regions of slabs. -/
def freeSlab (b : Bins) (region size : ℕ) : Call Heap Failure Unit := do
  require (size ≠ 0) (.errno .einval)
  require (size &&& freedMagicMask = 0) .exit
  let s ← get
  match (blockHead s.mem region).bind (blockTag s.mem) with
  | none => fail .exit
  | some tag =>
    let r ← getFreeListSlot b none region tag (subSize size regionHeaderSize)
    match r with
    | (none, _) => fail (.errno .einval)
    | (some slot, _) => pushRegion slot (s.freeLists slot) region

/-- What `sivfs_free_ws` does with a region that is not free. -/
def freeRegion (b : Bins) (answer : Except Errno Unit) (region w : ℕ) :
    Call Heap Failure Unit :=
  if w &&& bigAllocationFlag ≠ 0 then freeBig answer region (regionSize w)
  else freeSlab b region (regionSize w)

/-- `sivfs_free_ws`. -/
def freeWs (b : Bins) (answer : Except Errno Unit) (ptr : ℕ) : Call Heap Failure Unit := do
  let region := regionOf ptr
  let s ← get
  require (s.mem region &&& freedMagicMask = 0) .exit
  freeRegion b answer region (s.mem region)
  modify fun s => { s with nFrees := s.nFrees + 1 }

end Slab
end Sivfs
