/-
# Freeing a big block

`sivfs_malloc_ws` writes the size of a big block to its first and to its last word and the
tag to the last but one.  `sivfs_free_ws` clears the first word and the tag, and then the word
at `footer_ptr + sizeof(uint64_t)`.  `footer_ptr` counts words, so this is the sixth word
behind the block and not its last one.
-/

import Sivfs.Slab.Bins

namespace Sivfs
namespace Slab

open Call

/-- From `s` to `s'` the three words of the big block of `size` bytes at `block` are cleared,
no other word changes, and what is written lies in the block. -/
structure ClearsBlock (s s' : Heap) (block size : ℕ) : Prop where
  header : s'.mem block = 0
  footerTag : s'.mem (block + size - blockFooterSize) = 0
  footerSize : s'.mem (block + size - blockFooterSize + 8) = 0
  others : ∀ a, a ≠ block → a ≠ block + size - blockFooterSize →
    a ≠ block + size - blockFooterSize + 8 → s'.mem a = s.mem a
  writes : ∃ ws, s'.writeset = s.writeset ++ ws ∧
    ∀ w ∈ ws, block ≤ w.1 ∧ w.1 + wordBytes ≤ block + size

/-- From `s` to `s'` the header and the size in the footer of a big block stay. -/
structure SameBlock (s s' : Heap) (block size : ℕ) : Prop where
  header : s'.mem block = s.mem block
  footerSize : s'.mem (block + size - blockFooterSize + 8) =
    s.mem (block + size - blockFooterSize + 8)

/-! ### What malloc writes -/

theorem le_bigRequest (size : ℕ) : regionStructSize + blockFooterSize ≤ bigRequest size :=
  le_max_right _ _

/-- What `sivfs_malloc_ws` writes to a big block. -/
theorem wp_bigBlock {args : Alloc.AllocatorArgs} {tag size : ℕ} {s : Heap} :
    (bigBlock (.ok args) tag size).wp
      (fun r s' => r = ⟨args.allocRet, args.allocSize - blockFooterSize⟩ ∧
        bigRequest size ≤ args.allocSize ∧
        s'.mem args.allocRet = args.allocSize ||| bigAllocationFlag ∧
        s'.mem (args.allocRet + args.allocSize - blockFooterSize + 8) = args.allocSize)
      (fun _ _ => True) s := by
  simp only [bigBlock, sivfsAllocBlock, wp_bind, wp_require, wp_pure, wp_writeWs, imp_true_iff,
    and_true, true_and]
  intro hflags hsize _ _ _ _ _ _ _ _ _ _
  have hreq := le_bigRequest size
  rw [regionStructSize, blockFooterSize] at hreq
  refine ⟨hsize, ?_, ?_⟩
  · simp only [write_mem, Function.update_apply, blockFooterSize]
    split_ifs <;> omega
  · simp only [write_mem, Function.update_apply, blockFooterSize]
    split_ifs <;> omega

/-- Without a bin there is no slot. -/
theorem wp_getFreeListSlot_none {b : Bins} {size : ℕ}
    (hbin : b.getBin (slabEltSize size) = .ok none)
    {alloc : Option (Except Errno Alloc.AllocatorArgs)} {zone tag : ℕ} {s : Heap} :
    (getFreeListSlot b alloc zone tag size).wp
      (fun r s' => r = (none, slabEltSize size) ∧ s' = s) (fun _ _ => True) s := by
  simp only [getFreeListSlot, wp_bind, wp_require, wp_get, imp_true_iff, and_true]
  intro _ _
  cases getMmapState s.mmapStates zone tag with
  | none => trivial
  | some m => simp [hbin]

theorem wp_mallocWs_big {b : Bins} {args : Alloc.AllocatorArgs} {zone tag size : ℕ} {s : Heap}
    (hbin : b.getBin (slabEltSize (roundUp size wordBytes)) = .ok none) :
    (mallocWs b (.ok args) zone tag size).wp
      (fun p s' => p = args.allocRet + regionHeaderSize ∧
        regionStructSize + blockFooterSize ≤ args.allocSize ∧
        s'.mem args.allocRet = args.allocSize ||| bigAllocationFlag ∧
        s'.mem (args.allocRet + args.allocSize - blockFooterSize + 8) = args.allocSize)
      (fun _ _ => True) s := by
  rw [mallocWs, allocateWithin]
  simp only [wp_bind]
  refine wp_mono (wp_getFreeListSlot_none hbin) ?_ fun _ _ h => h
  rintro _ s' ⟨rfl, rfl⟩
  refine wp_mono wp_bigBlock ?_ fun _ _ h => h
  rintro _ s' ⟨rfl, hreq, hheader, hfooter⟩
  exact ⟨rfl, (le_bigRequest _).trans hreq, hheader, hfooter⟩

/-! ### What free writes -/

theorem keeps_mem {a v address value : ℕ} (h : a ≠ address) :
    Keeps (fun s => s.mem a = v) (writeWs address value) :=
  keeps_writeWs (fun _ _ _ h => h) fun s hs => by
    rw [store_mem, Function.update_of_ne h, hs]

/-- Freeing a big block writes three words and no others. -/
theorem keeps_freeBig {a v region size : ℕ} (hheader : a ≠ region)
    (htag : a ≠ region + size - blockFooterSize)
    (hstray : a ≠ region + size - blockFooterSize + wordBytes * 8)
    (answer : Except Errno Unit) : Keeps (fun s => s.mem a = v) (freeBig answer region size) := by
  cases answer with
  | error e => exact keeps_fail _
  | ok u =>
    exact keeps_bind (keeps_mem hheader) fun _ => keeps_bind (keeps_mem htag) fun _ =>
      keeps_mem hstray

theorem or_and_bigAllocationFlag (n : ℕ) :
    (n ||| bigAllocationFlag) &&& bigAllocationFlag = bigAllocationFlag := by
  rw [Nat.and_or_distrib_right, Nat.and_self]
  refine Nat.eq_of_testBit_eq fun i => ?_
  rw [Nat.testBit_or, Nat.testBit_and]
  cases n.testBit i <;> simp

theorem regionSize_or_bigAllocationFlag (n : ℕ) :
    regionSize (n ||| bigAllocationFlag) = n % 2 ^ 46 := by
  rw [regionSize, if_pos (by rw [or_and_bigAllocationFlag]; decide),
    and_complement_allocationFlags, Nat.or_mod_two_pow,
    show bigAllocationFlag % 2 ^ 46 = 0 by decide, Nat.or_zero]

/-- The size in the footer of a big block is still there after it was freed. -/
theorem freeWs_footerSize {b : Bins} {block size : ℕ} {s : Heap}
    (hsize : regionStructSize + blockFooterSize ≤ size)
    (hheader : s.mem block = size ||| bigAllocationFlag) (answer : Except Errno Unit) :
    ((freeWs b answer (block + regionHeaderSize)).after s).mem
      (block + size - blockFooterSize + 8) = s.mem (block + size - blockFooterSize + 8) := by
  have hregion : regionOf (block + regionHeaderSize) = block := by
    rw [regionOf]
    omega
  have hbig : freeRegion b answer block (size ||| bigAllocationFlag) =
      freeBig answer block (size % 2 ^ 46) := by
    rw [freeRegion, or_and_bigAllocationFlag, regionSize_or_bigAllocationFlag,
      if_pos (by decide)]
  have hkeep : Keeps (fun s' => s'.mem (block + size - blockFooterSize + 8) =
      s.mem (block + size - blockFooterSize + 8)) (freeBig answer block (size % 2 ^ 46)) := by
    rw [regionStructSize, blockFooterSize] at hsize
    rw [blockFooterSize]
    exact keeps_freeBig (by omega) (by rw [blockFooterSize]; omega)
      (by rw [blockFooterSize, wordBytes]; omega) answer
  refine (wp_after (I := fun s' : Heap => s'.mem (block + size - blockFooterSize + 8) = _)).1 ?_
  rw [freeWs]
  simp only [wp_bind, wp_get, wp_require, hregion, hheader, hbig]
  exact ⟨fun _ => keeps_iff.1 hkeep s rfl, fun _ => trivial⟩

/-- **Freeing a big block never clears it.**  Whatever the block size, and whatever happened
to the other blocks in between, the size in its footer stays, and the kernel and the write
set make no difference. -/
theorem free_not_clearsBlock {b : Bins} {args : Alloc.AllocatorArgs} {zone tag size p : ℕ}
    {s s₁ s₂ : Heap} (hbin : b.getBin (slabEltSize (roundUp size wordBytes)) = .ok none)
    (h : mallocWs b (.ok args) zone tag size s = (.ok p, s₁))
    (hsame : SameBlock s₁ s₂ args.allocRet args.allocSize) (answer : Except Errno Unit) :
    ¬ClearsBlock s₂ ((freeWs b answer p).after s₂) args.allocRet args.allocSize := by
  obtain ⟨rfl, hsize, hheader, hfooter⟩ := (wp_iff.1 (wp_mallocWs_big hbin)).1 _ _ h
  intro hclear
  have hkept := freeWs_footerSize (b := b) hsize (hsame.header.trans hheader) answer
  rw [hclear.footerSize, hsame.footerSize, hfooter] at hkept
  rw [regionStructSize, blockFooterSize] at hsize
  omega

/-! ### Two neighbours -/

/-- A thread with a mapping of 256 pages and nothing in it. -/
def emptyHeap : Heap where
  mem _ := 0
  freeLists _ := 0
  mmapStates := [⟨0x10000, 0, 0x100000⟩]
  restorePtrs := []
  restoreValues := []
  writeset := []
  room := 1000
  nAllocs := 0
  nFrees := 0

/-- The kernel grants `size` bytes at `block`. -/
def grant (block size : ℕ) : Alloc.AllocatorArgs where
  zone := 0x10000
  blockAlloc := size
  mmapStart := 0x10000
  mmapSize := 0x100000
  allocRet := block
  allocSize := size

/-- A big block at `0x10000`. -/
def oneBlock : Heap :=
  (mallocWs exactBins (.ok (grant 0x10000 16408)) 0x10000 0 16384).after emptyHeap

/-- A second one behind it, whose sixth word the program sets. -/
def twoBlocks : Heap :=
  ((mallocWs exactBins (.ok (grant 0x14018 16408)) 0x10000 0 16384).after oneBlock).store 0x14048 7

/-- `free_not_clearsBlock` for the first of the two. -/
theorem free_not_clearsBlock_neighbour :
    ¬ClearsBlock twoBlocks ((freeWs exactBins (.ok ()) 0x10008).after twoBlocks) 0x10000 16408 := by
  have hbin : exactBins.getBin (slabEltSize (roundUp 16384 wordBytes)) = .ok none := by
    decide +kernel
  have hret : (mallocWs exactBins (.ok (grant 0x10000 16408)) 0x10000 0 16384 emptyHeap).1 =
      .ok 0x10008 := by decide +kernel
  have hcall : mallocWs exactBins (.ok (grant 0x10000 16408)) 0x10000 0 16384 emptyHeap =
      (.ok 0x10008, oneBlock) := Prod.ext hret rfl
  have hsame : SameBlock oneBlock twoBlocks 0x10000 16408 := ⟨by decide +kernel, by decide +kernel⟩
  exact free_not_clearsBlock hbin hcall hsame (.ok ())

/-- Freeing the first block clears a word of the program in the second. -/
theorem not_clearsBlock_stray : ∃ s', freeWs exactBins (.ok ()) 0x10008 twoBlocks = (.ok (), s') ∧
    twoBlocks.mem 0x14048 = 7 ∧ s'.mem 0x14048 = 0 ∧ ¬ClearsBlock twoBlocks s' 0x10000 16408 := by
  have hret : (freeWs exactBins (.ok ()) 0x10008 twoBlocks).1 = .ok () := by decide +kernel
  have hbefore : twoBlocks.mem 0x14048 = 7 := by decide +kernel
  have hafter : ((freeWs exactBins (.ok ()) 0x10008).after twoBlocks).mem 0x14048 = 0 := by
    decide +kernel
  refine ⟨_, Prod.ext hret rfl, hbefore, hafter, fun h => ?_⟩
  have hsame := h.others 0x14048 (by decide) (by decide) (by decide)
  rw [hbefore] at hsame
  exact absurd (hafter.symm.trans hsame) (by decide)

end Slab
end Sivfs
