/-
# Header words of the userspace allocator

`lib/sivfs_allocator.h`: the word `allocated_size` of a `struct sivfs_allocated_region`
packs the size of the region, its index in the slab and the flags.

| bits | source |
| --- | --- |
| 63 | `SIVFS_BIG_ALLOCATION_FLAG` |
| 62 | `SIVFS_LIST_HEAD_FLAG` |
| 46 to 61 | `SIVFS_FREED_MAGIC` |
| 30 to 45 | the index in the slab |
| 0 to 29 | the size of a region of a slab |

The size of a big block is in the bits below the flags.  `pack` builds the word of a region
of a slab, and the functions that take it apart are computed on it.
-/

import Sivfs.Basic
import Mathlib.Data.Nat.Bitwise

namespace Sivfs
namespace Slab

/-- `SIVFS_BIG_ALLOCATION_FLAG`. -/
def bigAllocationFlag : ℕ := 1 <<< 63

/-- `SIVFS_LIST_HEAD_FLAG`. -/
def listHeadFlag : ℕ := 1 <<< 62

/-- `SIVFS_FREED_MAGIC`. -/
def freedMagic : ℕ := 0xdead <<< 46

/-- `SIVFS_FREED_MAGIC_MASK`. -/
def freedMagicMask : ℕ := 0xffff <<< 46

/-- `SIVFS_ALLOCATION_FLAGS`. -/
def allocationFlags : ℕ := bigAllocationFlag ||| listHeadFlag ||| freedMagicMask

/-- `SIVFS_SLAB_INDEX_SHIFT`. -/
def slabIndexShift : ℕ := 30

/-- `SIVFS_SLAB_INDEX_MASK`. -/
def slabIndexMask : ℕ := 0xffff <<< 30

/-- `SIVFS_MAX_SLAB_ELTS`. -/
def maxSlabElts : ℕ := (1 <<< 16) - 1

/-- `SIVFS_ALLOCATOR_SLABSIZE`. -/
def slabsize : ℕ := 4096 * 4

/-- `SIVFS_ALLOC_REGION_HEADER_SIZE`. -/
def regionHeaderSize : ℕ := 8

/-- `sizeof(struct sivfs_allocated_region)`. -/
def regionStructSize : ℕ := 24

/-- `SIVFS_BLOCK_HEADER_SIZE`. -/
def blockHeaderSize : ℕ := 8

/-- `SIVFS_BLOCK_FOOTER_SIZE`. -/
def blockFooterSize : ℕ := 16

/-- `~w` of a 64-bit word. -/
def complement (w : ℕ) : ℕ := u64Size - 1 - w

/-- `a + b` in `size_t`. -/
def addSize (a b : ℕ) : ℕ := (a + b) % u64Size

/-- `a - b` in `size_t`. -/
def subSize (a b : ℕ) : ℕ := (a + (u64Size - b % u64Size)) % u64Size

/-- `DIV_ROUND(x, len)`. -/
def divRound (x len : ℕ) : ℕ := subSize (addSize x len) 1 / len

/-- `ROUND_UP(x, align)`. -/
def roundUp (x align : ℕ) : ℕ := divRound x align * align % u64Size

/-- `sivfs_allocated_region_size` of a header word. -/
def regionSize (w : ℕ) : ℕ :=
  if w &&& bigAllocationFlag ≠ 0 then w &&& complement allocationFlags
  else w &&& complement allocationFlags &&& complement slabIndexMask

/-- `sivfs_allocated_region_flags` of a header word. -/
def regionFlags (w : ℕ) : ℕ := w &&& allocationFlags

/-- `sivfs_allocated_region_slab_index` of a header word. -/
def regionSlabIndex (w : ℕ) : ℕ := (w &&& slabIndexMask) >>> slabIndexShift

/-- The test for a free region. -/
def isFreed (w : ℕ) : Prop := w &&& freedMagicMask = freedMagic

instance (w : ℕ) : Decidable (isFreed w) := inferInstanceAs (Decidable (_ = _))

/-- The header word of a region of a slab, its flags counted from bit 46. -/
def pack (size index flags : ℕ) : ℕ := size + index * 2 ^ 30 + flags * 2 ^ 46

/-- The flags of a free region. -/
def freeFlags (head : Bool) : ℕ := if head then 0xdead + 2 ^ 16 else 0xdead

/-! ### Taking words apart -/

/-- A field of a word. -/
theorem and_field (w n k : ℕ) : w &&& (2 ^ n - 1) <<< k = w / 2 ^ k % 2 ^ n * 2 ^ k := by
  rw [← Nat.and_two_pow_sub_one_eq_mod, ← Nat.shiftRight_eq_div_pow, ← Nat.shiftLeft_eq]
  refine Nat.eq_of_testBit_eq fun i => ?_
  rw [Nat.testBit_and, Nat.testBit_shiftLeft, Nat.testBit_shiftLeft, Nat.testBit_and,
    Nat.testBit_shiftRight]
  by_cases hi : k ≤ i
  · simp [hi]
  · simp [hi]

/-- Fields that do not meet. -/
theorem or_field {a b k : ℕ} (ha : a < 2 ^ k) : a ||| b * 2 ^ k = a + b * 2 ^ k := by
  have h := Nat.two_pow_add_eq_or_of_lt ha b
  rw [Nat.or_comm, Nat.mul_comm b, ← h, Nat.add_comm]

/-- The flag of big blocks is the top bit. -/
theorem and_bigAllocationFlag (w : ℕ) : w &&& bigAllocationFlag = w / 2 ^ 63 % 2 * 2 ^ 63 :=
  and_field w 1 63

/-- The mark of a freed region is in 16 bits from bit 46 on. -/
theorem and_freedMagicMask (w : ℕ) : w &&& freedMagicMask = w / 2 ^ 46 % 2 ^ 16 * 2 ^ 46 :=
  and_field w 16 46

/-- The index of a region is in 16 bits from bit 30 on. -/
theorem and_slabIndexMask (w : ℕ) : w &&& slabIndexMask = w / 2 ^ 30 % 2 ^ 16 * 2 ^ 30 :=
  and_field w 16 30

/-- All flags together. -/
theorem and_allocationFlags (w : ℕ) : w &&& allocationFlags = w / 2 ^ 46 % 2 ^ 18 * 2 ^ 46 :=
  and_field w 18 46

/-- And what is left without them. -/
theorem and_complement_allocationFlags (w : ℕ) :
    w &&& complement allocationFlags = w % 2 ^ 46 := Nat.and_two_pow_sub_one_eq_mod w 46

/-- The index, as arithmetic. -/
theorem regionSlabIndex_eq (w : ℕ) : regionSlabIndex w = w / 2 ^ 30 % 2 ^ 16 := by
  rw [regionSlabIndex, and_slabIndexMask, slabIndexShift, Nat.shiftRight_eq_div_pow,
    Nat.mul_div_cancel _ (by decide)]

/-- The mark, as arithmetic. -/
theorem isFreed_iff (w : ℕ) : isFreed w ↔ w / 2 ^ 46 % 2 ^ 16 = 0xdead := by
  rw [isFreed, and_freedMagicMask, show freedMagic = 0xdead * 2 ^ 46 from rfl]
  exact Nat.mul_left_inj (by decide)

/-- The size of a region that is in a slab. -/
theorem regionSize_of_lt {w : ℕ} (hw : w < 2 ^ 63) : regionSize w = w % 2 ^ 30 := by
  have hflag : w &&& bigAllocationFlag = 0 := by
    rw [and_bigAllocationFlag]
    omega
  have hlow : complement allocationFlags &&& complement slabIndexMask = 2 ^ 30 - 1 := by decide
  rw [regionSize, if_neg (by simpa using hflag), Nat.and_assoc, hlow,
    Nat.and_two_pow_sub_one_eq_mod]

/-! ### The words of regions -/

theorem freeFlags_lt (head : Bool) : freeFlags head < 2 ^ 17 := by
  cases head <;> decide

/-- A region that is freed has the mark, whether it heads its list or not. -/
theorem freeFlags_mod (head : Bool) : freeFlags head % 2 ^ 16 = 0xdead := by
  cases head <;> decide

section pack

variable {size index flags : ℕ} (hsize : size < 2 ^ 30) (hindex : index < 2 ^ 16)

include hsize hindex

/-- The index is read back from a header that is put together. -/
theorem regionSlabIndex_pack : regionSlabIndex (pack size index flags) = index := by
  rw [regionSlabIndex_eq, pack]
  omega

/-- The same in its place. -/
theorem pack_and_slabIndexMask : pack size index flags &&& slabIndexMask = index * 2 ^ 30 := by
  rw [and_slabIndexMask, pack]
  omega

/-- So is the mark. -/
theorem pack_and_freedMagicMask :
    pack size index flags &&& freedMagicMask = flags % 2 ^ 16 * 2 ^ 46 := by
  rw [and_freedMagicMask, pack]
  omega

/-- A header says freed if its flags do. -/
theorem isFreed_pack : isFreed (pack size index flags) ↔ flags % 2 ^ 16 = 0xdead := by
  rw [isFreed_iff, pack]
  omega

/-- Without its flags a header has the size and the index. -/
theorem pack_and_complement : pack size index flags &&& complement allocationFlags =
    size + index * 2 ^ 30 := by
  rw [and_complement_allocationFlags, pack]
  omega

/-- A word put together from its fields. -/
theorem pack_eq_or : size ||| index * 2 ^ 30 ||| flags * 2 ^ 46 = pack size index flags := by
  rw [or_field hsize, or_field (by omega), pack]

variable (hflags : flags < 2 ^ 17)

include hflags

/-- A header that is put together is not one of a big block. -/
theorem pack_lt : pack size index flags < 2 ^ 63 := by
  rw [pack]
  omega

/-- The size is read back. -/
theorem regionSize_pack : regionSize (pack size index flags) = size := by
  rw [regionSize_of_lt (pack_lt hsize hindex hflags), pack]
  omega

/-- The top bit is clear. -/
theorem pack_and_bigAllocationFlag : pack size index flags &&& bigAllocationFlag = 0 := by
  have := pack_lt hsize hindex hflags
  rw [and_bigAllocationFlag]
  omega

/-- The flags are read back. -/
theorem regionFlags_pack : regionFlags (pack size index flags) = flags * 2 ^ 46 := by
  rw [regionFlags, and_allocationFlags, pack]
  omega

end pack

/-! ### The words that are written -/

theorem subSize_of_le {a b : ℕ} (h : b ≤ a) (ha : a < 2 ^ 64) : subSize a b = a - b := by
  rw [subSize, u64Size]
  omega

/-- The region that a slab is made with. -/
theorem word_created {size : ℕ} (hsize : size < 2 ^ 30) :
    size ||| freedMagic ||| listHeadFlag = pack size 0 (freeFlags true) := by
  rw [Nat.or_assoc, show freedMagic ||| listHeadFlag = freeFlags true * 2 ^ 46 by decide,
    or_field (by omega), pack]
  omega

section words

variable {size size' index : ℕ} (hsize : size < 2 ^ 30) (hsize' : size' < 2 ^ 30)
  (hindex : index < 2 ^ 16)

include hsize hindex

/-- The region that is split off. -/
theorem word_split_next :
    size ||| freedMagic ||| index <<< slabIndexShift = pack size index (freeFlags false) := by
  rw [Nat.or_assoc, Nat.or_comm freedMagic, ← Nat.or_assoc, slabIndexShift, Nat.shiftLeft_eq,
    show freedMagic = freeFlags false * 2 ^ 46 by decide, pack_eq_or hsize hindex]

/-- A region that was in use is freed. -/
theorem word_freed (flags : ℕ) :
    pack size index 0 &&& complement allocationFlags ||| flags * 2 ^ 46 =
      pack size index flags := by
  rw [pack_and_complement hsize hindex, or_field (by omega), pack]

include hsize'

/-- A region that is split keeps its index and its flags. -/
theorem word_split {flags : ℕ} (hflags : flags < 2 ^ 17) :
    size ||| regionFlags (pack size' index flags) ||| pack size' index flags &&& slabIndexMask =
      pack size index flags := by
  rw [regionFlags_pack hsize' hindex hflags, pack_and_slabIndexMask hsize' hindex, Nat.or_assoc,
    Nat.or_comm (flags * 2 ^ 46), ← Nat.or_assoc, pack_eq_or hsize hindex]

/-- A region that is taken keeps its index. -/
theorem word_taken (flags : ℕ) :
    size ||| pack size' index flags &&& slabIndexMask = pack size index 0 := by
  rw [pack_and_slabIndexMask hsize' hindex, or_field hsize, pack]
  omega

end words

end Slab
end Sivfs
