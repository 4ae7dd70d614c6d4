/-
# Malloc never returns less than was asked

`sivfs_malloc_ws` rounds a size up to words and adds the sizes of headers and footers to it,
in `size_t` and before it looks at the result.

| rounded size | what wraps | served as |
| --- | --- | --- |
| `2^64 - 8` | `size + SIVFS_ALLOC_REGION_HEADER_SIZE` is `0` | a region of the bin for 24 bytes |
| `2^64 - 16`, `2^64 - 24` | the size with header and footer is `8`, `0` | a big block of 40 bytes |

A size above `2^64 - 8` is rounded to `0` and refused.
-/

import Sivfs.Slab.BigBlock

namespace Sivfs
namespace Slab

open Call

/-- What is to hold of a request: the bytes from the pointer on lie in the region before the
next one or the footer, and a size that does not go into a header word with a header and a
footer is refused. -/
structure MeetsRequest (b : Bins) (size : ℕ) : Prop where
  fits : ∀ answer zone tag s p s', mallocWs b answer zone tag size s = (.ok p, s') →
    ∃ r s₁, allocateWithin b answer zone tag size s = (.ok r, s₁) ∧
      p = r.region + regionHeaderSize ∧ p + size ≤ r.region + r.size
  large : 2 ^ 46 ≤ size + blockHeaderSize + blockFooterSize →
    ∀ answer zone tag s p s', mallocWs b answer zone tag size s ≠ (.ok p, s')

/-! ### Rounding -/

theorem roundUp_word {size : ℕ} (h : size ≤ 2 ^ 64 - 8) :
    roundUp size wordBytes = (size + 7) / 8 * 8 := by
  rw [roundUp, divRound, subSize, addSize, wordBytes, u64Size]
  omega

/-- The largest sizes wrap to zero. -/
theorem roundUp_wrap {size : ℕ} (h : 2 ^ 64 - 8 < size) (hlt : size < 2 ^ 64) :
    roundUp size wordBytes = 0 := by
  rw [roundUp, divRound, subSize, addSize, wordBytes, u64Size]
  omega

/-! ### The region that is returned -/

theorem returns_takeRegion (elt : ℕ) (slot : Slot) (head iter size : ℕ) :
    Returns (fun r => r.size = elt) (takeRegion elt slot head iter size) := by
  refine returns_bind (returns_require _ _) fun _ hle => returns_seq fun s =>
    returns_seq fun _ => returns_seq fun _ => returns_pure ?_
  show (if elt < size then elt else size) = elt
  split_ifs <;> omega

/-- The loop returns regions of the size of its list, by induction on the iterations. -/
theorem returns_allocFrom {elt : ℕ} {slot : Slot} {head n : ℕ} {within : Option Allocation}
    (hwithin : ∀ r, within = some r → r.size = elt) :
    Returns (fun r => r.size = elt) (allocFrom elt slot head n within) := by
  induction n generalizing within with
  | zero => exact returns_fail
  | succ n ih =>
    refine returns_seq fun s => returns_ite ?_ ?_
    · cases within with
      | none => exact returns_fail
      | some r => exact returns_pure (hwithin r rfl)
    · refine returns_seq fun _ => returns_ite ?_ (returns_takeRegion _ _ _ _ _)
      refine returns_seq fun _ => returns_ite ?_ (returns_takeRegion _ _ _ _ _)
      exact ih fun r hr => by rw [← Option.some.inj hr]

/-- A region of a slab has the size of an element. -/
theorem returns_slabRegion (elt : ℕ) (slot : Slot) :
    Returns (fun r => r.size = elt) (slabRegion elt slot) :=
  returns_seq fun _ => returns_seq fun _ => returns_seq fun _ =>
    returns_allocFrom fun r hr => by simp at hr

/-- A big block has the size that was asked for, up to the footer, which the kernel checks. -/
theorem returns_bigBlock (answer : Except Errno Alloc.AllocatorArgs) (tag size : ℕ) :
    Returns (fun r => bigRequest size &&& allocationFlags = 0 ∧
      bigRequest size ≤ r.size + blockFooterSize) (bigBlock answer tag size) := by
  refine returns_bind (returns_require _ _) fun _ hflags => returns_seq fun args =>
    returns_bind (returns_require _ _) fun _ hle => returns_seq fun _ => returns_seq fun _ =>
      returns_seq fun _ => returns_seq fun _ => returns_seq fun _ => returns_pure ⟨hflags, ?_⟩
  show bigRequest size ≤ args.allocSize - blockFooterSize + blockFooterSize
  omega

/-- There is no slot because there is no bin, or the size is that of the bin. -/
theorem returns_getFreeListSlot (b : Bins) (alloc : Option (Except Errno Alloc.AllocatorArgs))
    (zone tag size : ℕ) :
    Returns (fun r => size ≠ 0 ∧ (r.1 = none ∨ ∃ slot i, r.1 = some slot ∧
      b.getBin (slabEltSize size) = .ok (some (i, r.2))))
        (getFreeListSlot b alloc zone tag size) := by
  refine returns_bind (returns_require _ _) fun _ hne => returns_seq fun _ =>
    returns_seq fun s => ?_
  split
  · exact returns_fail
  · split
    · exact returns_fail
    · exact returns_pure ⟨hne, .inl rfl⟩
    case h_3 m _ bin binsize hbin =>
      exact returns_seq fun _ => returns_pure ⟨hne, .inr ⟨_, bin, rfl, hbin⟩⟩

/-- The region is large enough unless a sum wrapped, and the size goes into a header word. -/
theorem returns_allocateWithin {b : Bins} (hb : b.Documented) {size : ℕ}
    (hsize : size ≤ 2 ^ 64 - 32 ∨ 2 ^ 64 - 8 < size) (hlt : size < 2 ^ 64)
    (answer : Except Errno Alloc.AllocatorArgs) (zone tag : ℕ) :
    Returns (fun r => size + regionHeaderSize ≤ r.size ∧
      size + blockHeaderSize + blockFooterSize < 2 ^ 46)
      (allocateWithin b answer zone tag size) := by
  refine returns_bind (returns_getFreeListSlot _ _ _ _ _) ?_
  rintro ⟨slot, elt⟩ ⟨hne, hbin⟩
  have hle : size ≤ 2 ^ 64 - 32 :=
    hsize.resolve_right fun hwrap => hne (roundUp_wrap hwrap hlt)
  rw [roundUp_word (by omega)] at hbin ⊢
  cases slot with
  | none =>
    intro s r s' h
    obtain ⟨hflags, hbig⟩ := returns_bigBlock answer tag _ s r s' h
    have hreq : (size + 7) / 8 * 8 + 24 ≤ bigRequest ((size + 7) / 8 * 8) := by
      refine le_trans ?_ (le_max_left _ _)
      rw [addSize, addSize, u64Size, blockHeaderSize, blockFooterSize]
      omega
    have hlow : bigRequest ((size + 7) / 8 * 8) < 2 ^ 64 := by
      refine max_lt ?_ (by decide)
      rw [addSize, u64Size]
      exact Nat.mod_lt _ (by decide)
    rw [and_allocationFlags] at hflags
    rw [blockFooterSize] at hbig ⊢
    rw [regionHeaderSize, blockHeaderSize]
    omega
  | some slot =>
    obtain ⟨_, i, -, hbin⟩ := hbin.resolve_left (by simp)
    obtain ⟨-, hi, hlti, he, hle'⟩ := Bins.getBin_eq_some hbin
    have hbound := hb.bound i hlti
    have helt : (size + 7) / 8 * 8 + 8 ≤ elt := by
      refine le_trans ?_ hle'
      refine le_trans ?_ (le_max_left _ _)
      rw [addSize, u64Size, regionHeaderSize]
      omega
    intro s r s' h
    obtain rfl := returns_slabRegion elt slot s r s' h
    rw [regionHeaderSize, blockHeaderSize, blockFooterSize]
    omega

/-- What `sivfs_malloc_ws` returns is behind the header of the region it has found. -/
theorem mallocWs_eq_ok {b : Bins} {answer : Except Errno Alloc.AllocatorArgs}
    {zone tag size p : ℕ} {s s' : Heap} (h : mallocWs b answer zone tag size s = (.ok p, s')) :
    ∃ r s₁, allocateWithin b answer zone tag size s = (.ok r, s₁) ∧
      p = r.region + regionHeaderSize := by
  rw [mallocWs] at h
  obtain ⟨r, s₁, hr, h⟩ := bind_eq_ok.1 h
  obtain ⟨_, s₂, -, h⟩ := bind_eq_ok.1 h
  rw [pure_apply] at h
  exact ⟨r, s₁, hr, (Except.ok.inj (Prod.mk.inj h).1).symm⟩

/-- And it returns that if it has found one. -/
theorem mallocWs_of_ok {b : Bins} {answer : Except Errno Alloc.AllocatorArgs}
    {zone tag size : ℕ} {s s₁ : Heap} {r : Allocation}
    (h : allocateWithin b answer zone tag size s = (.ok r, s₁)) :
    mallocWs b answer zone tag size s =
      (.ok (r.region + regionHeaderSize), { s₁ with nAllocs := s₁.nAllocs + 1 }) := by
  rw [mallocWs]
  exact bind_eq_ok.2 ⟨r, s₁, h, rfl⟩

/-! ### Sums that wrap -/

/-- A thread with one free region of `elt` bytes, on the list of every bin. -/
def oneRegion (elt : ℕ) : Heap :=
  { emptyHeap with
    mem := fun a => if a = 0x10000 then pack elt 0 (freeFlags true) else 0x10008
    freeLists := fun _ => 0x10008 }

/-- A list of one region serves an element of its size. -/
theorem wp_slabRegion_oneRegion {elt : ℕ} (hpos : 0 < elt) (helt : elt < 2 ^ 30) (slot : Slot) :
    (slabRegion elt slot).wp (fun _ _ => True) (fun _ _ => False) (oneRegion elt) := by
  have hfree : isFreed (pack elt 0 (freeFlags true)) :=
    (isFreed_pack helt (by decide)).2 (by decide)
  have hsize : regionSize (pack elt 0 (freeFlags true)) = elt :=
    regionSize_pack helt (by decide) (by decide)
  have hsplit : ¬elt * 2 % u64Size ≤ elt := by
    rw [u64Size]
    omega
  have hmem : (oneRegion elt).mem 0x10000 = pack elt 0 (freeFlags true) := rfl
  have hnext : lhNext (oneRegion elt).mem 0x10008 = 0x10008 := rfl
  have hhead : (oneRegion elt).freeLists slot = 0x10008 := rfl
  have hregion : regionOf 0x10008 = 0x10000 := rfl
  have hroom : (oneRegion elt).room = 1000 := rfl
  rw [slabRegion]
  simp only [wp_bind, wp_get, wp_require, hhead, hregion, hmem]
  refine ⟨fun _ => ⟨fun _ => ?_, fun h => h hfree⟩, fun h => h (by decide)⟩
  rw [show loopBound = maxSlabElts + 1 + 1 from rfl, allocFrom]
  simp only [wp_bind, wp_get, hnext, hregion, hmem, hsize, if_neg hsplit,
    if_neg (show ¬(0x10008 : ℕ) = 0 by decide), wp_require]
  refine ⟨fun _ => ?_, fun h => h hfree⟩
  rw [takeRegion]
  simp only [wp_bind, wp_get, wp_require, wp_writeWs, unlinkRegion, if_true, hregion, hroom]
  refine ⟨fun _ => ⟨fun _ => ⟨fun _ => ⟨fun _ => ?_, fun h => h ?_⟩, by decide⟩, by decide⟩,
    fun h => h le_rfl⟩
  · rw [wp_setFreeList]
    exact ⟨fun _ => trivial, fun h => absurd (show (1000 : ℕ) - 1 < 2 from h) (by decide)⟩
  · rw [lhNext, write_mem, Function.update_of_ne (by decide)]
    exact hnext

/-- With the header added the largest size is `0`, and gets what an empty request would. -/
theorem slab_of_wrap {b : Bins} (hb : b.Documented) {size : ℕ}
    (hsize : roundUp size wordBytes = 2 ^ 64 - 8) : ∃ s r s',
      allocateWithin b (.error .einval) 0x10000 0 size s = (.ok r, s') ∧ r.size < 2 ^ 30 := by
  obtain ⟨hidx, hle⟩ := hb.page 3 (by decide) (by decide)
  have hbound := hb.bound _ hidx
  rw [wordBytes] at hle
  have hbin : b.getBin (slabEltSize (2 ^ 64 - 8)) =
      .ok (some (b.index 3, b.maxsize (b.index 3))) := by
    have helt : slabEltSize (2 ^ 64 - 8) = 24 := by decide +kernel
    have hthree : 24 / wordBytes = 3 := by decide
    rw [helt, Bins.getBin, if_neg (by decide)]
    simp only [hthree]
    rw [if_neg (by omega), if_neg (by omega)]
  have hmap : getMmapState (oneRegion (b.maxsize (b.index 3))).mmapStates 0x10000 0 = some 0 := rfl
  have hlist : (oneRegion (b.maxsize (b.index 3))).freeLists ⟨0, b.index 3⟩ ≠ 0 :=
    show (0x10008 : ℕ) ≠ 0 by decide
  have hwp : (allocateWithin b (.error .einval) 0x10000 0 size).wp
      (fun r _ => r.size < 2 ^ 30) (fun _ _ => False) (oneRegion (b.maxsize (b.index 3))) := by
    rw [allocateWithin, wp_bind, hsize, getFreeListSlot]
    simp only [wp_bind, wp_require, wp_get, hmap, hbin]
    refine ⟨fun _ => ⟨fun _ => ?_, by decide⟩, by decide⟩
    rw [wp_refill_of_ne hlist, wp_pure]
    refine wp_mono ((returns_slabRegion _ _).wp (wp_slabRegion_oneRegion (by omega) hbound _))
      ?_ fun _ _ h => h
    rintro r _ ⟨hr, -⟩
    rwa [hr]
  obtain ⟨r, s', hr, hlt⟩ := exists_of_wp hwp
  exact ⟨_, r, s', hr, hlt⟩

/-- A grant of 40 bytes serves a request for as much. -/
theorem wp_bigBlock_grant (tag : ℕ) {size : ℕ} (hreq : bigRequest size = 40) :
    (bigBlock (.ok (grant 0x10000 40)) tag size).wp (fun r _ => r.size < 2 ^ 30)
      (fun _ _ => False) emptyHeap := by
  have hroom : emptyHeap.room = 1000 := rfl
  rw [bigBlock, wp_bind, wp_require, hreq]
  refine ⟨fun _ => ?_, by decide⟩
  rw [sivfsAllocBlock, wp_bind, wp_pure, wp_bind, wp_require]
  refine ⟨fun _ => ?_, fun h => h (le_refl 40)⟩
  rw [wp_bind, wp_writeWs_ok (by decide) (by rw [hroom]; decide), wp_bind,
    wp_writeWs_ok (by decide) (by rw [write_room, hroom]; decide), wp_bind,
    wp_writeWs_ok (by decide) (by rw [write_room, write_room, hroom]; decide), wp_bind,
    wp_writeWs_ok (by decide) (by simp only [write_room, hroom]; decide), wp_bind,
    wp_writeWs_ok (by decide) (by simp only [write_room, hroom]; decide), wp_pure]
  decide

/-- With header and footer added the next two sizes get the smallest block. -/
theorem block_of_wrap {b : Bins} (hb : b.Documented) {size : ℕ}
    (hsize : roundUp size wordBytes = 2 ^ 64 - 16 ∨ roundUp size wordBytes = 2 ^ 64 - 24) :
    ∃ s r s', allocateWithin b (.ok (grant 0x10000 40)) 0x10000 0 size s = (.ok r, s') ∧
      r.size < 2 ^ 30 := by
  have helt : slabEltSize (roundUp size wordBytes) % wordBytes = 0 ∧
      nbins ≤ b.index (slabEltSize (roundUp size wordBytes) / wordBytes) := by
    rcases hsize with h | h
    · rw [h, show slabEltSize (2 ^ 64 - 16) = (2 ^ 61 - 1) * wordBytes by decide +kernel,
        Nat.mul_mod_left, Nat.mul_div_cancel _ (by decide)]
      exact ⟨rfl, hb.large _ (by decide)⟩
    · rw [h, show slabEltSize (2 ^ 64 - 24) = (2 ^ 61 - 2) * wordBytes by decide +kernel,
        Nat.mul_mod_left, Nat.mul_div_cancel _ (by decide)]
      exact ⟨rfl, hb.large _ (by decide)⟩
  have hbin : b.getBin (slabEltSize (roundUp size wordBytes)) = .ok none := by
    rw [Bins.getBin, if_neg (by simpa using helt.1)]
    simp only [if_pos helt.2]
  have hreq : bigRequest (roundUp size wordBytes) = 40 := by
    rcases hsize with h | h
    · rw [h]
      decide +kernel
    · rw [h]
      decide +kernel
  have hne : roundUp size wordBytes ≠ 0 ∧ roundUp size wordBytes % wordBytes = 0 := by
    rcases hsize with h | h
    · rw [h]
      decide
    · rw [h]
      decide
  have hmap : getMmapState emptyHeap.mmapStates 0x10000 0 = some 0 := rfl
  have hwp : (allocateWithin b (.ok (grant 0x10000 40)) 0x10000 0 size).wp
      (fun r _ => r.size < 2 ^ 30) (fun _ _ => False) emptyHeap := by
    rw [allocateWithin, wp_bind, getFreeListSlot]
    simp only [wp_bind, wp_require, wp_get, hmap, hbin, wp_pure, hne, ne_eq, not_false_eq_true,
      not_true_eq_false, false_imp_iff, and_true, true_imp_iff]
    exact wp_bigBlock_grant _ hreq
  obtain ⟨r, s', hr, hlt⟩ := exists_of_wp hwp
  exact ⟨_, r, s', hr, hlt⟩

/-- **Malloc never returns less than was asked, and refuses sizes too large for a header
word, if and only if** adding the sizes of a header and a footer to the rounded size does not
wrap: the sizes from `2^64 - 31` to `2^64 - 8` are the ones that it serves short. -/
theorem meetsRequest_iff {b : Bins} (hb : b.Documented) {size : ℕ} (hlt : size < 2 ^ 64) :
    MeetsRequest b size ↔ size ≤ 2 ^ 64 - 32 ∨ 2 ^ 64 - 8 < size := by
  constructor
  · intro h
    by_contra hn
    have hshort : ∃ answer s r s', allocateWithin b answer 0x10000 0 size s = (.ok r, s') ∧
        r.size < 2 ^ 30 := by
      have hround := roundUp_word (show size ≤ 2 ^ 64 - 8 by omega)
      by_cases hlast : 2 ^ 64 - 16 < size
      · exact ⟨_, slab_of_wrap hb (by omega)⟩
      · exact ⟨_, block_of_wrap hb (by omega)⟩
    obtain ⟨answer, s, r, s', hr, hsmall⟩ := hshort
    obtain ⟨r', s₁, hr', hp, hfit⟩ := h.fits answer 0x10000 0 s _ _ (mallocWs_of_ok hr)
    obtain rfl := Except.ok.inj (Prod.mk.inj (hr.symm.trans hr')).1
    rw [regionHeaderSize] at hfit
    omega
  · intro hsize
    have hreturns := returns_allocateWithin hb hsize hlt
    refine ⟨fun answer zone tag s p s' hm => ?_, fun hlarge answer zone tag s p s' hm => ?_⟩
    · obtain ⟨r, s₁, hr, rfl⟩ := mallocWs_eq_ok hm
      obtain ⟨hfit, -⟩ := hreturns answer zone tag s r s₁ hr
      exact ⟨r, s₁, hr, rfl, by omega⟩
    · obtain ⟨r, s₁, hr, -⟩ := mallocWs_eq_ok hm
      obtain ⟨-, hsmall⟩ := hreturns answer zone tag s r s₁ hr
      omega

/-- A request of a hundred bytes. -/
theorem meetsRequest_hundred : MeetsRequest exactBins 100 :=
  (meetsRequest_iff exactBins_exact.documented (by decide)).2 (.inl (by decide))

/-- The largest size that is not rounded to `0` gets a region of 24 bytes in a fresh slab. -/
theorem not_meetsRequest_wrap : ¬MeetsRequest exactBins (2 ^ 64 - 8) := by
  intro h
  have hp : (mallocWs exactBins (.ok (grant 0x10000 16392)) 0x10000 0 (2 ^ 64 - 8) emptyHeap).1 =
      .ok 0x10028 := by decide +kernel
  have hr : (allocateWithin exactBins (.ok (grant 0x10000 16392)) 0x10000 0 (2 ^ 64 - 8)
      emptyHeap).1 = .ok ⟨0x10020, 24⟩ := by decide +kernel
  obtain ⟨r, s₁, hr', -, hfit⟩ := h.fits _ _ _ _ _ _ (Prod.ext hp rfl)
  obtain rfl := Except.ok.inj (hr.symm.trans (congrArg Prod.fst hr'))
  exact absurd hfit (by decide)

end Slab
end Sivfs
