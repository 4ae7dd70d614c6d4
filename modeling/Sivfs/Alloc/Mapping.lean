/-
# Addresses of blocks

`sivfs_ioctl_alloc_block` turns the offset of a granted chunk into an address,
`sivfs_ioctl_free_block` and the commit (`sivfs_add_metadata_to_changes`) turn addresses
into offsets.

| source | address and offset |
| --- | --- |
| `sivfs_ioctl_alloc_block` | `vm_start + offset` |
| `sivfs_ioctl_free_block` | `address - vm_start + (vm_pgoff << PAGE_SHIFT)` |
| `sivfs_add_metadata_to_changes` | `address - vm_start + (vm_pgoff << PAGE_SHIFT)` |

All of it is `unsigned long` arithmetic.  The first one leaves `vm_pgoff` out and does not
look at `vm_end`; `block_translates` says what that costs.
-/

import Sivfs.Alloc.Blocks

namespace Sivfs
namespace Alloc

/-- What the allocator uses of a `struct vm_area_struct`. -/
structure Vma where
  vmStart : ℕ
  vmEnd : ℕ
  vmPgoff : ℕ
  /-- It passes the checks of `check_sivfs_current`. -/
  current : Bool
  start_lt : vmStart < vmEnd
  end_lt : vmEnd < u64Size

namespace Vma

variable (v : Vma)

/-- The address in `sivfs_ioctl_alloc_block`. -/
def allocAddress (offset : ℕ) : ℕ := (v.vmStart + offset) % u64Size

/-- `file_offset` in `sivfs_ioctl_free_block`. -/
def freeOffset (zone : ℕ) : ℕ :=
  ((zone + (u64Size - v.vmStart)) % u64Size + v.vmPgoff * pageSize % u64Size) % u64Size

/-- `file_offset` in `sivfs_add_metadata_to_changes`. -/
def commitOffset (targetStart : ℕ) : ℕ :=
  ((targetStart + (u64Size - v.vmStart)) % u64Size + v.vmPgoff * pageSize % u64Size) % u64Size

end Vma

/-- `find_vma`: the first mapping that ends behind an address, of mappings in order. -/
def findVma (mm : List Vma) (addr : ℕ) : Option Vma := mm.find? fun v => decide (addr < v.vmEnd)

/-- `sivfs_find_vma`. -/
def sivfsFindVma (mm : List Vma) (start size : ℕ) : Except Errno Vma :=
  let stop := (start + size) % u64Size
  if stop < start then .error .einval
  else
    match findVma mm start with
    | none => .error .einval
    | some v =>
      if start < v.vmStart ∨ v.vmEnd < stop then .error .einval
      else if v.current then .ok v else .error .einval

/-- `struct sivfs_allocator_args_t`. -/
structure AllocatorArgs where
  zone : ℕ
  blockAlloc : ℕ
  mmapStart : ℕ
  mmapSize : ℕ
  allocRet : ℕ
  allocSize : ℕ
  deriving DecidableEq, Repr

variable {ι : Type*} [DecidableEq ι]

/-- `sivfs_ioctl_alloc_block`: the arguments and the chunk that was granted. -/
def ioctlAllocBlock (mm : List Vma) (mem : Memory) (t : ι) (ts : Ts) (args : AllocatorArgs)
    (a : Ainfo ι) : Option (Ainfo ι × Except Errno (AllocatorArgs × Option ℕ)) :=
  match sivfsFindVma mm args.zone 1 with
  | .error _ => some (a, .error .einval)
  | .ok v =>
    let args := { args with mmapStart := v.vmStart, mmapSize := v.vmEnd - v.vmStart }
    if args.blockAlloc = 0 then some (a, .ok (args, none))
    else (allocBlock mem t ts args.blockAlloc a).map fun r =>
      match r.2 with
      | .error _ => (r.1, .error .einval)
      | .ok c => (r.1, .ok ({ args with
          allocRet := v.allocAddress (r.1.chunk c).start
          allocSize := (r.1.chunk c).size }, some c))

/-- `sivfs_ioctl_free_block` up to `sivfs_free_block`: the offset of an address. -/
def ioctlFreeOffset (mm : List Vma) (zone : ℕ) : Except Errno ℕ :=
  (sivfsFindVma mm zone 1).map fun v => v.freeOffset zone

/-- `sivfs_add_metadata_to_changes`: the offset of a write. -/
def metadataOffset (mm : List Vma) (targetStart : ℕ) : Except Errno ℕ :=
  (sivfsFindVma mm targetStart wordBytes).map fun v => v.commitOffset targetStart

/-- The bytes of chunk `c` that a request of a size is granted. -/
def Ainfo.grantSize (a : Ainfo ι) (size c : ℕ) : ℕ :=
  if size + pageSize < (a.chunk c).size then size else (a.chunk c).size

/-- Mappings in the order of their addresses. -/
def InOrder (mm : List Vma) : Prop := mm.Pairwise fun v w => v.vmEnd ≤ w.vmStart

/-! ### What is granted -/

theorem takeChunk_chunk {a a' : Ainfo ι} {t : ι} {c : ℕ} (h : takeChunk t c a = some a') :
    a'.chunk c = (a.chunk c).allocate := by
  obtain ⟨L, -, rfl⟩ := Option.map_eq_some_iff.1 h
  simp [Ainfo.setChunk]

theorem splitChunk_chunk {a a' : Ainfo ι} {mem : Memory} {c size : ℕ}
    (h : splitChunk mem c size a = some (a', none)) :
    a'.chunk c = { a.chunk c with size := size } := by
  simp only [splitChunk] at h
  split_ifs at h
  all_goals
    first
    | (simp only [Option.some.injEq, Prod.mk.injEq, reduceCtorEq, and_false] at h)
    | (obtain ⟨L, -, hL⟩ := Option.map_eq_some_iff.1 h
       obtain ⟨rfl, -⟩ := Prod.mk.inj hL
       simp [Ainfo.setChunk, Ainfo.setPginfo])

/-- A request is granted the first bytes of a chunk that is large enough. -/
theorem allocBlock_chunk {a a' : Ainfo ι} {mem : Memory} {t : ι} {ts : Ts} {size c : ℕ}
    (h : allocBlock mem t ts size a = some (a', .ok c)) :
    (a'.chunk c).start = (a.chunk c).start ∧ (a'.chunk c).size = a.grantSize size c ∧
      size ≤ (a.chunk c).size := by
  rw [allocBlock] at h
  split_ifs at h
  · simp at h
  · simp at h
  obtain ⟨l, -, h⟩ := Option.bind_eq_some_iff.1 h
  cases hfit : firstFit a ts size l none with
  | none => simp [hfit] at h
  | some d =>
    simp only [hfit] at h
    have hle : size ≤ (a.chunk d).size := ((firstFit_some hfit).resolve_left (by simp)).2.1
    split_ifs at h with hlt
    · obtain ⟨⟨a₁, r⟩, hsplit, h⟩ := Option.bind_eq_some_iff.1 h
      cases r with
      | some e => simp at h
      | none =>
        obtain ⟨a₂, htake, h⟩ := Option.map_eq_some_iff.1 h
        obtain ⟨rfl, hd⟩ := Prod.mk.inj h
        obtain rfl := Except.ok.inj hd
        rw [takeChunk_chunk htake, splitChunk_chunk hsplit, Ainfo.grantSize, if_pos hlt]
        exact ⟨rfl, rfl, hle⟩
    · obtain ⟨a₂, htake, h⟩ := Option.map_eq_some_iff.1 h
      obtain ⟨rfl, hd⟩ := Prod.mk.inj h
      obtain rfl := Except.ok.inj hd
      rw [takeChunk_chunk htake, Ainfo.grantSize, if_neg hlt]
      exact ⟨rfl, rfl, hle⟩

/-! ### Mappings -/

/-- An address in a mapping finds it. -/
theorem sivfsFindVma_mem {mm : List Vma} (hmm : InOrder mm) {v : Vma} (hv : v ∈ mm)
    (hcur : v.current = true) {start size : ℕ} (hle : v.vmStart ≤ start)
    (hpos : 0 < size) (hend : start + size ≤ v.vmEnd) : sivfsFindVma mm start size = .ok v := by
  have hlt := v.end_lt
  have hfind : findVma mm start = some v := by
    induction mm with
    | nil => simp at hv
    | cons u mm ih =>
      rw [findVma, List.find?_cons]
      rcases List.mem_cons.1 hv with rfl | hv'
      · rw [decide_eq_true (by omega)]
      · have hu := (List.pairwise_cons.1 hmm).1 v hv'
        rw [decide_eq_false (by omega)]
        exact ih (List.pairwise_cons.1 hmm).2 hv'
  rw [sivfsFindVma, Nat.mod_eq_of_lt (by omega), if_neg (by omega), hfind]
  simp only [hcur, if_true]
  rw [if_neg (by omega)]

/-- What is found is a mapping with the address. -/
theorem sivfsFindVma_ok {mm : List Vma} {v : Vma} {start size : ℕ}
    (h : sivfsFindVma mm start size = .ok v) : v ∈ mm ∧ v.current = true ∧ v.vmStart ≤ start := by
  rw [sivfsFindVma] at h
  split_ifs at h
  cases hf : findVma mm start with
  | none => simp [hf] at h
  | some u =>
    simp only [hf] at h
    split_ifs at h with hout hcur
    obtain rfl := Except.ok.inj h
    exact ⟨List.mem_of_find?_eq_some hf, hcur, by omega⟩

/-- A translation that starts at the granted offset: the mapping starts at offset `0`. -/
theorem Vma.freeOffset_eq_iff (v : Vma) {offset : ℕ} (ho : v.vmStart + offset < v.vmEnd) :
    v.freeOffset (v.vmStart + offset) = offset ↔ v.vmPgoff * pageSize % u64Size = 0 := by
  have hlt := v.end_lt
  have hmod : (v.vmStart + offset + (u64Size - v.vmStart)) % u64Size = offset := by
    have : v.vmStart + offset + (u64Size - v.vmStart) = offset + u64Size := by omega
    rw [this, Nat.add_mod_right, Nat.mod_eq_of_lt (by omega)]
  rw [freeOffset, hmod]
  have hpg := Nat.mod_lt (v.vmPgoff * pageSize) (show 0 < u64Size by decide)
  constructor
  · intro h
    by_cases hsum : offset + v.vmPgoff * pageSize % u64Size < u64Size
    · rw [Nat.mod_eq_of_lt hsum] at h
      omega
    · rw [Nat.mod_eq_sub_mod (by omega), Nat.mod_eq_of_lt (by omega)] at h
      omega
  · intro h
    rw [h, Nat.add_zero, Nat.mod_eq_of_lt (by omega)]

/-! ### Translations -/

/-- A granted block is in the mapping, a commit of a word of it goes to the granted chunk,
and a free of it goes to the start of the chunk. -/
structure Translates (mm : List Vma) (v : Vma) (x : Chunk) (args : AllocatorArgs) : Prop where
  inside : v.vmStart ≤ args.allocRet ∧ args.allocRet + args.allocSize ≤ v.vmEnd
  size : args.allocSize = x.size
  commit : ∀ i, wordBytes * i + wordBytes ≤ args.allocSize →
    metadataOffset mm (args.allocRet + wordBytes * i) = .ok (x.start + wordBytes * i)
  free : ioctlFreeOffset mm args.allocRet = .ok x.start

theorem ioctlAllocBlock_ok {mm : List Vma} {mem : Memory} {t : ι} {ts : Ts} {args : AllocatorArgs}
    {a a' : Ainfo ι} {c : ℕ} {v : Vma} (hfind : sivfsFindVma mm args.zone 1 = .ok v)
    (hsize : args.blockAlloc ≠ 0)
    (halloc : allocBlock mem t ts args.blockAlloc a = some (a', .ok c)) :
    ioctlAllocBlock mm mem t ts args a = some (a', .ok (⟨args.zone, args.blockAlloc, v.vmStart,
      v.vmEnd - v.vmStart, v.allocAddress (a'.chunk c).start, (a'.chunk c).size⟩, some c)) := by
  simp [ioctlAllocBlock, hfind, hsize, halloc]

/-- **Addresses and offsets of blocks agree if and only if** the mapping starts at offset
`0` of the file and reaches to the end of what is granted of the chunk. -/
theorem block_translates {mm : List Vma} (hmm : InOrder mm) {mem : Memory} {t : ι} {ts : Ts}
    {args args' : AllocatorArgs} {a a' : Ainfo ι} {c : ℕ}
    (h : ioctlAllocBlock mm mem t ts args a = some (a', .ok (args', some c))) :
    ∃ v, sivfsFindVma mm args.zone 1 = .ok v ∧ (Translates mm v (a'.chunk c) args' ↔
      v.vmPgoff * pageSize % u64Size = 0 ∧
      (a.chunk c).start + a.grantSize args.blockAlloc c ≤ v.vmEnd - v.vmStart) := by
  rw [ioctlAllocBlock] at h
  cases hfind : sivfsFindVma mm args.zone 1 with
  | error e => simp [hfind] at h
  | ok v =>
    refine ⟨v, rfl, ?_⟩
    simp only [hfind] at h
    split_ifs at h with hzero
    · simp at h
    obtain ⟨⟨a₁, r⟩, halloc, h⟩ := Option.map_eq_some_iff.1 h
    cases r with
    | error e => simp at h
    | ok d =>
      simp only [Prod.mk.injEq, Except.ok.injEq, Option.some.injEq] at h
      obtain ⟨rfl, rfl, rfl⟩ := h
      obtain ⟨hstart, hsize, hle⟩ := allocBlock_chunk halloc
      obtain ⟨hmem, hcur, -⟩ := sivfsFindVma_ok hfind
      have hlt := v.end_lt
      have hsub := v.start_lt
      have hgrant : 0 < a.grantSize args.blockAlloc d := by
        rw [Ainfo.grantSize]
        split_ifs
        · omega
        · omega
      constructor
      · rintro ⟨⟨hin, hend⟩, -, -, hfree⟩
        simp only [hstart, hsize] at hin hend hfree
        rw [ioctlFreeOffset, sivfsFindVma_mem hmm hmem hcur hin (by decide) (by omega)] at hfree
        have hoff : v.freeOffset (v.allocAddress (a.chunk d).start) = (a.chunk d).start :=
          Except.ok.inj hfree
        have hlt' : (a.chunk d).start < u64Size := by
          rw [← hoff]
          exact Nat.mod_lt _ (by decide)
        have haddr : v.allocAddress (a.chunk d).start = v.vmStart + (a.chunk d).start := by
          rw [Vma.allocAddress] at hin ⊢
          by_cases hwrap : v.vmStart + (a.chunk d).start < u64Size
          · exact Nat.mod_eq_of_lt hwrap
          · rw [Nat.mod_eq_sub_mod (by omega), Nat.mod_eq_of_lt (by omega)] at hin
            omega
        rw [haddr] at hoff hend
        exact ⟨(v.freeOffset_eq_iff (by omega)).1 hoff, by omega⟩
      · rintro ⟨hpg, hend⟩
        have haddr : v.allocAddress (a.chunk d).start = v.vmStart + (a.chunk d).start :=
          Nat.mod_eq_of_lt (by omega)
        refine ⟨?_, rfl, fun i hi => ?_, ?_⟩
        · simp only [hstart, hsize, haddr]
          omega
        · simp only [hsize] at hi
          simp only [hstart, haddr]
          rw [metadataOffset, sivfsFindVma_mem hmm hmem hcur (by omega) (by decide) (by omega)]
          have hword : 0 < wordBytes := by decide
          have hback : v.freeOffset (v.vmStart + ((a.chunk d).start + wordBytes * i)) =
              (a.chunk d).start + wordBytes * i := (v.freeOffset_eq_iff (by omega)).2 hpg
          rw [← Nat.add_assoc] at hback
          exact congrArg Except.ok hback
        · simp only [hstart, haddr]
          rw [ioctlFreeOffset, sivfsFindVma_mem hmm hmem hcur (by omega) (by decide) (by omega)]
          exact congrArg Except.ok ((v.freeOffset_eq_iff (by omega)).2 hpg)

/-- A mapping of sixteen pages of a file from page `pgoff` on. -/
def window (pgoff : ℕ) : Vma where
  vmStart := 0x10000
  vmEnd := 0x20000
  vmPgoff := pgoff
  current := true
  start_lt := by decide
  end_lt := by decide

/-- A request for a block of a page through the mapping. -/
def pageRequest : AllocatorArgs := ⟨0x10000, 4096, 0, 0, 0, 0⟩

/-- What a fresh file grants. -/
def pageReply : AllocatorArgs := ⟨0x10000, 4096, 0x10000, 0x10000, 0x10000, 4096⟩

theorem inOrder_window (pgoff : ℕ) : InOrder [window pgoff] := List.pairwise_singleton _ _

theorem pageRequest_granted (pgoff : ℕ) : ∃ a',
    ioctlAllocBlock [window pgoff] ⟨true, true, true⟩ false 0 pageRequest Ainfo.recover =
      some (a', .ok (pageReply, some 0)) ∧ (a'.chunk 0).start = 0 := by
  have hfind : sivfsFindVma [window pgoff] pageRequest.zone 1 = .ok (window pgoff) :=
    sivfsFindVma_mem (inOrder_window pgoff) (by simp) rfl (Nat.le_refl 0x10000) (by decide)
      (show 0x10000 + 1 ≤ 0x20000 by decide)
  have h : (allocBlock ⟨true, true, true⟩ false 0 pageRequest.blockAlloc Ainfo.recover).map
      (fun r => (r.1.chunk 0, r.2.toOption)) = some (⟨⟨0, true, false⟩, 0, 4096⟩, some 0) := by
    decide +kernel
  obtain ⟨⟨a', r⟩, halloc, hlook⟩ := Option.map_eq_some_iff.1 h
  simp only [Prod.mk.injEq] at hlook
  obtain ⟨hchunk, hok⟩ := hlook
  obtain rfl : r = .ok 0 := by
    cases r with
    | error e => simp [Except.toOption] at hok
    | ok c => simpa [Except.toOption] using hok
  have hreply := ioctlAllocBlock_ok hfind (show pageRequest.blockAlloc ≠ 0 by decide) halloc
  have haddr : (window pgoff).allocAddress 0 = 0x10000 := by
    simp [window, Vma.allocAddress, u64Size]
  have hsize : (window pgoff).vmEnd - (window pgoff).vmStart = 0x10000 := by
    have hstart : (window pgoff).vmStart = 0x10000 := rfl
    have hend : (window pgoff).vmEnd = 0x20000 := rfl
    omega
  rw [hchunk, haddr, hsize] at hreply
  exact ⟨a', hreply, by rw [hchunk]⟩

/-- Through a mapping from the start of the file. -/
theorem block_translates_window : ∃ a' : Ainfo Bool,
    ioctlAllocBlock [window 0] ⟨true, true, true⟩ false 0 pageRequest Ainfo.recover =
      some (a', .ok (pageReply, some 0)) ∧
    Translates [window 0] (window 0) (a'.chunk 0) pageReply := by
  obtain ⟨a', h, -⟩ := pageRequest_granted 0
  obtain ⟨v, hv, hiff⟩ := block_translates (inOrder_window 0) h
  obtain rfl : window 0 = v := Except.ok.inj hv
  exact ⟨a', h, hiff.2 (by decide)⟩

/-- Through a mapping from the second page on, a commit of the block goes to the second
page of the file, and the block that was granted is at the first one. -/
theorem not_block_translates_window : ∃ a' : Ainfo Bool,
    ioctlAllocBlock [window 1] ⟨true, true, true⟩ false 0 pageRequest Ainfo.recover =
      some (a', .ok (pageReply, some 0)) ∧ (a'.chunk 0).start = 0 ∧
    ioctlFreeOffset [window 1] pageReply.allocRet = .ok 4096 ∧
    ¬Translates [window 1] (window 1) (a'.chunk 0) pageReply := by
  obtain ⟨a', h, hstart⟩ := pageRequest_granted 1
  have hfree : ioctlFreeOffset [window 1] pageReply.allocRet = .ok 4096 := rfl
  refine ⟨a', h, hstart, hfree, fun ht => ?_⟩
  have := ht.free
  rw [hfree, hstart] at this
  simp at this

end Alloc
end Sivfs
