/-
# The block allocator of the kernel

`kern/alloc/sivfs_allocation.c` and `.h`: blocks of a file are granted to and taken
back from userspace in chunks.

| source | here |
| --- | --- |
| `last_freed_ts` | `LastFreed`, the timestamp and the two flags of the word |
| `struct sivfs_alloc_chunk` | `Chunk`, named by a number that is used once |
| `struct sivfs_allocator_pginfo` | `Pginfo` |
| `struct sivfs_allocator_info`, `lh_bestfit` | `Ainfo` |
| `sivfs_alloc_info_recover` | `Ainfo.recover` |
| `sivfs_alloc_block` | `allocBlock` |
| `sivfs_free_block` | `freeBlock` |
| `sivfs_coalesce_with_next`, `_prev` | `coalesceWithNext`, `coalesceWithPrev` |
| `_sivfs_free_block` | `releaseBlock` |

The allocator is that of one file.  The nodes `lh_bestfit` thread `bestfit_list` of the
file and `allocated_chunks` of every thread, so both are pointers of `Links`; a function
has no result where the code follows a pointer that is `NULL` or poisoned.  Every function
runs under `alloc_info_lock`.
-/

import Sivfs.Basic
import Sivfs.Lib.Ring

namespace Sivfs
namespace Alloc

/-- `(size_t)-1`: the size of the wilderness and `SIVFS_CHUNK_BOUNDARY_NULL`. -/
def sizeMax : ℕ := u64Size - 1

/-- The bits of `last_freed_ts` below `SIVFS_CHUNK_ALLOC_FLAGS`. -/
def tsSize : ℕ := 2 ^ 62

/-- `MAX_BLOCK_ALLOC_SIZE`. -/
def maxBlockAllocSize : ℕ := 64 * 1024 * 1024 * 1024

/-- The word `last_freed_ts`. -/
structure LastFreed where
  /-- The word without the flags. -/
  ts : ℕ
  /-- `SIVFS_CHUNK_ALLOCATED`. -/
  allocated : Bool
  /-- `SIVFS_CHUNK_FREEING`. -/
  freeing : Bool
  deriving DecidableEq, Repr

/-- A timestamp as a word. -/
def LastFreed.ofTs (ts : ℕ) : LastFreed := ⟨ts % tsSize, ts.testBit 63, ts.testBit 62⟩

/-- `struct sivfs_alloc_chunk` without its list nodes. -/
structure Chunk where
  lastFreed : LastFreed
  start : ℕ
  size : ℕ
  deriving DecidableEq, Repr

namespace Chunk

/-- `sivfs_alloc_chunk_is_free`. -/
def isFree (c : Chunk) : Bool := !c.lastFreed.allocated

/-- `sivfs_alloc_chunk_is_free_visible`. -/
def isFreeVisible (c : Chunk) (testTs : Ts) : Bool :=
  c.isFree && decide ((c.lastFreed.ts : Ts) ≤ testTs)

/-- One of the flags is set. -/
def busy (c : Chunk) : Bool := c.lastFreed.allocated || c.lastFreed.freeing

/-- `SIVFS_CHUNK_ALLOCATED` is set. -/
def allocate (c : Chunk) : Chunk := { c with lastFreed := { c.lastFreed with allocated := true } }

/-- `SIVFS_CHUNK_ALLOCATED` is cleared and `SIVFS_CHUNK_FREEING` is set. -/
def setFreeing (c : Chunk) : Chunk := { c with lastFreed := ⟨c.lastFreed.ts, false, true⟩ }

/-- `last_freed_ts` becomes `commit_ts` unless that is `SIVFS_INVALID_TS`, and loses its
flags. -/
def release (c : Chunk) : Ts → Chunk
  | ⊤ => { c with lastFreed := { c.lastFreed with allocated := false, freeing := false } }
  | (ts : ℕ) => { c with
      lastFreed := { LastFreed.ofTs ts with allocated := false, freeing := false } }

/-- `last_freed_ts` when a free is aborted: the flags are kept and
`SIVFS_CHUNK_ALLOCATED` is set, the timestamp is masked away. -/
def abortFree (c : Chunk) : Chunk := { c with lastFreed := ⟨0, true, c.lastFreed.freeing⟩ }

@[simp] theorem allocate_start (c : Chunk) : c.allocate.start = c.start := rfl
@[simp] theorem allocate_size (c : Chunk) : c.allocate.size = c.size := rfl
@[simp] theorem allocate_busy (c : Chunk) : c.allocate.busy = true := rfl
@[simp] theorem setFreeing_start (c : Chunk) : c.setFreeing.start = c.start := rfl
@[simp] theorem setFreeing_size (c : Chunk) : c.setFreeing.size = c.size := rfl
@[simp] theorem setFreeing_busy (c : Chunk) : c.setFreeing.busy = true := rfl
@[simp] theorem abortFree_start (c : Chunk) : c.abortFree.start = c.start := rfl
@[simp] theorem abortFree_size (c : Chunk) : c.abortFree.size = c.size := rfl
@[simp] theorem abortFree_busy (c : Chunk) : c.abortFree.busy = true := rfl

@[simp] theorem release_start (c : Chunk) (ts : Ts) : (c.release ts).start = c.start := by
  cases ts <;> rfl

@[simp] theorem release_size (c : Chunk) (ts : Ts) : (c.release ts).size = c.size := by
  cases ts <;> rfl

@[simp] theorem release_busy (c : Chunk) (ts : Ts) : (c.release ts).busy = false := by
  cases ts <;> rfl

end Chunk

/-- `struct sivfs_allocator_pginfo`. -/
structure Pginfo where
  boundaryOffset : ℕ
  endsChunk : Option ℕ
  startsChunk : Option ℕ
  deriving DecidableEq, Repr

/-- The heads of the lists threaded through `lh_bestfit`. -/
inductive Head (ι : Type*) where
  | bestfit
  /-- `allocated_chunks` of a thread. -/
  | allocated (t : ι)
  deriving DecidableEq

/-- `struct sivfs_allocator_info` with the memory its chunks are in. -/
structure Ainfo (ι : Type*) where
  chunk : ℕ → Chunk
  /-- `kzalloc` returned the chunk and `kfree` was not called on it. -/
  live : ℕ → Bool
  /-- The chunks that `kzalloc` returned are those below. -/
  nextChunk : ℕ
  pginfo : ℕ → Option Pginfo
  links : Links (ListNode (Head ι) ℕ)

namespace Ainfo

variable {ι : Type*}

/-- The `pginfo` of the page of an offset; one that is not there yet is zeroed. -/
def pg (a : Ainfo ι) (offset : ℕ) : Pginfo := (a.pginfo (offset / pageSize)).getD ⟨0, none, none⟩

/-- The record of a page is set. -/
def setPginfo (a : Ainfo ι) (offset : ℕ) (p : Pginfo) : Ainfo ι :=
  { a with pginfo := Function.update a.pginfo (offset / pageSize) (some p) }

/-- `sivfs_alloc_get_pginfo`: the `pginfo` is inserted if it is not there. -/
def getPginfo (a : Ainfo ι) (offset : ℕ) : Ainfo ι :=
  if (a.pginfo (offset / pageSize)).isSome then a else a.setPginfo offset ⟨0, none, none⟩

/-- `sivfs_alloc_get_pginfo` returns `-ENOMEM`: the `pginfo` is not there and there is no
memory for it. -/
def lacksPginfo (a : Ainfo ι) (mem : Bool) (offset : ℕ) : Bool :=
  !mem && (a.pginfo (offset / pageSize)).isNone

/-- A chunk is set. -/
def setChunk (a : Ainfo ι) (c : ℕ) (x : Chunk) : Ainfo ι :=
  { a with chunk := Function.update a.chunk c x }

@[simp] theorem setPginfo_chunk (a : Ainfo ι) (o : ℕ) (p : Pginfo) :
    (a.setPginfo o p).chunk = a.chunk := rfl
@[simp] theorem setPginfo_links (a : Ainfo ι) (o : ℕ) (p : Pginfo) :
    (a.setPginfo o p).links = a.links := rfl
@[simp] theorem setChunk_links (a : Ainfo ι) (c : ℕ) (x : Chunk) :
    (a.setChunk c x).links = a.links := rfl

@[simp] theorem getPginfo_chunk (a : Ainfo ι) (o : ℕ) : (a.getPginfo o).chunk = a.chunk := by
  rw [getPginfo]
  split_ifs <;> rfl

@[simp] theorem getPginfo_links (a : Ainfo ι) (o : ℕ) : (a.getPginfo o).links = a.links := by
  rw [getPginfo]
  split_ifs <;> rfl

@[simp] theorem getPginfo_live (a : Ainfo ι) (o : ℕ) : (a.getPginfo o).live = a.live := by
  rw [getPginfo]
  split_ifs <;> rfl

@[simp] theorem getPginfo_nextChunk (a : Ainfo ι) (o : ℕ) :
    (a.getPginfo o).nextChunk = a.nextChunk := by
  rw [getPginfo]
  split_ifs <;> rfl

/-- Only the record of that page may be made. -/
theorem getPginfo_of_ne (a : Ainfo ι) {o p : ℕ} (h : p ≠ o / pageSize) :
    (a.getPginfo o).pginfo p = a.pginfo p := by
  rw [getPginfo]
  split_ifs
  · rfl
  · exact Function.update_of_ne h _ _

@[simp] theorem getPginfo_pg (a : Ainfo ι) (o o' : ℕ) : (a.getPginfo o).pg o' = a.pg o' := by
  rw [getPginfo]
  split_ifs with h
  · rfl
  · by_cases ho : o' / pageSize = o / pageSize
    · simp_all [pg, setPginfo]
    · simp [pg, setPginfo, ho]

variable [DecidableEq ι]

/-- The chunks of `bestfit_list`. -/
def bestfitList (a : Ainfo ι) : Option (List ℕ) := a.links.toList .bestfit (a.nextChunk + 1)

/-- `sivfs_alloc_info_recover` of a fresh file, the lists being empty. -/
def recover : Ainfo ι where
  chunk := fun _ => ⟨⟨0, false, false⟩, 0, sizeMax⟩
  live := fun c => c = 0
  nextChunk := 1
  pginfo := fun p => if p = 0 then some ⟨0, none, some 0⟩ else none
  links :=
    { next := fun
        | .head .bestfit => some (.item 0)
        | .head (.allocated t) => some (.head (.allocated t))
        | .item c => if c = 0 then some (.head .bestfit) else none
      prev := fun
        | .head .bestfit => some (.item 0)
        | .head (.allocated t) => some (.head (.allocated t))
        | .item c => if c = 0 then some (.head .bestfit) else none }

end Ainfo

variable {ι : Type*} [DecidableEq ι]

/-! ### Allocation -/

/-- Which of the three allocations that `sivfs_alloc_block` may need succeed. -/
structure Memory where
  bound : Bool
  stop : Bool
  chunk : Bool
  deriving DecidableEq, Repr

/-- The search of `sivfs_alloc_block` over `bestfit_list`, and the wilderness if it was
met. -/
def firstFit (a : Ainfo ι) (ts : Ts) (size : ℕ) : List ℕ → Option ℕ → Option ℕ
  | [], wilderness => wilderness
  | c :: l, wilderness =>
    if (a.chunk c).size < size then firstFit a ts size l wilderness
    else if (a.chunk c).size = sizeMax then firstFit a ts size l (some c)
    else if (a.chunk c).isFreeVisible ts then some c
    else firstFit a ts size l wilderness

/-- `sivfs_alloc_block` splits chunk `cur`; the remaining chunk follows it. -/
def splitChunk (mem : Memory) (cur size : ℕ) (a : Ainfo ι) : Option (Ainfo ι × Option Errno) :=
  let x := a.chunk cur
  let boundary := (x.start + size) % u64Size
  let stop := (x.start + x.size) % u64Size
  let hasEnd : Bool := x.size ≠ sizeMax
  let remainSize := if hasEnd then x.size - size else x.size
  if a.lacksPginfo mem.bound boundary then some (a, some .enomem)
  else
    let a := a.getPginfo boundary
    if hasEnd && a.lacksPginfo mem.stop stop then some (a, some .enomem)
    else
      let a := if hasEnd then a.getPginfo stop else a
      if !mem.chunk then some (a, some .enomem)
      else
        let r := a.nextChunk
        let a := { a with nextChunk := r + 1, live := Function.update a.live r true }
        let a := a.setChunk r ⟨x.lastFreed, boundary, remainSize⟩
        let a := a.setChunk cur { x with size := size }
        let a := a.setPginfo boundary ⟨boundary % pageSize, some cur, some r⟩
        let a := if hasEnd then a.setPginfo stop { a.pg stop with endsChunk := some r } else a
        (a.links.add (.item r) (.head .bestfit)).map fun L => ({ a with links := L }, none)

/-- Chunk `cur` is moved to `allocated_chunks` of thread `t` and marked. -/
def takeChunk (t : ι) (cur : ℕ) (a : Ainfo ι) : Option (Ainfo ι) :=
  (a.links.move (.item cur) (.head (.allocated t))).map fun L =>
    { a.setChunk cur (a.chunk cur).allocate with links := L }

/-- `sivfs_alloc_block`; it grants the chunk it returns. -/
def allocBlock (mem : Memory) (t : ι) (ts : Ts) (size : ℕ) (a : Ainfo ι) :
    Option (Ainfo ι × Except Errno ℕ) :=
  if maxBlockAllocSize < size then some (a, .error .einval)
  else if size % wordBytes ≠ 0 then some (a, .error .einval)
  else
    a.bestfitList.bind fun l =>
      match firstFit a ts size l none with
      | none => some (a, .error .enomem)
      | some cur =>
        if size + pageSize < (a.chunk cur).size then
          (splitChunk mem cur size a).bind fun r =>
            match r.2 with
            | some e => some (r.1, .error e)
            | none => (takeChunk t cur r.1).map fun a => (a, .ok cur)
        else (takeChunk t cur a).map fun a => (a, .ok cur)

/-! ### Freeing -/

/-- `sivfs_free_block`: the chunk that is now freeing, or `none` where `should_abort` is
set. -/
def freeBlock (ts : Ts) (offset : ℕ) (a : Ainfo ι) : Option (Ainfo ι × Option ℕ) :=
  let a := a.getPginfo offset
  let p := a.pg offset
  if p.boundaryOffset = sizeMax then some (a, none)
  else if p.boundaryOffset ≠ offset % pageSize then some (a, none)
  else
    match p.startsChunk with
    | none => none
    | some c =>
      if (a.chunk c).isFree then some (a, none)
      else if ts < ((a.chunk c).lastFreed.ts : Ts) then some (a, none)
      else some (a.setChunk c (a.chunk c).setFreeing, some c)

/-- `sivfs_coalesce_with_next` once it found that chunk `c` can take chunk `d`, which
starts at `boundary`. -/
def absorb (c d boundary : ℕ) (a : Ainfo ι) : Option (Ainfo ι) :=
  let size := (a.chunk d).size
  let stop := ((a.chunk d).start + size) % u64Size
  let a := (a.getPginfo stop).getPginfo (a.chunk c).start
  let a := a.setChunk c { a.chunk c with size := ((a.chunk c).size + size) % u64Size }
  let a := a.setPginfo boundary ⟨sizeMax, none, none⟩
  let a := a.setPginfo stop { a.pg stop with endsChunk := some c }
  (a.links.del (.item d)).map fun L =>
    { a with links := L, live := Function.update a.live d false }

/-- `sivfs_coalesce_with_next`: whether it did, and the budget that is left. -/
def coalesceWithNext (budget c : ℕ) (a : Ainfo ι) : Option (Bool × ℕ × Ainfo ι) :=
  let boundary := ((a.chunk c).start + (a.chunk c).size) % u64Size
  let a := a.getPginfo boundary
  match (a.pg boundary).startsChunk with
  | none => some (false, budget, a)
  | some d =>
    if (a.chunk d).busy then some (false, budget, a)
    else if (a.chunk d).size = sizeMax then some (false, budget, a)
    else if budget < (a.chunk d).size then some (false, budget, a)
    else (absorb c d boundary a).map fun a' => (true, budget - (a.chunk d).size, a')

/-- `sivfs_coalesce_with_prev`: the chunk it merged with, and the budget that is left. -/
def coalesceWithPrev (budget c : ℕ) (a : Ainfo ι) : Option (Option ℕ × ℕ × Ainfo ι) :=
  let start := (a.chunk c).start
  let a := a.getPginfo start
  match (a.pg start).endsChunk with
  | none => some (none, budget, a)
  | some prev => (coalesceWithNext budget prev a).map fun r =>
      (if r.1 then some prev else none, r.2)

/-- The first loop of `_sivfs_free_block`, up to `n` times. -/
def coalesceNextLoop : ℕ → ℕ → ℕ → Ainfo ι → Option (ℕ × Ainfo ι)
  | 0, _, _, _ => none
  | n + 1, budget, c, a => (coalesceWithNext budget c a).bind fun r =>
      if r.1 then coalesceNextLoop n r.2.1 c r.2.2 else some r.2

/-- The second loop of `_sivfs_free_block`, up to `n` times. -/
def coalescePrevLoop : ℕ → ℕ → ℕ → Ainfo ι → Option (Ainfo ι)
  | 0, _, _, _ => none
  | n + 1, budget, c, a => (coalesceWithPrev budget c a).bind fun r =>
      match r.1 with
      | none => some r.2.2
      | some prev => coalescePrevLoop n r.2.1 prev r.2.2

/-- `_sivfs_free_block`. -/
def releaseBlock (c : ℕ) (commitTs : Ts) (a : Ainfo ι) : Option (Ainfo ι) :=
  let a := a.setChunk c ((a.chunk c).release commitTs)
  (a.links.add (.item c) (.head .bestfit)).bind fun L =>
    let a := { a with links := L }
    let budget := (a.chunk c).size * 4 % u64Size
    (coalesceNextLoop (a.nextChunk + 1) budget c a).bind fun r =>
      coalescePrevLoop (a.nextChunk + 1) r.1 c r.2

end Alloc
end Sivfs
