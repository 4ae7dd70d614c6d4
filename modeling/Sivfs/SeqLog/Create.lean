/-
# The memory of the sequential log

`_sivfs_allocate_log_insert_log_cache` and `sivfs_create_log_entry`
(`kern/sivfs_shared_state.c`) with `SIVFS_FIGURE_SEQLOG_SEQ`.  A chunk starts with the
address of the chunk before it; entries follow, each with its write-set right after it:

| bytes | |
| --- | --- |
| `0` to `8` | `chunk_start_ptr` when the chunk was made |
| `8` to `64` | `struct sivfs_log_entry`, the first in the chunk |
| from `64` | its `ws.entries` |
| | the next entry, and so on up to `chunk_ptr` |
| `bytes_remaining_chunk` bytes from `chunk_ptr` | free |

`kmalloc` and `radix_tree_insert` fail where `Faults` says so.  `all_or_nothing_iff` is
exactly when a failed call takes back what it did: not when the entry fitted into the last
chunk and `radix_tree_insert` fails, for then `kfree(new_chunk_start_ptr)` frees that chunk.
-/

import Sivfs.Commit.Chunks
import Sivfs.Lib.Call
import Mathlib.Logic.Function.Basic
import Mathlib.Data.List.Basic

open Function

namespace Sivfs
namespace SeqLog

open Call
open Commit (sizeofLogEntry sizeofPointer logChunkSize)

/-! ### The log -/

/-- An address: a chunk, and the bytes from its start. -/
structure Addr where
  chunk : ℕ
  offset : ℕ
  deriving DecidableEq

/-- `(char*)p + n`. -/
def Addr.add (p : Addr) (n : ℕ) : Addr := ⟨p.chunk, p.offset + n⟩

/-- `struct sivfs_log_entry`. -/
structure LogEntry where
  ts : Ts
  /-- `ws.__capacity_bytes`. -/
  capacityBytes : ℕ
  /-- `ws.__size_bytes`. -/
  sizeBytes : ℕ
  /-- `ws.entries`. -/
  entries : Option Addr
  aborted : Bool
  commitStatusFilledIn : Bool
  wsHasMetadata : Bool
  firstInChunk : Bool
  prev : Option Addr
  next : Option Addr

/-- `struct sivfs_log`.  `chunk_ptr` means nothing while `chunk_start_ptr` is `NULL`. -/
structure Log where
  latest : Option Addr
  bytesRemainingChunk : ℕ
  chunkPtr : Addr
  chunkStartPtr : Option ℕ

/-- The log of `struct sivfs_shared_state` and the memory it is in. -/
structure State where
  masterLog : Log
  masterLogDeletedTs : Ts
  /-- The slots of `log_cache`, by timestamp. -/
  logCache : List (ℕ × Addr)
  /-- The log entry in memory at an address. -/
  logEntry : Addr → LogEntry
  /-- The pointer in memory at an address. -/
  word : Addr → Option ℕ
  /-- The number of chunks ever allocated: they are `0`, `1` and so on. -/
  chunks : ℕ
  chunkSize : ℕ → ℕ
  /-- What `kfree` was called with, `NULL` apart. -/
  freed : List ℕ

/-- The failures of `kmalloc` and of `radix_tree_insert` for want of memory. -/
structure Faults where
  kmalloc : Bool
  radixTreeInsert : Bool

/-- The errors of `sivfs_create_log_entry`. -/
inductive LogErrno where
  | enomem
  | eexist
  deriving DecidableEq

/-! ### Creating an entry -/

/-- `bytes_to_allocate`, for a write-set of `size` bytes. -/
def bytesToAllocate (size : ℕ) : ℕ := (sizeofLogEntry + size) % u64Size

/-- `chunk_real_allocate`. -/
def chunkRealAllocate (bytes : ℕ) : ℕ := max logChunkSize ((bytes + sizeofPointer) % u64Size)

/-- `kfree`. -/
def State.kfree (s : State) : Option ℕ → State
  | none => s
  | some c => { s with freed := c :: s.freed }

/-- An assignment to fields of the log entry at `a`. -/
def State.modifyEntry (s : State) (a : Addr) (f : LogEntry → LogEntry) : State :=
  { s with logEntry := update s.logEntry a (f (s.logEntry a)) }

/-- `kmalloc` of a chunk. -/
def kmalloc (fails : Bool) (size : ℕ) : Call State LogErrno ℕ := do
  require (fails = false) .enomem
  let s ← get
  modify fun s => { s with chunks := s.chunks + 1, chunkSize := update s.chunkSize s.chunks size }
  pure s.chunks

/-- `new_chunk_start_ptr`, `new_chunk_ptr` and `new_bytes_remaining_chunk`. -/
structure NewChunk where
  startPtr : Option ℕ
  ptr : Addr
  bytesRemaining : ℕ

/-- A new chunk, which starts with the address of the old one. -/
def newChunk (fails : Bool) (bytes : ℕ) : Call State LogErrno NewChunk := do
  let c ← kmalloc fails (chunkRealAllocate bytes)
  modify fun s => { s with word := update s.word ⟨c, 0⟩ s.masterLog.chunkStartPtr }
  pure ⟨some c, ⟨c, sizeofPointer⟩, chunkRealAllocate bytes - sizeofPointer⟩

/-- The chunk that the next `bytes` are cut from. -/
def chooseChunk (fails : Bool) (bytes : ℕ) : Call State LogErrno NewChunk := do
  let s ← get
  if s.masterLog.bytesRemainingChunk < bytes then newChunk fails bytes
  else pure ⟨s.masterLog.chunkStartPtr, s.masterLog.chunkPtr, s.masterLog.bytesRemainingChunk⟩

/-- A log entry after `sivfs_init_log_entry`: zeroes, and an invalid timestamp. -/
def LogEntry.initial : LogEntry where
  ts := invalidTs
  capacityBytes := 0
  sizeBytes := 0
  entries := none
  aborted := false
  commitStatusFilledIn := false
  wsHasMetadata := false
  firstInChunk := false
  prev := none
  next := none

/-- `sivfs_init_log_entry`, which returns `0`. -/
def initLogEntry (a : Addr) : Call State LogErrno Unit :=
  modify fun s => s.modifyEntry a fun _ => .initial

/-- The slots with one more. -/
def insertSlot (ts : ℕ) (a : Addr) (slots : List (ℕ × Addr)) : List (ℕ × Addr) :=
  slots.takeWhile (fun p => p.1 < ts) ++ (ts, a) :: slots.dropWhile (fun p => p.1 < ts)

/-- `radix_tree_insert` into `log_cache`. -/
def radixTreeInsert (fails : Bool) (ts : ℕ) (a : Addr) : Call State LogErrno Unit := do
  require (fails = false) .enomem
  let s ← get
  require (ts ∉ s.logCache.map Prod.fst) .eexist
  modify fun s => { s with logCache := insertSlot ts a s.logCache }

/-- `ws.entries`, `ws.__capacity_bytes` and `first_in_chunk` of the entry that is cut from
a chunk. -/
def LogEntry.cut (new : NewChunk) (size : ℕ) (e : LogEntry) : LogEntry :=
  { e with
    entries := some (new.ptr.add sizeofLogEntry)
    capacityBytes := size
    firstInChunk := decide (new.startPtr = some new.ptr.chunk ∧ new.ptr.offset = sizeofPointer) }

/-- The chunk pointers after an entry is cut from a chunk. -/
def Log.cut (new : NewChunk) (size : ℕ) (log : Log) : Log :=
  { log with
    chunkStartPtr := new.startPtr
    chunkPtr := new.ptr.add (sizeofLogEntry + size)
    bytesRemainingChunk := new.bytesRemaining - bytesToAllocate size }

/-- `_sivfs_allocate_log_insert_log_cache`. -/
def allocateLogInsertLogCache (faults : Faults) (ts size : ℕ) : Call State LogErrno Addr := do
  let new ← chooseChunk faults.kmalloc (bytesToAllocate size)
  (initLogEntry new.ptr).onError fun s => s.kfree new.startPtr
  modify fun s => s.modifyEntry new.ptr (.cut new size)
  (radixTreeInsert faults.radixTreeInsert ts new.ptr).onError fun s => s.kfree new.startPtr
  modify fun s => { s with masterLog := s.masterLog.cut new size }
  pure new.ptr

/-- `prev`, `next` and `master_log.latest`. -/
def State.link (s : State) (log : Addr) : State :=
  let s₁ := s.modifyEntry log fun e => { e with prev := s.masterLog.latest }
  let s₂ := s.masterLog.latest.elim s₁ fun prev =>
    s₁.modifyEntry prev fun e => { e with next := some log }
  { s₂ with masterLog := { s₂.masterLog with latest := some log } }

/-- `sivfs_create_log_entry`. -/
def createLogEntry (faults : Faults) (ts size : ℕ) : Call State LogErrno Addr := do
  let log ← allocateLogInsertLogCache faults ts size
  modify fun s => s.link log
  pure log

/-! ### Where the entries are -/

/-- The end of the entry at `a` and of its write-set. -/
def State.endOf (s : State) (a : Addr) : ℕ :=
  a.offset + sizeofLogEntry + (s.logEntry a).capacityBytes

/-- The entry at `a` is in a chunk, its write-set after it. -/
structure InChunk (s : State) (a : Addr) : Prop where
  chunk : a.chunk < s.chunks
  offset : sizeofPointer ≤ a.offset
  entries : (s.logEntry a).entries = some (a.add sizeofLogEntry)
  endOf : s.endOf a ≤ s.chunkSize a.chunk
  used : s.masterLog.chunkStartPtr = some a.chunk → s.endOf a ≤ s.masterLog.chunkPtr.offset

/-- Two entries without a common byte. -/
def Apart (s : State) (a b : Addr) : Prop :=
  a.chunk = b.chunk → s.endOf a ≤ b.offset ∨ s.endOf b ≤ a.offset

/-- The log is laid out as it should be. -/
structure Placed (s : State) : Prop where
  sorted : (s.logCache.map Prod.fst).Pairwise (· < ·)
  inChunk : ∀ p ∈ s.logCache, InChunk s p.2
  apart : s.logCache.Pairwise fun p q => Apart s p.2 q.2
  /-- The last chunk, which an entry was already cut from. -/
  current : ∀ c, s.masterLog.chunkStartPtr = some c → c < s.chunks ∧
    s.masterLog.chunkPtr.chunk = c ∧ sizeofPointer < s.masterLog.chunkPtr.offset ∧
    s.masterLog.chunkPtr.offset + s.masterLog.bytesRemainingChunk ≤ s.chunkSize c
  noChunk : s.masterLog.chunkStartPtr = none → s.masterLog.bytesRemainingChunk = 0

/-- A chunk that was allocated and not freed. -/
def State.Allocated (s : State) (c : ℕ) : Prop := c < s.chunks ∧ c ∉ s.freed

/-- The state of a log: the entries of `log_cache` and the last chunk are allocated. -/
structure Wf (s : State) : Prop extends Placed s where
  entries : ∀ p ∈ s.logCache, s.Allocated p.2.chunk
  lastChunk : ∀ c, s.masterLog.chunkStartPtr = some c → s.Allocated c
  freed : ∀ c ∈ s.freed, c < s.chunks

/-! ### A successful call -/

theorem bytesToAllocate_eq {size : ℕ} (h : size < 2 ^ 63) :
    bytesToAllocate size = sizeofLogEntry + size := by
  rw [bytesToAllocate, Nat.mod_eq_of_lt]
  simp only [sizeofLogEntry, u64Size]
  omega

/-- A chunk is large enough for the entry and for the address of the chunk before it. -/
theorem le_chunkRealAllocate {size : ℕ} (h : size < 2 ^ 63) :
    bytesToAllocate size + sizeofPointer ≤ chunkRealAllocate (bytesToAllocate size) := by
  rw [chunkRealAllocate, bytesToAllocate_eq h, Nat.mod_eq_of_lt]
  · exact le_max_right _ _
  · simp only [sizeofLogEntry, sizeofPointer, u64Size]
    omega

/-- The chunk for the next `bytes`: a new one, or the last one. -/
def Chosen (s s' : State) (bytes : ℕ) (new : NewChunk) : Prop :=
  if s.masterLog.bytesRemainingChunk < bytes then
    new = ⟨some s.chunks, ⟨s.chunks, sizeofPointer⟩, chunkRealAllocate bytes - sizeofPointer⟩ ∧
      s' = { s with
        chunks := s.chunks + 1
        chunkSize := update s.chunkSize s.chunks (chunkRealAllocate bytes)
        word := update s.word ⟨s.chunks, 0⟩ s.masterLog.chunkStartPtr }
  else
    new = ⟨s.masterLog.chunkStartPtr, s.masterLog.chunkPtr, s.masterLog.bytesRemainingChunk⟩ ∧
      s' = s

/-- The entry goes to the current chunk if there is room in it, else to a new one. -/
theorem wp_chooseChunk (fails : Bool) (bytes : ℕ) (s : State) :
    (chooseChunk fails bytes).wp (fun new s' => Chosen s s' bytes new)
      (fun _ s' => s.masterLog.bytesRemainingChunk < bytes ∧ s' = s) s := by
  simp only [chooseChunk, wp_bind, wp_get, Chosen]
  split_ifs with hlt
  · simp [newChunk, kmalloc, hlt]
  · simp

/-- The state with an entry cut from `new`. -/
def State.withEntry (s : State) (new : NewChunk) (size : ℕ) : State :=
  s.modifyEntry new.ptr fun _ => LogEntry.initial.cut new size

/-- `radix_tree_insert` fails. -/
def InsertFails (faults : Faults) (ts : ℕ) (s : State) : Prop :=
  faults.radixTreeInsert = true ∨ ts ∈ s.logCache.map Prod.fst

/-- What a call leaves that fails: nothing new, or the entry in a chunk that it frees. -/
def Abandoned (faults : Faults) (ts size : ℕ) (s s' : State) : Prop :=
  (s.masterLog.bytesRemainingChunk < bytesToAllocate size ∧ s' = s) ∨
    (InsertFails faults ts s ∧ ∃ new s₁, Chosen s s₁ (bytesToAllocate size) new ∧
      s' = (s₁.withEntry new size).kfree new.startPtr)

/-- What `_sivfs_allocate_log_insert_log_cache` leaves. -/
theorem wp_allocateLogInsertLogCache (faults : Faults) (ts size : ℕ) (s : State) :
    (allocateLogInsertLogCache faults ts size).wp
      (fun a s' => ∃ new s₁, Chosen s s₁ (bytesToAllocate size) new ∧ a = new.ptr ∧
        ¬InsertFails faults ts s ∧ s' = { s₁.withEntry new size with
          logCache := insertSlot ts new.ptr s.logCache
          masterLog := s.masterLog.cut new size })
      (fun _ s' => Abandoned faults ts size s s') s := by
  rw [allocateLogInsertLogCache]
  refine wp_bind.2
    (wp_mono (wp_chooseChunk _ _ _) (fun new s₁ hchosen => ?_) fun _ s' hs => .inl hs)
  have hsame : s₁.logCache = s.logCache ∧ s₁.masterLog = s.masterLog := by
    rw [Chosen] at hchosen
    split_ifs at hchosen
    · obtain ⟨-, rfl⟩ := hchosen
      exact ⟨rfl, rfl⟩
    · obtain ⟨-, rfl⟩ := hchosen
      exact ⟨rfl, rfl⟩
  obtain ⟨hcache, hlog⟩ := hsame
  have hentry : ((s₁.modifyEntry new.ptr fun _ => LogEntry.initial).modifyEntry new.ptr
      (.cut new size)) = s₁.withEntry new size := by
    simp [State.modifyEntry, State.withEntry]
  have hslots : (s₁.withEntry new size).logCache = s.logCache := hcache
  have hmaster : (s₁.withEntry new size).masterLog = s.masterLog := hlog
  simp only [wp_bind, wp_onError, initLogEntry, radixTreeInsert, wp_modify, wp_require, wp_get,
    wp_pure, hentry, hslots, hmaster]
  refine ⟨fun hfault => ⟨fun hmem => ?_, fun hmem => ?_⟩, fun hfault => ?_⟩
  · exact ⟨new, s₁, hchosen, rfl, by simp [InsertFails, hfault, hmem], rfl⟩
  · exact .inr ⟨.inr (not_not.1 hmem), new, s₁, hchosen, rfl⟩
  · exact .inr ⟨.inl (by simpa using hfault), new, s₁, hchosen, rfl⟩

/-- Everything of two entries but the links. -/
def SameData (e e' : LogEntry) : Prop :=
  e'.entries = e.entries ∧ e'.capacityBytes = e.capacityBytes ∧ e'.firstInChunk = e.firstInChunk

/-- An entry has its own data. -/
theorem SameData.refl (e : LogEntry) : SameData e e := ⟨rfl, rfl, rfl⟩

/-- To have the same data goes on. -/
theorem SameData.trans {e e' e'' : LogEntry} (h : SameData e e') (h' : SameData e' e'') :
    SameData e e'' :=
  ⟨h'.1.trans h.1, h'.2.1.trans h.2.1, h'.2.2.trans h.2.2⟩

/-- Links and marks are no data. -/
theorem modifyEntry_same (s : State) (a : Addr) {f : LogEntry → LogEntry}
    (hf : ∀ e, SameData e (f e)) (x : Addr) :
    SameData (s.logEntry x) ((s.modifyEntry a f).logEntry x) := by
  by_cases hx : x = a
  · rw [hx]
    simpa [State.modifyEntry] using hf (s.logEntry a)
  · simpa [State.modifyEntry, update_of_ne hx] using SameData.refl (s.logEntry x)

/-- Linking an entry writes links, and `master_log.latest`. -/
theorem link_eq (s : State) (a : Addr) : ∃ logEntry, s.link a =
    { s with logEntry := logEntry, masterLog := { s.masterLog with latest := some a } } ∧
      ∀ x, SameData (s.logEntry x) (logEntry x) := by
  have hprev := modifyEntry_same s a (f := fun e => { e with prev := s.masterLog.latest })
    fun e => .refl e
  rcases hlatest : s.masterLog.latest with _ | prev
  · refine ⟨_, ?_, hprev⟩
    simp only [State.link, hlatest, Option.elim_none]
    rfl
  · have hnext := modifyEntry_same (s.modifyEntry a fun e => { e with prev := s.masterLog.latest })
      prev (f := fun e => { e with next := some a }) fun e => .refl e
    refine ⟨_, ?_, fun x => (hprev x).trans (hnext x)⟩
    simp only [State.link, hlatest, Option.elim_some]
    rfl

/-- What a successful `sivfs_create_log_entry` does. -/
structure Created (s : State) (ts size : ℕ) (a : Addr) (s' : State) : Prop where
  fresh : ts ∉ s.logCache.map Prod.fst
  logCache : s'.logCache = insertSlot ts a s.logCache
  freed : s'.freed = s.freed
  latest : s'.masterLog.latest = some a
  startPtr : s'.masterLog.chunkStartPtr = some a.chunk
  ptr : s'.masterLog.chunkPtr = a.add (sizeofLogEntry + size)
  room : a.offset + (sizeofLogEntry + size) + s'.masterLog.bytesRemainingChunk ≤
    s'.chunkSize a.chunk
  offset : sizeofPointer ≤ a.offset
  entries : (s'.logEntry a).entries = some (a.add sizeofLogEntry)
  capacityBytes : (s'.logEntry a).capacityBytes = size
  others : ∀ x, x ≠ a → SameData (s.logEntry x) (s'.logEntry x)
  /-- The entry is in a new chunk, or in the last one. -/
  chunk : (a.chunk = s.chunks ∧ s'.chunks = s.chunks + 1 ∧
      s'.word ⟨a.chunk, 0⟩ = s.masterLog.chunkStartPtr ∧ (s'.logEntry a).firstInChunk = true ∧
      a.offset = sizeofPointer) ∨
    (s.masterLog.chunkStartPtr = some a.chunk ∧ s.masterLog.chunkPtr = a ∧
      s'.chunks = s.chunks ∧ (s'.logEntry a).firstInChunk = false)
  chunkSize : ∀ c < s.chunks, s'.chunkSize c = s.chunkSize c
  word : ∀ c < s.chunks, s'.word ⟨c, 0⟩ = s.word ⟨c, 0⟩

/-- **A call that succeeds has cut its entry from the free bytes of a chunk.** -/
theorem created_of_chosen {s s₁ : State} {ts size : ℕ} {new : NewChunk} (hp : Placed s)
    (hsize : size < 2 ^ 63) (hchosen : Chosen s s₁ (bytesToAllocate size) new)
    (hfresh : ts ∉ s.logCache.map Prod.fst) :
    Created s ts size new.ptr
      (State.link { s₁.withEntry new size with
        logCache := insertSlot ts new.ptr s.logCache
        masterLog := s.masterLog.cut new size } new.ptr) := by
  obtain ⟨logEntry, hlink, hdata⟩ := link_eq { s₁.withEntry new size with
    logCache := insertSlot ts new.ptr s.logCache
    masterLog := s.masterLog.cut new size } new.ptr
  rw [hlink]
  have hnew : SameData (LogEntry.initial.cut new size) (logEntry new.ptr) := by
    have h := hdata new.ptr
    simpa [State.withEntry, State.modifyEntry] using h
  have hold : ∀ x, x ≠ new.ptr → SameData (s₁.logEntry x) (logEntry x) := by
    intro x hx
    have h := hdata x
    simpa [State.withEntry, State.modifyEntry, update_of_ne hx] using h
  obtain ⟨hentries, hcapacity, hfirst⟩ := hnew
  have hbytes := bytesToAllocate_eq hsize
  rw [Chosen] at hchosen
  split_ifs at hchosen with hlt
  · obtain ⟨rfl, rfl⟩ := hchosen
    have hreal := le_chunkRealAllocate hsize
    refine ⟨hfresh, rfl, rfl, rfl, rfl, rfl, ?_, le_rfl, hentries, hcapacity, hold,
      .inl ⟨rfl, rfl, ?_, ?_, rfl⟩, fun c hc => ?_, fun c hc => ?_⟩
    · simp only [Log.cut, State.withEntry, State.modifyEntry, update_self]
      omega
    · simp [State.withEntry, State.modifyEntry]
    · rw [hfirst]
      simp [LogEntry.cut]
    · simp only [State.withEntry, State.modifyEntry]
      rw [update_of_ne (by omega)]
    · simp only [State.withEntry, State.modifyEntry]
      rw [update_of_ne (by simp; omega)]
  · obtain ⟨rfl, rfl⟩ := hchosen
    have hsome : ∃ c, s₁.masterLog.chunkStartPtr = some c := by
      rw [← Option.ne_none_iff_exists']
      intro hnone
      have h₀ := hp.noChunk hnone
      simp only [sizeofLogEntry] at hbytes
      omega
    obtain ⟨c, hc⟩ := hsome
    obtain ⟨-, rfl, hoff, hroom⟩ := hp.current c hc
    refine ⟨hfresh, rfl, rfl, rfl, hc, rfl, ?_, hoff.le, hentries, hcapacity, hold,
      .inr ⟨hc, rfl, rfl, ?_⟩, fun _ _ => rfl, fun _ _ => rfl⟩
    · simp only [Log.cut, State.withEntry, State.modifyEntry]
      omega
    · rw [hfirst]
      simp [LogEntry.cut, hoff.ne']

/-- What `sivfs_create_log_entry` leaves, whether it fails or not. -/
theorem wp_createLogEntry (faults : Faults) (ts : ℕ) {size : ℕ} {s : State} (hp : Placed s)
    (hsize : size < 2 ^ 63) :
    (createLogEntry faults ts size).wp
      (fun a s' => ¬InsertFails faults ts s ∧ Created s ts size a s')
      (fun _ s' => Abandoned faults ts size s s') s := by
  refine wp_seq (wp_allocateLogInsertLogCache faults ts size s) ?_
  rintro a s' ⟨new, s₁, hchosen, rfl, hok, rfl⟩
  simp only [wp_bind, wp_modify, wp_pure]
  exact ⟨hok, created_of_chosen hp hsize hchosen fun hmem => hok (.inr hmem)⟩

/-! ### The layout is kept -/

theorem insertSlot_perm (ts : ℕ) (a : Addr) (slots : List (ℕ × Addr)) :
    (insertSlot ts a slots).Perm ((ts, a) :: slots) := by
  rw [insertSlot]
  refine List.perm_middle.trans ?_
  rw [List.takeWhile_append_dropWhile]

/-- The slot is there, with those that were. -/
theorem mem_insertSlot {ts : ℕ} {a : Addr} {slots : List (ℕ × Addr)} {p : ℕ × Addr} :
    p ∈ insertSlot ts a slots ↔ p = (ts, a) ∨ p ∈ slots := by
  rw [(insertSlot_perm ts a slots).mem_iff, List.mem_cons]

/-- The slots stay in the order of their timestamps. -/
theorem insertSlot_sorted {ts : ℕ} (a : Addr) {slots : List (ℕ × Addr)}
    (h : (slots.map Prod.fst).Pairwise (· < ·)) (hts : ts ∉ slots.map Prod.fst) :
    ((insertSlot ts a slots).map Prod.fst).Pairwise (· < ·) := by
  induction slots with
  | nil => simp [insertSlot]
  | cons p slots ih =>
    rw [List.map_cons, List.pairwise_cons] at h
    rw [List.map_cons, List.mem_cons, not_or] at hts
    by_cases hlt : p.1 < ts
    · have hcons : insertSlot ts a (p :: slots) = p :: insertSlot ts a slots := by
        simp [insertSlot, hlt]
      rw [hcons, List.map_cons, List.pairwise_cons]
      refine ⟨fun t ht => ?_, ih h.2 hts.2⟩
      obtain ⟨q, hq, rfl⟩ := List.mem_map.1 ht
      rcases mem_insertSlot.1 hq with rfl | hq
      · exact hlt
      · exact h.1 _ (List.mem_map_of_mem hq)
    · have hcons : insertSlot ts a (p :: slots) = (ts, a) :: p :: slots := by
        simp [insertSlot, hlt]
      have hts' : ts < p.1 := by omega
      rw [hcons, List.map_cons, List.pairwise_cons, List.map_cons, List.pairwise_cons]
      refine ⟨fun t ht => ?_, h⟩
      rcases List.mem_cons.1 ht with rfl | ht
      · exact hts'
      · exact hts'.trans (h.1 t ht)

/-- To be apart goes both ways. -/
theorem Apart.symm {s : State} {a b : Addr} (h : Apart s a b) : Apart s b a :=
  fun e => (h e.symm).symm

variable {s s' : State} {ts size : ℕ} {a : Addr}

/-- The entries in the chunk of the new one end before it. -/
theorem Created.endOf_le (hp : Placed s) (h : Created s ts size a s') {p : ℕ × Addr}
    (hmem : p ∈ s.logCache) (hc : p.2.chunk = a.chunk) : s.endOf p.2 ≤ a.offset := by
  have hin := hp.inChunk p hmem
  rcases h.chunk with ⟨hnew, -⟩ | ⟨hlast, hptr, -⟩
  · have := hin.chunk
    omega
  · rw [← hptr]
    exact hin.used (by rw [hlast, hc])

/-- The new entry is at an address of its own. -/
theorem Created.ne (hp : Placed s) (h : Created s ts size a s') {p : ℕ × Addr}
    (hmem : p ∈ s.logCache) : p.2 ≠ a := by
  intro e
  have hle := h.endOf_le hp hmem (congrArg Addr.chunk e)
  rw [State.endOf, e, sizeofLogEntry] at hle
  omega

/-- Entries that were there keep their ends. -/
theorem Created.endOf_eq (hp : Placed s) (h : Created s ts size a s') {p : ℕ × Addr}
    (hmem : p ∈ s.logCache) : s'.endOf p.2 = s.endOf p.2 := by
  rw [State.endOf, State.endOf, (h.others p.2 (h.ne hp hmem)).2.1]

/-- Chunks are not given back. -/
theorem Created.chunks_le (h : Created s ts size a s') : s.chunks ≤ s'.chunks := by
  rcases h.chunk with ⟨-, hnew, -⟩ | ⟨-, -, hlast, -⟩
  · omega
  · omega

/-- The entry is in a chunk that is allocated. -/
theorem Created.chunk_lt (hp : Placed s) (h : Created s ts size a s') : a.chunk < s'.chunks := by
  rcases h.chunk with ⟨hchunk, hnew, -⟩ | ⟨hstart, -, hlast, -⟩
  · omega
  · rw [hlast]
    exact (hp.current a.chunk hstart).1

/-- The end of the new entry. -/
theorem Created.endOf_new (h : Created s ts size a s') :
    s'.endOf a = a.offset + (sizeofLogEntry + size) := by
  rw [State.endOf, h.capacityBytes, Nat.add_assoc]

/-- **A new entry keeps the layout.** -/
theorem Created.placed (hp : Placed s) (h : Created s ts size a s') : Placed s' := by
  refine ⟨?_, ?_, ?_, ?_, ?_⟩
  · rw [h.logCache]
    exact insertSlot_sorted a hp.sorted h.fresh
  · intro p hmem
    rw [h.logCache, mem_insertSlot] at hmem
    rcases hmem with rfl | hmem
    · refine ⟨h.chunk_lt hp, h.offset, h.entries, ?_, fun _ => ?_⟩
      · have hroom := h.room
        rw [h.endOf_new]
        show a.offset + (sizeofLogEntry + size) ≤ s'.chunkSize a.chunk
        omega
      · rw [h.endOf_new, h.ptr]
        exact le_rfl
    · have hin := hp.inChunk p hmem
      refine ⟨hin.chunk.trans_le h.chunks_le, hin.offset, ?_, ?_, fun hstart => ?_⟩
      · rw [(h.others p.2 (h.ne hp hmem)).1, hin.entries]
      · rw [h.endOf_eq hp hmem, h.chunkSize _ hin.chunk]
        exact hin.endOf
      · have hc : a.chunk = p.2.chunk := Option.some.inj (h.startPtr.symm.trans hstart)
        rw [h.endOf_eq hp hmem, h.ptr]
        exact (h.endOf_le hp hmem hc.symm).trans (Nat.le_add_right _ _)
  · rw [h.logCache, (insertSlot_perm ts a s.logCache).pairwise_iff (fun h => Apart.symm h),
      List.pairwise_cons]
    constructor
    · intro p hmem hc
      rw [h.endOf_eq hp hmem]
      exact .inr (h.endOf_le hp hmem hc.symm)
    · refine hp.apart.imp_of_mem fun {p q} hpm hqm hapart hc => ?_
      rw [h.endOf_eq hp hpm, h.endOf_eq hp hqm]
      exact hapart hc
  · intro c hc
    obtain rfl : a.chunk = c := Option.some.inj (h.startPtr.symm.trans hc)
    have hroom := h.room
    have hoff := h.offset
    refine ⟨h.chunk_lt hp, by rw [h.ptr]; rfl, ?_, ?_⟩
    · rw [h.ptr]
      simp only [Addr.add, sizeofLogEntry]
      omega
    · rw [h.ptr]
      simp only [Addr.add]
      omega
  · intro hnone
    rw [h.startPtr] at hnone
    cases hnone

/-- A new entry leaves nothing freed that is needed. -/
theorem Created.wf (hw : Wf s) (h : Created s ts size a s') : Wf s' := by
  have halloc : ∀ c, s.Allocated c → s'.Allocated c := by
    rintro c ⟨hlt, hfreed⟩
    exact ⟨hlt.trans_le h.chunks_le, by rwa [h.freed]⟩
  have hnew : s'.Allocated a.chunk := by
    rcases h.chunk with ⟨hchunk, -⟩ | ⟨hlast, -⟩
    · refine ⟨h.chunk_lt hw.toPlaced, ?_⟩
      rw [h.freed]
      intro hfreed
      exact absurd (hw.freed _ hfreed) (by omega)
    · exact halloc _ (hw.lastChunk _ hlast)
  refine ⟨h.placed hw.toPlaced, fun p hp => ?_, fun c hc => ?_, fun c hc => ?_⟩
  · rw [h.logCache, mem_insertSlot] at hp
    rcases hp with rfl | hp
    · exact hnew
    · exact halloc _ (hw.entries p hp)
  · obtain rfl : a.chunk = c := Option.some.inj (h.startPtr.symm.trans hc)
    exact hnew
  · rw [h.freed] at hc
    exact (hw.freed c hc).trans_le h.chunks_le

/-- The log after `sivfs_init_log`. -/
def State.empty : State where
  masterLog := ⟨none, 0, ⟨0, 0⟩, none⟩
  masterLogDeletedTs := 0
  logCache := []
  logEntry := fun _ => .initial
  word := fun _ => none
  chunks := 0
  chunkSize := fun _ => 0
  freed := []

/-- The log at the start. -/
theorem empty_wf : Wf .empty := by
  refine ⟨⟨?_, ?_, ?_, ?_, ?_⟩, ?_, ?_, ?_⟩ <;> simp [State.empty]

end SeqLog
end Sivfs
