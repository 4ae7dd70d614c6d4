/-
# Write-sets as bytes

`kern/sivfs_writeset.h`: `struct sivfs_writeset_entry`, `sivfs_wse_size`,
`sivfs_wse_to_stream_info` and the `while(size_left)` walk that
`sivfs_add_metadata_to_changes` and every reader of the log share; and
`sivfs_copy_argstruct_to_log_entry` (`kern/module.c`), through which the bytes
arrive from user space.

An entry is five 64-bit words followed by further value words:

| bytes | field |
| ---: | --- |
| 0–7 | `ino` |
| 8–15 | `file_offset` |
| 16–23 | `address` |
| 24–31 | `stream_control` |
| 32–39 | `value` |

`stream_control` is `0` for a plain entry; otherwise bit 63 marks a stream, bit
62 a constant stream, and the low 62 bits count the words written.  A stream
that is not constant carries that many value words.
-/

import Sivfs.Basic

namespace Sivfs

/-- Kernel memory from `ws->entries` on: what the walk reads, inside the
write-set and past its end. -/
abbrev Buffer := ℕ → UInt8

/-- A little-endian 64-bit load. -/
def loadWord (b : Buffer) (o : ℕ) : ℕ :=
  (b o).toNat + 2 ^ 8 * (b (o + 1)).toNat + 2 ^ 16 * (b (o + 2)).toNat +
    2 ^ 24 * (b (o + 3)).toNat + 2 ^ 32 * (b (o + 4)).toNat + 2 ^ 40 * (b (o + 5)).toNat +
    2 ^ 48 * (b (o + 6)).toNat + 2 ^ 56 * (b (o + 7)).toNat

/-- A little-endian 64-bit store. -/
def storeWord (b : Buffer) (o v : ℕ) : Buffer := fun i =>
  if o ≤ i ∧ i < o + 8 then UInt8.ofNat (v / 2 ^ (8 * (i - o)) % 256) else b i

/-- A word is as its eight bytes are. -/
theorem loadWord_eq {b b' : Buffer} {o o' : ℕ} (h : ∀ i < 8, b (o + i) = b' (o' + i)) :
    loadWord b o = loadWord b' o' := by
  have h0 := h 0 (by omega)
  rw [Nat.add_zero, Nat.add_zero] at h0
  simp only [loadWord, h0, h 1 (by omega), h 2 (by omega), h 3 (by omega), h 4 (by omega),
    h 5 (by omega), h 6 (by omega), h 7 (by omega)]

theorem loadWord_congr {b b' : Buffer} {o : ℕ} (h : ∀ i, o ≤ i → b i = b' i) :
    loadWord b o = loadWord b' o :=
  loadWord_eq fun i _ => h (o + i) (Nat.le_add_right o i)

/-- `struct sivfs_writeset_entry`. -/
structure WsEntry where
  /-- Inode number of the backing file, filled in by the kernel. -/
  ino : ℕ
  /-- Byte offset in that file, filled in by the kernel. -/
  fileOffset : ℕ
  /-- Virtual address written. -/
  address : ℕ
  /-- Stream flags and word count. -/
  streamControl : ℕ
  /-- First value word. -/
  value : ℕ
  deriving DecidableEq, Repr

/-- `sizeof(struct sivfs_writeset_entry)`. -/
def sizeofWsEntry : ℕ := 40

/-- The entry whose first byte is `b o`. -/
def entryAt (b : Buffer) (o : ℕ) : WsEntry where
  ino := loadWord b o
  fileOffset := loadWord b (o + 8)
  address := loadWord b (o + 16)
  streamControl := loadWord b (o + 24)
  value := loadWord b (o + 32)

/-- `struct sivfs_wse_stream_info`, the unpacked `stream_control`. -/
structure StreamInfo where
  valueWords : ℕ
  destWords : ℕ
  isStream : Bool
  isConstStream : Bool
  deriving DecidableEq, Repr

/-- `sivfs_wse_size`: the size of an entry in `size_t` arithmetic. -/
def wseSize (info : StreamInfo) : ℕ :=
  (sizeofWsEntry + (info.valueWords + (u64Size - 1)) * wordBytes) % u64Size

/-- The low bits of `stream_control`, `sc & ~SIVFS_STREAM_FLAGS`. -/
def streamWords (sc : ℕ) : ℕ := sc % 2 ^ 62

/-- The fields unpacked from the `stream_control` of a stream. -/
def unpackStream (sc : ℕ) : StreamInfo where
  valueWords := if sc.testBit 62 then 1 else streamWords sc
  destWords := streamWords sc
  isStream := true
  isConstStream := sc.testBit 62

/-- `sivfs_wse_to_stream_info` on an entry with the given `stream_control` and
`size` bytes left.  The size check is made for streams only. -/
def wseToStreamInfo (sc size : ℕ) : Except Errno StreamInfo :=
  if sc = 0 then .ok ⟨1, 1, false, false⟩
  else if sc.testBit 63 = false then .error .einval
  else if streamWords sc = 0 then .error .einval
  else if size < wseSize (unpackStream sc) then .error .einval
  else .ok (unpackStream sc)

/-- The length of an entry in exact arithmetic: four header words and every
value word. -/
def StreamInfo.bytes (info : StreamInfo) : ℕ := 32 + wordBytes * info.valueWords

/-- An entry the loop looks at: where it is, how many bytes are left there, and
what `sivfs_wse_to_stream_info` makes of it. -/
structure Visit where
  off : ℕ
  left : ℕ
  info : Except Errno StreamInfo

/-- How a walk stands after some turns of the loop. -/
inductive WalkEnd where
  | running
  /-- `size_left` is `0`. -/
  | done
  /-- The loop body left the loop with `rc == 0`. -/
  | stopped
  | error (e : Errno)
  deriving DecidableEq, Repr

/-- What the loop body does with the entry it is at. -/
inductive BodyResult where
  /-- Goes on, storing nothing into the write-set. -/
  | next
  /-- Goes on, having stored `ino` and `file_offset` into the entry. -/
  | tag (ino fileOffset : ℕ)
  /-- `goto out`. -/
  | stop
  /-- `rc = e; goto error0`. -/
  | fail (e : Errno)
  /-- Never gets to the next turn: it spins on a lock that nobody releases. -/
  | hang
  deriving DecidableEq, Repr

/-- The write-set after the stores of the loop body to the entry at `o`. -/
def BodyResult.store (b : Buffer) (o : ℕ) : BodyResult → Buffer
  | .tag ino fileOffset => storeWord (storeWord b o ino) (o + 8) fileOffset
  | _ => b

/-- A loop body, with what it remembers from turn to turn. -/
abbrev LoopBody (σ : Type*) := σ → WsEntry → BodyResult × σ

/-- A loop body that goes on whatever the entry is. -/
def readOnly : LoopBody Unit := fun s _ => (.next, s)

/-- What some turns of the loop have done. -/
structure Walked where
  /-- The entries looked at. -/
  visits : List Visit
  how : WalkEnd
  /-- The write-set. -/
  mem : Buffer

/-- At most `fuel` turns of `while(size_left)` from offset `off` with `left`
bytes to go.  Advancing the pointer and decreasing `size_left` are `size_t`
arithmetic.  A body that hangs keeps the loop running for good. -/
def wsWalk {σ : Type*} (body : LoopBody σ) : ℕ → σ → Buffer → ℕ → ℕ → Walked
  | 0, _, b, _, left => ⟨[], if left = 0 then .done else .running, b⟩
  | fuel + 1, s, b, off, left =>
    if left = 0 then ⟨[], .done, b⟩
    else
      match wseToStreamInfo (entryAt b off).streamControl left with
      | .error e => ⟨[⟨off, left, .error e⟩], .error e, b⟩
      | .ok info =>
        match body s (entryAt b off) with
        | (.fail e, _) => ⟨[⟨off, left, .ok info⟩], .error e, b⟩
        | (.stop, _) => ⟨[⟨off, left, .ok info⟩], .stopped, b⟩
        | (.hang, _) => ⟨[⟨off, left, .ok info⟩], .running, b⟩
        | (r, s) =>
          let w := wsWalk body fuel s (r.store b off) ((off + wseSize info) % u64Size)
            ((left + (u64Size - wseSize info)) % u64Size)
          { w with visits := ⟨off, left, .ok info⟩ :: w.visits }

/-! ### Where the bytes come from -/

/-- `MAX_COMMIT_SIZE`. -/
def maxCommitSize : ℕ := 4096 * 64

/-- `SIVFS_WRITESET_DISABLED_FLAG` of a `__size_bytes` word. -/
def wsIsDisabled (sizeBytes : ℕ) : Bool := sizeBytes.testBit 63

/-- The write-set half of a `struct sivfs_log_entry` before it is committed. -/
structure LogWriteset where
  /-- Memory from `ws.entries` on. -/
  mem : Buffer
  /-- `ws.__size_bytes`. -/
  sizeBytes : ℕ
  aborted : Bool
  wsHasMetadata : Bool

/-- Which of the fallible steps of `sivfs_copy_argstruct_to_log_entry` fail. -/
structure CopyFaults where
  /-- `copy_from_user` of the argument struct. -/
  args : Bool
  /-- `kzalloc` in `sivfs_writeset_reserve`. -/
  reserve : Bool
  /-- `copy_from_user` of the entries. -/
  entries : Bool
  deriving DecidableEq, Repr

/-- `sivfs_copy_argstruct_to_log_entry`: `sizeBytes` and `user` are the
`__size_bytes` and the bytes at `entries` of the caller's write-set, `kern` is
what the kernel buffer holds past the bytes copied. -/
def copyArgstructToLogEntry (faults : CopyFaults) (sizeBytes : ℕ) (user kern : Buffer) :
    Except Errno LogWriteset :=
  if faults.args then .error .efault
  else if wsIsDisabled sizeBytes then .error .efault
  else if maxCommitSize < sizeBytes then .error .efault
  else if faults.reserve then .error .enomem
  else if faults.entries then .error .efault
  else .ok
    { mem := fun o => if o < sizeBytes then user o else kern o
      sizeBytes := sizeBytes
      aborted := false
      wsHasMetadata := false }

/-- What user space can hand in is at most `MAX_COMMIT_SIZE` bytes, neither
aborted nor tagged. -/
theorem copyArgstructToLogEntry_ok {faults : CopyFaults} {sizeBytes : ℕ} {user kern : Buffer}
    {w : LogWriteset} (h : copyArgstructToLogEntry faults sizeBytes user kern = .ok w) :
    w.sizeBytes ≤ maxCommitSize ∧ w.aborted = false ∧ w.wsHasMetadata = false := by
  unfold copyArgstructToLogEntry at h
  split_ifs at h
  obtain rfl := Except.ok.inj h
  rename_i hsize _ _
  exact ⟨not_lt.1 hsize, rfl, rfl⟩

end Sivfs
