/-
# A log entry is created or it is not

`sivfs_create_log_entry` in any state of the log and with any failure.  What a call does
that fails:

| failure | what is freed |
| --- | --- |
| `kmalloc` | nothing |
| `radix_tree_insert`, in a new chunk | the new chunk |
| `radix_tree_insert`, in the last chunk | the last chunk |

In the last line `new_chunk_start_ptr` is `chunk_start_ptr`, and the chunk that is freed
holds entries of `log_cache`.
-/

import Sivfs.SeqLog.Create

open Function

namespace Sivfs
namespace SeqLog

open Call
open Commit (sizeofLogEntry sizeofPointer)

/-- The byte at `b` belongs to the entry at `a`, or to its write-set. -/
def Occupies (s : State) (a b : Addr) : Prop :=
  (b.chunk = a.chunk ∧ a.offset ≤ b.offset ∧ b.offset < a.offset + sizeofLogEntry) ∨
    ∃ w, (s.logEntry a).entries = some w ∧ b.chunk = w.chunk ∧ w.offset ≤ b.offset ∧
      b.offset < w.offset + (s.logEntry a).capacityBytes

/-- A call that fails leaves the log as it is, and everything it needs allocated. -/
structure Undone (s s' : State) : Prop where
  masterLog : s'.masterLog = s.masterLog
  logCache : s'.logCache = s.logCache
  links : ∀ p ∈ s.logCache, (s'.logEntry p.2).prev = (s.logEntry p.2).prev ∧
    (s'.logEntry p.2).next = (s.logEntry p.2).next
  entries : ∀ p ∈ s'.logCache, s'.Allocated p.2.chunk
  lastChunk : ∀ c, s'.masterLog.chunkStartPtr = some c → s'.Allocated c

/-- A call that succeeds: the bytes of the new entry are in its chunk and in no other
entry. -/
structure Entered (ts size : ℕ) (a : Addr) (s' : State) : Prop where
  mem : (ts, a) ∈ s'.logCache
  capacityBytes : (s'.logEntry a).capacityBytes = size
  fits : ∀ b, Occupies s' a b →
    s'.Allocated b.chunk ∧ sizeofPointer ≤ b.offset ∧ b.offset < s'.chunkSize b.chunk
  alone : ∀ b, Occupies s' a b → ∀ p ∈ s'.logCache, p ≠ (ts, a) → ¬Occupies s' p.2 b

/-- The call does all or nothing. -/
def AllOrNothing (faults : Faults) (ts size : ℕ) (s : State) : Prop :=
  (createLogEntry faults ts size).wp (Entered ts size) (fun _ => Undone s) s

variable {s s' : State} {ts size : ℕ} {a : Addr}

/-- The bytes of an entry, from its beginning to its end. -/
theorem InChunk.occupies_iff (h : InChunk s a) {b : Addr} :
    Occupies s a b ↔ b.chunk = a.chunk ∧ a.offset ≤ b.offset ∧ b.offset < s.endOf a := by
  rw [Occupies, h.entries, State.endOf]
  simp only [Option.some.injEq, exists_eq_left', Addr.add]
  omega

/-- **An entry that is created is entered**: it is linked, alone in its bytes, and fits. -/
theorem Created.entered (hw : Wf s) (h : Created s ts size a s') : Entered ts size a s' := by
  have hp' := h.placed hw.toPlaced
  have hmem : (ts, a) ∈ s'.logCache := by
    rw [h.logCache, mem_insertSlot]
    exact .inl rfl
  have hin : InChunk s' a := hp'.inChunk _ hmem
  refine ⟨hmem, h.capacityBytes, fun b hb => ?_, fun b hb p hp hne hpb => ?_⟩
  · obtain ⟨hchunk, hle, hlt⟩ := hin.occupies_iff.1 hb
    rw [hchunk]
    exact ⟨(h.wf hw).entries _ hmem, h.offset.trans hle, hlt.trans_le hin.endOf⟩
  · obtain ⟨hchunk, hle, hlt⟩ := hin.occupies_iff.1 hb
    obtain ⟨hchunk', hle', hlt'⟩ := (hp'.inChunk p hp).occupies_iff.1 hpb
    rw [h.logCache, mem_insertSlot] at hp
    rcases hp with rfl | hp
    · exact hne rfl
    · have hend := h.endOf_le hw.toPlaced hp (hchunk'.symm.trans hchunk)
      rw [h.endOf_eq hw.toPlaced hp] at hlt'
      omega

/-- A failure in a new chunk frees that chunk only. -/
theorem undone_of_newChunk {new : NewChunk} {s₁ : State} (hw : Wf s)
    (hlt : s.masterLog.bytesRemainingChunk < bytesToAllocate size)
    (hchosen : Chosen s s₁ (bytesToAllocate size) new) :
    Undone s ((s₁.withEntry new size).kfree new.startPtr) := by
  rw [Chosen, if_pos hlt] at hchosen
  obtain ⟨rfl, rfl⟩ := hchosen
  have hkept : ∀ c, s.Allocated c → c < s.chunks + 1 ∧ c ∉ s.chunks :: s.freed := by
    rintro c ⟨hc, hfreed⟩
    rw [List.mem_cons, not_or]
    exact ⟨by omega, by omega, hfreed⟩
  refine ⟨rfl, rfl, fun p hp => ?_, fun p hp => hkept _ (hw.entries p hp), fun c hc =>
    hkept c (hw.lastChunk c hc)⟩
  have hne : p.2 ≠ ⟨s.chunks, sizeofPointer⟩ := by
    intro e
    have := (hw.inChunk p hp).chunk
    rw [e] at this
    exact absurd this (lt_irrefl _)
  simp [State.kfree, State.withEntry, State.modifyEntry, update_of_ne hne]

/-- A failure in the last chunk frees that chunk. -/
theorem not_undone_of_lastChunk {new : NewChunk} {s₁ : State} (hw : Wf s) (hsize : size < 2 ^ 63)
    (hle : bytesToAllocate size ≤ s.masterLog.bytesRemainingChunk)
    (hchosen : Chosen s s₁ (bytesToAllocate size) new) :
    ¬Undone s ((s₁.withEntry new size).kfree new.startPtr) := by
  rw [Chosen, if_neg (not_lt.2 hle)] at hchosen
  obtain ⟨rfl, rfl⟩ := hchosen
  intro h
  have hsome : ∃ c, s₁.masterLog.chunkStartPtr = some c := by
    rw [← Option.ne_none_iff_exists']
    intro hnone
    have h₀ := hw.noChunk hnone
    rw [bytesToAllocate_eq hsize, sizeofLogEntry] at hle
    omega
  obtain ⟨c, hc⟩ := hsome
  simp only [hc] at h
  exact (h.lastChunk c hc).2 List.mem_cons_self

/-- **A call is all-or-nothing, except if `radix_tree_insert` fails for an entry that fits
into the last chunk.** -/
theorem all_or_nothing_iff {faults : Faults} (hw : Wf s) (hsize : size < 2 ^ 63) :
    AllOrNothing faults ts size s ↔
      ¬(InsertFails faults ts s ∧ bytesToAllocate size ≤ s.masterLog.bytesRemainingChunk) := by
  have hcall := wp_createLogEntry faults ts hw.toPlaced hsize
  constructor
  · rintro hall ⟨hins, hle⟩
    obtain ⟨hok, herr⟩ := wp_iff.1 hcall
    obtain ⟨-, hundone⟩ := wp_iff.1 hall
    rcases hrun : createLogEntry faults ts size s with ⟨e | a, s'⟩
    · rcases herr e s' hrun with ⟨hlt, -⟩ | ⟨-, new, s₁, hchosen, rfl⟩
      · omega
      · exact not_undone_of_lastChunk hw hsize hle hchosen (hundone e _ hrun)
    · exact (hok a s' hrun).1 hins
  · intro hno
    refine wp_mono hcall (fun a s' h => h.2.entered hw) fun e s' h => ?_
    rcases h with ⟨-, rfl⟩ | ⟨hins, new, s₁, hchosen, rfl⟩
    · exact ⟨rfl, rfl, fun _ _ => ⟨rfl, rfl⟩, hw.entries, hw.lastChunk⟩
    · exact undone_of_newChunk hw (not_le.1 fun hle => hno ⟨hins, hle⟩) hchosen

/-- The log with one entry of one word, in a chunk with room for more. -/
def oneEntry : State := (createLogEntry ⟨false, false⟩ 1 40).after .empty

/-- The log with one entry is well formed. -/
theorem oneEntry_wf : Wf oneEntry := by
  have h := wp_createLogEntry ⟨false, false⟩ 1 empty_wf.toPlaced
    (show 40 < 2 ^ 63 by decide +kernel)
  have hrun : createLogEntry ⟨false, false⟩ 1 40 .empty = (.ok ⟨0, 8⟩, oneEntry) :=
    Prod.ext rfl rfl
  exact ((wp_iff.1 h).1 _ _ hrun).2.wf empty_wf

/-- A second entry that does not fit into the chunk of the first: the insertion fails,
and the first entry stays. -/
theorem all_or_nothing_iff_newChunk : InsertFails ⟨false, true⟩ 2 oneEntry ∧
    AllOrNothing ⟨false, true⟩ 2 (2 ^ 21) oneEntry := by
  refine ⟨.inl rfl, (all_or_nothing_iff oneEntry_wf (by decide +kernel)).2 fun hno => ?_⟩
  exact absurd hno.2 (by decide +kernel)

/-- **The second commit fails, and the chunk of the first one is freed.** -/
theorem not_all_or_nothing : ¬∀ (faults : Faults) (ts size : ℕ) (s : State), Wf s →
    size < 2 ^ 63 → AllOrNothing faults ts size s := by
  intro hall
  have h := hall ⟨false, true⟩ 2 40 oneEntry oneEntry_wf (by decide +kernel)
  obtain ⟨-, herr⟩ := wp_iff.1 h
  have hrun : createLogEntry ⟨false, true⟩ 2 40 oneEntry =
      (.error .enomem, (createLogEntry ⟨false, true⟩ 2 40).after oneEntry) :=
    Prod.ext rfl rfl
  have halloc := (herr _ _ hrun).entries (1, ⟨0, 8⟩) (by decide +kernel)
  exact halloc.2 (by decide +kernel)

end SeqLog
end Sivfs
