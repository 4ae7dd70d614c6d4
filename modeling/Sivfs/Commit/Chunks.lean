/-
# The memory of the log

`_sivfs_allocate_log_insert_log_cache` (`kern/sivfs_shared_state.c`) with
`SIVFS_FIGURE_SEQLOG_SEQ`, the default: log entries are cut from chunks, and a new
chunk is made when an entry does not fit into what is left of the last one.

| failure | what the code frees |
| --- | --- |
| `kmalloc` of a new chunk | nothing |
| `radix_tree_insert`, the entry in a new chunk | the new chunk |
| `radix_tree_insert`, the entry in the last chunk | the last chunk, with the entries in it |

In the last case the entries are still in `log_cache` and linked, and the next
commits cut their entries from the same chunk.

`committed_prefix` is what holds of the log in runs in which this does not happen.
-/

import Sivfs.Commit.Prefix
import Sivfs.Update.Metadata

namespace Sivfs
namespace Commit

/-- `sizeof(struct sivfs_log_entry)`. -/
def sizeofLogEntry : ℕ := 56

/-- `SIVFS_LOG_CHUNK_SIZE`. -/
def logChunkSize : ℕ := 1024

/-- `sizeof(void*)`: a chunk starts with the address of the one before. -/
def sizeofPointer : ℕ := 8

/-- `bytes_to_allocate`. -/
def bytesToAllocate (ws : List WsEntry) : ℕ := sizeofLogEntry + wsBytes ws

/-- `struct sivfs_log` and what the threads share. -/
structure LogState (ι : Type*) where
  shared : State ι
  /-- `bytes_remaining_chunk`. -/
  bytesRemainingChunk : ℕ
  /-- The entries in the chunk at `chunk_start_ptr`. -/
  chunk : List ℕ
  /-- The chunk at `chunk_start_ptr` has been freed. -/
  chunkFreed : Bool

/-- The turns of the protocol, and the failure of `radix_tree_insert`; the failure of
`kmalloc` is `createFails`. -/
inductive LogAct (ι : Type*) where
  | turn (a : Act ι)
  | insertFails (i : ι)

/-- `kfree` of memory with these entries in it. -/
def State.free {ι : Type*} (s : State ι) (keys : List ℕ) : State ι :=
  { s with log := fun t => (s.log t).map fun e =>
      if t ∈ keys then { e with freed := true } else e }

section Step

variable {ι : Type*} [DecidableEq ι]

/-- The entry `n` is cut from a chunk. -/
def LogState.place (s : LogState ι) (n : ℕ) (ws : List WsEntry) (shared : State ι) : LogState ι :=
  if s.bytesRemainingChunk < bytesToAllocate ws then
    { shared := shared
      bytesRemainingChunk :=
        max logChunkSize (bytesToAllocate ws + sizeofPointer) - sizeofPointer - bytesToAllocate ws
      chunk := [n]
      chunkFreed := false }
  else
    { shared := if s.chunkFreed then shared.free [n] else shared
      bytesRemainingChunk := s.bytesRemainingChunk - bytesToAllocate ws
      chunk := n :: s.chunk
      chunkFreed := s.chunkFreed }

/-- One turn. -/
def logStep (s : LogState ι) : LogAct ι → Option (LogState ι)
  | .turn (.createFails i) =>
    match s.shared.pc i with
    | .create ws =>
      if s.bytesRemainingChunk < bytesToAllocate ws then
        (step s.shared (.createFails i)).map fun shared => { s with shared := shared }
      else none
    | _ => none
  | .turn (.next i) =>
    match s.shared.pc i with
    | .create ws => (step s.shared (.next i)).map (s.place (s.shared.commitStartedTs + 1) ws)
    | _ => (step s.shared (.next i)).map fun shared => { s with shared := shared }
  | .turn a => (step s.shared a).map fun shared => { s with shared := shared }
  | .insertFails i =>
    match s.shared.pc i with
    | .create ws =>
      (step s.shared (.createFails i)).map fun shared =>
        if s.bytesRemainingChunk < bytesToAllocate ws then { s with shared := shared }
        else { s with shared := shared.free s.chunk, chunkFreed := true }
    | _ => none

/-- The commit protocol of the threads `ι`, with the memory of the log. -/
def logProtocol (ι : Type*) [DecidableEq ι] : Machine (LogState ι) (LogAct ι) where
  init s := Init s.shared ∧ s.bytesRemainingChunk = 0 ∧ s.chunk = [] ∧ s.chunkFreed = false
  step := logStep

/-- The log is kept, and `radix_tree_insert` does not fail on an entry that fits into
the last chunk. -/
def ChunkKept (s : LogState ι) : LogAct ι → Prop
  | .turn a => LogKept s.shared a
  | .insertFails i => ∀ ws, s.shared.pc i = .create ws → s.bytesRemainingChunk < bytesToAllocate ws

/-! ### Without the memory -/

variable {s s' : LogState ι}

/-- **A turn that loses no chunk is a turn of the protocol.** -/
theorem logStep_shared {a : LogAct ι} (hf : s.chunkFreed = false) (hk : ChunkKept s a)
    (h : logStep s a = some s') :
    s'.chunkFreed = false ∧ ∃ a', LogKept s.shared a' ∧ step s.shared a' = some s'.shared := by
  have hsame : ∀ a', LogKept s.shared a' →
      (step s.shared a').map (fun shared => { s with shared := shared }) = some s' →
      s'.chunkFreed = false ∧ ∃ a', LogKept s.shared a' ∧ step s.shared a' = some s'.shared := by
    intro a' hk h
    obtain ⟨shared, hstep, rfl⟩ := Option.map_eq_some_iff.1 h
    exact ⟨hf, a', hk, hstep⟩
  cases a with
  | turn a =>
    cases a with
    | createFails i =>
      simp only [logStep] at h
      split at h
      · split_ifs at h
        exact hsame (.createFails i) trivial h
      · simp at h
    | next i =>
      simp only [logStep] at h
      split at h
      · obtain ⟨shared, hstep, rfl⟩ := Option.map_eq_some_iff.1 h
        simp only [LogState.place, hf, Bool.false_eq_true, if_false]
        split_ifs
        · exact ⟨rfl, .next i, trivial, hstep⟩
        · exact ⟨rfl, .next i, trivial, hstep⟩
      · exact hsame (.next i) trivial h
    | checkout i => exact hsame (.checkout i) trivial h
    | pause i => exact hsame (.pause i) trivial h
    | begin i ws => exact hsame (.begin i ws) trivial h
    | interrupt i => exact hsame (.interrupt i) trivial h
    | acquire i => exact hsame (.acquire i) trivial h
    | deleteLog stop => exact hsame (.deleteLog stop) hk h
  | insertFails i =>
    simp only [logStep] at h
    split at h
    · rename_i ws hpc
      obtain ⟨shared, hstep, rfl⟩ := Option.map_eq_some_iff.1 h
      rw [if_pos (hk ws hpc)]
      exact ⟨hf, .createFails i, trivial, hstep⟩
    · simp at h

theorem chunkFreed_eq_false (h : (logProtocol ι).ReachableWith ChunkKept s) :
    s.chunkFreed = false := by
  refine h.invariant (I := fun s => s.chunkFreed = false) (fun s hi => ?_)
    fun _ _ _ _ hf hk hstep => (logStep_shared hf hk hstep).1
  obtain ⟨-, -, -, hfreed⟩ := hi
  exact hfreed

theorem shared_reachable (h : (logProtocol ι).ReachableWith ChunkKept s) :
    (protocol ι).ReachableWith LogKept s.shared := by
  refine h.invariant (I := fun s => (protocol ι).ReachableWith LogKept s.shared)
    (fun s hi => ?_) fun s a s' hr hi hk hstep => ?_
  · obtain ⟨hinit, -⟩ := hi
    exact .init hinit
  · obtain ⟨-, a', hk', hstep'⟩ := logStep_shared (chunkFreed_eq_false hr) hk hstep
    exact .step a' hi hk' hstep'

theorem shared_runs (hs : (logProtocol ι).ReachableWith ChunkKept s)
    (h : (logProtocol ι).RunsWith ChunkKept s s') :
    (protocol ι).RunsWith LogKept s.shared s'.shared := by
  refine h.keeps (R := fun s' => (protocol ι).RunsWith LogKept s.shared s'.shared) hs .refl ?_
  intro s₁ a s₂ hr hrun hk hstep
  obtain ⟨-, a', hk', hstep'⟩ := logStep_shared (chunkFreed_eq_false hr) hk hstep
  exact .step a' hrun hk' hstep'

/-! ### The committed prefix -/

/-- The committed prefix of the log and what becomes of it. -/
structure CommittedPrefix (s : LogState ι) : Prop where
  master_le : s.shared.masterTs ≤ s.shared.commitStartedTs
  /-- With the lock free, the entries not garbage collected are consecutive up to
  `commit_started_ts` and linked. -/
  gapless : s.shared.commitLock = none → ∃ d ≤ s.shared.masterTs,
    (∀ t, (s.shared.deref t).isSome = true ↔
      d ≤ t ∧ 1 ≤ t ∧ t ≤ s.shared.commitStartedTs) ∧
    ∀ t e, s.shared.deref t = some e → e.ts = (t : Ts) ∧
      e.next = if t < s.shared.commitStartedTs then some (t + 1) else none
  /-- `master_ts` advances by one. -/
  advances : ∀ a s', ChunkKept s a → (logProtocol ι).step s a = some s' →
    s'.shared.masterTs = s.shared.masterTs ∨ s'.shared.masterTs = s.shared.masterTs + 1
  filled : ∀ t e, s.shared.log t = some e → t ≤ s.shared.masterTs →
    e.commitStatusFilledIn = true
  /-- Whatever happens next, decided entries keep their status and write-set. -/
  stable : ∀ s', (logProtocol ι).RunsWith ChunkKept s s' → ∀ t e, s.shared.log t = some e →
    t ≤ s.shared.masterTs → ∃ e', s'.shared.log t = some e' ∧
      e'.commitStatusFilledIn = true ∧ e'.aborted = e.aborted ∧ e'.ws = e.ws
  /-- A walk up to `b` from an entry that stays sees exactly the entries in between. -/
  walks : ∀ (σ : ℕ → LogState ι) (a b fuel : ℕ), σ 0 = s →
    (∀ k, (logProtocol ι).RunsWith ChunkKept (σ k) (σ (k + 1))) →
    (∀ k, ((σ k).shared.deref a).isSome = true) → a ≤ b → b ≤ s.shared.masterTs → b < a + fuel →
    walk b fuel (fun k => (σ k).shared) a = some (List.range' a (b + 1 - a))

theorem gapless {s : State ι} (h : (protocol ι).ReachableWith LogKept s)
    (hlock : s.commitLock = none) : ∃ d ≤ s.masterTs,
      (∀ t, (s.deref t).isSome = true ↔ d ≤ t ∧ 1 ≤ t ∧ t ≤ s.commitStartedTs) ∧
      ∀ t e, s.deref t = some e → e.ts = (t : Ts) ∧
        e.next = if t < s.commitStartedTs then some (t + 1) else none := by
  obtain ⟨hctl, hlinks, -⟩ := invariants h
  have hset := settled h
  have hout : ∀ i, (s.pc i).inLock = false := by
    intro i
    rw [Bool.eq_false_iff]
    intro hi
    have := hctl.lock i hi
    simp [hlock] at this
  have htop : s.commitStartedTs = s.top := by
    rcases hctl.started with h | ⟨⟨i, hi⟩, -⟩
    · exact h
    · have := Pc.inLock_of_pending hi
      simp [hout i] at this
  obtain ⟨d, hd, hcut⟩ := hset.cut
  refine ⟨d, hd, fun t => ?_, fun t e he => ?_⟩
  · rw [htop, ← hctl.alloc t]
    constructor
    · intro ht
      obtain ⟨e, he⟩ := Option.isSome_iff_exists.1 ht
      obtain ⟨hlog, hfreed⟩ := State.deref_eq_some.1 he
      refine ⟨?_, by simp [hlog]⟩
      by_contra hlt
      simp [(hcut t e hlog).2 (by omega)] at hfreed
    · rintro ⟨hle, ht⟩
      obtain ⟨e, he⟩ := Option.isSome_iff_exists.1 ht
      have hfreed : e.freed = false := by
        rw [Bool.eq_false_iff, ne_eq, hcut t e he]
        omega
      simp [State.deref_eq_some.2 ⟨he, hfreed⟩]
  · have hlog := (State.deref_eq_some.1 he).1
    have hle := ((hctl.alloc t).1 (by simp [hlog])).2
    refine ⟨hlinks.stamped t e hlog fun i hi => by simp [hout i] at hi, ?_⟩
    rw [htop]
    split_ifs with hlt
    · exact hlinks.linked t e hlog hlt
    · obtain rfl : t = s.top := by omega
      exact hset.last e hlog

/-- **The committed prefix is stable and gap-free**, in every state reached by any
interleaving of any number of committers, if no insertion into `log_cache` fails for
an entry that fits into the last chunk. -/
theorem committed_prefix (h : (logProtocol ι).ReachableWith ChunkKept s) : CommittedPrefix s := by
  have hbase := shared_reachable h
  have hctl := (invariants hbase).1
  have hset := settled hbase
  refine ⟨hctl.master_le, gapless hbase, fun a s' hk hstep => ?_, hset.filled,
    fun s' hrun t e he hle => ?_, fun σ a b fuel h₀ hruns hkept hab hb hfuel => ?_⟩
  · obtain ⟨-, a', hk', hstep'⟩ := logStep_shared (chunkFreed_eq_false h) hk hstep
    exact (step_turn hstep' hk').masterTs hctl
  · obtain ⟨e', he', hd⟩ := (later hbase (shared_runs h hrun)).decided t e he hle
    exact ⟨e', he', hd.commitStatusFilledIn.trans (hset.filled t e he hle), hd.aborted, hd.ws⟩
  · subst h₀
    have hreach : ∀ k, (logProtocol ι).ReachableWith ChunkKept (σ k) := by
      intro k
      induction k with
      | zero => exact h
      | succ k ih => exact ih.trans (hruns k)
    exact walk_eq hfuel le_rfl hab hbase (fun k => shared_runs (hreach k) (hruns k)) hkept hb

end Step

/-- One thread before its first transaction. -/
def emptyLog : LogState Unit where
  shared :=
    { masterTs := 0
      commitStartedTs := 0
      commitLock := none
      log := fun _ => none
      latest := none
      deletedTs := 0
      threads := fun _ => ⟨invalidTs, .idle⟩ }
  bytesRemainingChunk := 0
  chunk := []
  chunkFreed := false

/-- It commits a word, and comes with another one as far as the lock. -/
def oneCommit : List (LogAct Unit) :=
  [.turn (.checkout ()), .turn (.begin () [⟨7, 0, 0, 0, 1⟩]), .turn (.acquire ())] ++
    .replicate 10 (.turn (.next ())) ++
    [.turn (.begin () [⟨7, 8, 8, 0, 2⟩]), .turn (.acquire ())]

/-- Nothing is deleted, and no insertion fails. -/
def keepsChunk : LogState Unit → LogAct Unit → Bool
  | _, .turn (.deleteLog _) => false
  | _, .turn _ => true
  | _, .insertFails _ => false

theorem oneCommit_reachable {s : LogState Unit}
    (h : (logProtocol Unit).run keepsChunk emptyLog oneCommit = some s) :
    (logProtocol Unit).ReachableWith ChunkKept s := by
  refine Machine.ReachableWith.run (fun s a ha => ?_) (.init ⟨?_, rfl, rfl, rfl⟩) h
  · cases a with
    | turn a =>
      cases a with
      | deleteLog stop => simp [keepsChunk] at ha
      | _ => trivial
    | insertFails i => simp [keepsChunk] at ha
  · exact ⟨rfl, rfl, rfl, fun _ => rfl, rfl, rfl, fun _ => rfl⟩

/-- The word is committed. -/
theorem committed_prefix_oneCommit : ∃ s, (logProtocol Unit).ReachableWith ChunkKept s ∧
    s.shared.masterTs = 1 ∧ CommittedPrefix s := by
  have hrun : ((logProtocol Unit).run keepsChunk emptyLog oneCommit).map (·.shared.masterTs) =
      some 1 := by decide
  obtain ⟨s, hs, hm⟩ := Option.map_eq_some_iff.1 hrun
  exact ⟨s, oneCommit_reachable hs, hm, committed_prefix (oneCommit_reachable hs)⟩

/-- The insertion of the second entry fails, and the first one is freed. -/
theorem not_committed_prefix_insertFails : ∃ s s', (logProtocol Unit).ReachableWith ChunkKept s ∧
    (logProtocol Unit).step s (.insertFails ()) = some s' ∧ s'.shared.commitLock = none ∧
    s'.shared.masterTs = 1 ∧ s'.shared.commitStartedTs = 1 ∧ s'.shared.deref 1 = none ∧
    ¬CommittedPrefix s' := by
  have hrun : (((logProtocol Unit).run keepsChunk emptyLog oneCommit).bind fun s =>
      (logProtocol Unit).step s (.insertFails ())).map (fun s' => (s'.shared.commitLock,
        s'.shared.masterTs, s'.shared.commitStartedTs, s'.shared.deref 1)) =
      some (none, 1, 1, none) := by decide
  obtain ⟨s', hs', hfields⟩ := Option.map_eq_some_iff.1 hrun
  obtain ⟨s, hs, hstep⟩ := Option.bind_eq_some_iff.1 hs'
  obtain ⟨hlock, hmaster, hstarted, hderef⟩ : s'.shared.commitLock = none ∧
      s'.shared.masterTs = 1 ∧ s'.shared.commitStartedTs = 1 ∧ s'.shared.deref 1 = none := by
    simpa using hfields
  refine ⟨s, s', oneCommit_reachable hs, hstep, hlock, hmaster, hstarted, hderef, fun h => ?_⟩
  obtain ⟨d, hd, hkeys, -⟩ := h.gapless hlock
  have hone := (hkeys 1).2 ⟨by omega, le_rfl, by omega⟩
  simp [hderef] at hone

end Commit
end Sivfs
