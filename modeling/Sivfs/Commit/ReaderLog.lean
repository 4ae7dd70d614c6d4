/-
# The log that a reader finds

A reader finds the entries that are not freed (`readable`).  Behind a timestamp from which
nothing is freed these are the transactions that have ended, one entry for each
(`tsToLogEntry_readable`), and what a reader or the checkpoint thread computes depends on no more
of the log than that (`updatePage_congr`, `makeCheckpoint_congr`).  With write-sets of whole
words, the log of `Sivfs.Log` means the words that `Sivfs.Commit.Isolation` speaks of
(`abs_history`).
-/

import Sivfs.Checkpoint.Exact
import Sivfs.Commit.WholeWords

namespace Sivfs
namespace Memory

open Checkpoint (Cp Heap Shared MakeFaults)
open Isolation (Txn contents)

/-! ### The log of a reader -/

section Log

variable {ι : Type*} {s : Commit.State ι}

/-- An entry as a reader finds it. -/
def found (e : Commit.LogEntry) : LogEntry where
  ts := e.ts.untopD 0
  aborted := e.aborted
  ws := e.ws

/-- What a reader finds of the log up to `master_ts`. -/
def readable (s : Commit.State ι) : List LogEntry :=
  (List.range s.masterTs).filterMap fun k => (s.deref (k + 1)).map found

/-- The transactions up to `master_ts`, with nothing freed. -/
def history (ended : List (Txn (List WsEntry))) : List LogEntry :=
  ended.mapIdx fun k t => ⟨k + 1, !t.committed, t.writes⟩

theorem history_snoc (ended : List (Txn (List WsEntry))) (t : Txn (List WsEntry)) :
    history (ended ++ [t]) = history ended ++ [⟨ended.length + 1, !t.committed, t.writes⟩] :=
  List.mapIdx_concat

theorem length_history (ended : List (Txn (List WsEntry))) :
    (history ended).length = ended.length := List.length_mapIdx

variable [DecidableEq ι]

/-- An entry up to `master_ts` is found with its timestamp. -/
theorem found_of_le (hr : (Commit.protocol ι).ReachableWith Commit.LogKept s) {t : ℕ}
    {e : Commit.LogEntry} (he : s.log t = some e) (ht : t ≤ s.masterTs) :
    found e = ⟨t, e.aborted, e.ws⟩ := by
  rw [found, Commit.stamped_of_le hr he ht]
  rfl

/-- The transactions are the entries of the log. -/
theorem history_ended (hr : (Commit.protocol ι).ReachableWith Commit.LogKept s) :
    history s.ended = (List.range s.masterTs).filterMap fun k => (s.log (k + 1)).map found := by
  have hlog : ∀ k < s.masterTs, ∃ e, s.log (k + 1) = some e ∧
      (history s.ended)[k]? = some (found e) := by
    intro k hk
    obtain ⟨-, e, he, -⟩ := Commit.exists_of_ended (Commit.invariants hr).1
      (List.getElem?_eq_getElem (by simpa using hk))
    refine ⟨e, he, ?_⟩
    rw [history, List.getElem?_mapIdx, Commit.State.ended_getElem he hk, found_of_le hr he hk]
    simp [Commit.LogEntry.txn]
  have hmap : (List.range s.masterTs).filterMap (fun k => (s.log (k + 1)).map found) =
      (List.range s.masterTs).map fun k => (history s.ended).getD k ⟨0, true, []⟩ := by
    rw [List.filterMap_eq_map_iff_forall_eq_some]
    intro k hk
    obtain ⟨e, he, hget⟩ := hlog k (List.mem_range.1 hk)
    rw [he, List.getD, hget]
    rfl
  rw [hmap]
  refine List.ext_getElem? fun k => ?_
  by_cases hk : k < s.masterTs
  · obtain ⟨e, -, hget⟩ := hlog k hk
    simp [hk, hget]
  · rw [List.getElem?_eq_none (by simpa [length_history] using hk),
      List.getElem?_eq_none (by simpa using hk)]

/-- **Behind `cp` nothing is missing**, if only entries up to there are freed. -/
theorem tsToLogEntry_readable (hr : (Commit.protocol ι).ReachableWith Commit.LogKept s) {cp : ℕ}
    (hcp : cp ≤ s.masterTs) (hfreed : ∀ t e, s.log t = some e → e.freed = true → t ≤ cp) :
    tsToLogEntry (readable s) (cp + 1) = tsToLogEntry (history s.ended) (cp + 1) := by
  obtain ⟨d, hd⟩ := Nat.exists_eq_add_of_le hcp
  -- what is there up to `cp` is skipped
  have hskip : ∀ f : ℕ → Option Commit.LogEntry, (∀ t e, f t = some e → s.log t = some e) →
      ∀ l ∈ (List.range cp).filterMap fun k => (f (k + 1)).map found,
        decide (l.ts ≠ cp + 1) = true := by
    intro f hf l hl
    obtain ⟨k, hk, hmap⟩ := List.mem_filterMap.1 hl
    obtain ⟨e, he, rfl⟩ := Option.map_eq_some_iff.1 hmap
    have hlt := List.mem_range.1 hk
    rw [found_of_le hr (hf _ e he) (by omega)]
    simpa using hlt.ne
  have hsame : ((List.range d).map fun k => cp + k).filterMap
        (fun k => (s.deref (k + 1)).map found) =
      ((List.range d).map fun k => cp + k).filterMap fun k => (s.log (k + 1)).map found := by
    refine List.filterMap_congr fun k hk => ?_
    obtain ⟨k, -, rfl⟩ := List.mem_map.1 hk
    cases he : s.log (cp + k + 1) with
    | none => simp [Commit.State.deref, he]
    | some e =>
      have hf : e.freed = false := by
        rw [Bool.eq_false_iff]
        intro hf
        have hle := hfreed _ e he hf
        omega
      rw [Commit.State.deref_eq_some.2 ⟨he, hf⟩]
  rw [history_ended hr, readable, hd, List.range_add, List.filterMap_append,
    List.filterMap_append, hsame, tsToLogEntry, tsToLogEntry,
    List.dropWhile_append_of_pos (hskip s.deref fun t e h => (Commit.State.deref_eq_some.1 h).1),
    List.dropWhile_append_of_pos (hskip s.log fun _ _ h => h)]

end Log

/-! ### What depends on the log -/

section Congr

variable {sh : Shared} {log : List LogEntry}

theorem applyLog_congr (faults : Checkpoint.Faults) {log' : List LogEntry} {cp : ℕ}
    (h : tsToLogEntry log (cp + 1) = tsToLogEntry log' (cp + 1)) (n : ℕ) (b : Checkpoint.Build) :
    Checkpoint.applyLog faults log cp n b = Checkpoint.applyLog faults log' cp n b := by
  rw [Checkpoint.applyLog, Checkpoint.applyLog, h]

/-- The checkpoint thread reads the log behind the latest checkpoint. -/
theorem makeCheckpoint_congr (faults : MakeFaults)
    (h : tsToLogEntry log (sh.latest.cpTs + 1) = tsToLogEntry sh.log (sh.latest.cpTs + 1)) :
    (Checkpoint.makeCheckpoint faults { sh with log := log }).1 =
      { (Checkpoint.makeCheckpoint faults sh).1 with log := log } := by
  rw [Checkpoint.makeCheckpoint, Checkpoint.makeCheckpoint, applyLog_congr _ h]
  split_ifs with heq
  · rfl
  · cases faults.setup with
    | some e => rfl
    | none =>
      rcases Checkpoint.applyLog faults.pages sh.log sh.latest.cpTs sh.masterTs
        ⟨sh.heap, sh.latest.root, []⟩ with ⟨b, e | u⟩
      · rfl
      · cases faults.insert with
        | some e => rfl
        | none => cases faults.mark <;> rfl

/-- A reader reads the log behind its checkpoint. -/
theorem updatePage_congr {cp : Cp}
    (h : tsToLogEntry log (cp.cpTs + 1) = tsToLogEntry sh.log (cp.cpTs + 1)) (x ino off : ℕ) :
    Checkpoint.updatePage { sh with log := log } ⟨(x : Ts), some cp⟩ ino off =
      Checkpoint.updatePage sh ⟨(x : Ts), some cp⟩ ino off := by
  simp only [Checkpoint.updatePage, h]

end Congr

/-! ### What the log means -/

section Words

/-- The words of the store and of the log are the same after a write-set of whole words. -/
theorem applyWs_agrees {ws : List WsEntry} (hws : Commit.Whole ws) {st : Store}
    {m : ℕ × ℕ → ℕ}
    (h : ∀ ino off, off % wordBytes = 0 → st ino (off / wordBytes) = m (ino, off)) :
    ∀ ino off, off % wordBytes = 0 →
      ws.foldl Store.apply st ino (off / wordBytes) = Commit.applyWs m ws (ino, off) := by
  induction ws generalizing st m with
  | nil => exact h
  | cons ent ws ih =>
    refine ih (fun e he => hws e (List.mem_cons_of_mem _ he)) fun ino off hoff => ?_
    have hent := hws ent List.mem_cons_self
    have hword : off / wordBytes = ent.fileOffset / wordBytes ↔ off = ent.fileOffset := by
      simp only [wordBytes] at hoff hent ⊢
      omega
    simp only [Store.apply, Function.update_apply, Prod.mk.injEq, hword, h ino off hoff]

/-- **The log of commits means what the transactions leave.** -/
theorem abs_history {ended : List (Txn (List WsEntry))} (hlog : Consecutive 1 (history ended))
    (hwhole : ∀ t ∈ ended, Commit.Whole t.writes) {n : ℕ} (hn : n ≤ ended.length) :
    ∀ ino off, off % wordBytes = 0 → abs (history ended) n ino (off / wordBytes) =
      contents Commit.applyWs (fun _ => 0) ended n (ino, off) := by
  induction n with
  | zero =>
    intro ino off _
    rw [abs, hlog.filter_le]
    rfl
  | succ n ih =>
    have hget : ended[n]? = some ended[n] := List.getElem?_eq_getElem hn
    have hentry : ⟨n + 1, !ended[n].committed, ended[n].writes⟩ ∈ history ended := by
      refine List.mem_iff_getElem?.2 ⟨n, ?_⟩
      rw [history, List.getElem?_mapIdx, hget]
      rfl
    rw [abs_of_mem hlog hentry, Isolation.contents_succ hget, Store.commit]
    cases ended[n].committed with
    | false => exact ih (Nat.le_of_succ_le hn)
    | true => exact applyWs_agrees (hwhole _ (List.getElem_mem _)) (ih (Nat.le_of_succ_le hn))

end Words

end Memory
end Sivfs
