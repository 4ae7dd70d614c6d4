/-
# Streams in the log

A write-set entry whose `stream_control` counts `n` words declares `n` word writes, to
`file_offset`, `file_offset + 8` and so on: of its `n` value words, or of the one value word
of a constant stream, "duplicated for the length of the stream".
`sivfs_wse_to_stream_info` unpacks the count, and five readers of the log walk over such
entries:

| reader | what it does with an entry |
| --- | --- |
| `_sivfs_validate` | `sivfs_ws_ent_conflicts` |
| `sivfs_find_first_write` | `sivfs_range_overlaps_wsent` |
| `_sivfs_make_checkpoint` | `sivfs_apply_change_checkpoint` |
| `sivfs_apply_logs_workingset` | `sivfs_apply_ws_ent_pg` on a page of the working set |
| `my_sivfs_update_page` | `sivfs_apply_ws_ent_pg` on a copied page |

Each of them looks at the first word of an entry only.  `meansItsWrites_iff` is therefore
exactly when they do what the entries declare: when none declares more than one word.
-/

import Sivfs.Update.Workingset
import Mathlib.Data.Set.Basic

namespace Sivfs
namespace Update

open Checkpoint

/-! ### What an entry declares -/

/-- An entry as the readers of the log come to it: accepted by `sivfs_wse_to_stream_info`
with `left` bytes to go, and at a multiple of the word size. -/
structure Logged where
  mem : Buffer
  off : ℕ
  left : ℕ
  info : StreamInfo
  accepted : wseToStreamInfo (entryAt mem off).streamControl left = .ok info
  aligned : (entryAt mem off).fileOffset % wordBytes = 0

namespace Logged

variable (e : Logged)

/-- The entry with its first value word. -/
def ent : WsEntry := entryAt e.mem e.off

/-- Value word `i`; a constant stream has only one. -/
def value (i : ℕ) : ℕ :=
  loadWord e.mem (e.off + 32 + wordBytes * if e.info.isConstStream then 0 else i)

/-- The write of word `i`, as a plain entry. -/
def write (i : ℕ) : WsEntry :=
  ⟨e.ent.ino, e.ent.fileOffset + wordBytes * i, e.ent.address, 0, e.value i⟩

/-- The word writes that the entry declares. -/
def writes : List WsEntry := (List.range e.info.destWords).map e.write

end Logged

/-- The write-set as it is in the log. -/
def entries (ws : List Logged) : List WsEntry := ws.map Logged.ent

/-- The word writes that a write-set declares. -/
def declaredWrites (ws : List Logged) : List WsEntry := ws.flatMap Logged.writes

/-- The commit of a write-set. -/
def commitOf (ts : ℕ) (ws : List Logged) : LogEntry := ⟨ts, false, entries ws⟩

/-- Every reader takes the write-sets made of entries in `S` for the word writes that they
declare. -/
structure MeansItsWrites (S : Set Logged) : Prop where
  /-- Two write-sets conflict if and only if their words intersect. -/
  conflicts : ∀ ws other, (∀ e ∈ ws, e ∈ S) → (∀ e ∈ other, e ∈ S) →
    (validateWs (entries other) (entries ws) = true ↔
      ∃ w ∈ declaredWrites ws, ∃ w' ∈ declaredWrites other, SameWord w w')
  /-- The search finds the commit for exactly the pages that it writes. -/
  firstWrite : ∀ ws, (∀ e ∈ ws, e ∈ S) → ∀ ts endTs ino pgoff,
    (findFirstWriteLoop endTs ino (pgoff * pageSize) ((pgoff + 1) * pageSize)
        [commitOf ts ws] = (ts : Ts) ↔
      ∃ w ∈ declaredWrites ws, hitsPage ino (pgoff * pageSize) w = true)
  /-- The checkpoint after the commit shows the store after the writes. -/
  checkpoint : ∀ ws, (∀ e ∈ ws, e ∈ S) → ∀ n₀ ts label faults b b' st, 0 < ts →
    Attempt n₀ ts label b → Shows b.heap b.root st →
      applyLogEntry faults ts (commitOf ts ws) b = (b', .ok ()) →
        Shows b'.heap b'.root ((declaredWrites ws).foldl .apply st)
  /-- The mapped pages show the store after the writes. -/
  workingset : ∀ ws, (∀ e ∈ ws, e ∈ S) → ∀ ts st pages, Shown st pages →
    ∃ pages', applyLogEntryWorkingset (commitOf ts ws) pages = (pages', .ok ()) ∧
      Shown ((declaredWrites ws).foldl .apply st) pages'
  /-- A replayed page is that of the store after the writes. -/
  replay : ∀ ws, (∀ e ∈ ws, e ∈ S) → ∀ ts st ino off mem, IsPage st ino off mem →
    IsPage ((declaredWrites ws).foldl .apply st) ino off (replayEntry ino off mem (commitOf ts ws))

/-! ### The words of a stream -/

namespace Logged

variable (e : Logged)

theorem write_word (i : ℕ) :
    (e.write i).fileOffset / wordBytes = e.ent.fileOffset / wordBytes + i := by
  simp only [write, wordBytes]
  omega

/-- Writing `n` words gives each of them its value and leaves every other word alone. -/
theorem foldl_write (st : Store) (n ino w : ℕ) :
    ((List.range n).map e.write).foldl Store.apply st ino w =
      if ino = e.ent.ino ∧ e.ent.fileOffset / wordBytes ≤ w ∧
          w < e.ent.fileOffset / wordBytes + n
      then e.value (w - e.ent.fileOffset / wordBytes) else st ino w := by
  induction n with
  | zero => rw [if_neg (by omega)]; rfl
  | succ n ih =>
    rw [List.range_succ, List.map_append, List.foldl_append]
    change (if ino = (e.write n).ino ∧ w = (e.write n).fileOffset / wordBytes then
      (e.write n).value else _) = _
    rw [write_word, ih]
    change (if ino = e.ent.ino ∧ w = e.ent.fileOffset / wordBytes + n then e.value n else _) = _
    -- the last word, the words before it, and the others
    by_cases hino : ino = e.ent.ino
    · by_cases hlast : w = e.ent.fileOffset / wordBytes + n
      · rw [if_pos ⟨hino, hlast⟩, if_pos (by omega), hlast, Nat.add_sub_cancel_left]
      · rw [if_neg (fun h => hlast h.2)]
        exact if_congr (by omega) rfl rfl
    · rw [if_neg (fun h => hino h.1), if_neg (fun h => hino h.1), if_neg (fun h => hino h.1)]

/-- An accepted entry is well-formed. -/
theorem wellFormed : (entryBytes e.ent.streamControl).isSome := by
  rw [show entryBytes e.ent.streamControl = _ from entryBytes_of_ok e.accepted]
  rfl

/-- An accepted entry declares a word. -/
theorem destWords_pos : 0 < e.info.destWords := by
  rcases wseToStreamInfo_ok e.accepted with ⟨-, h⟩ | ⟨-, -, hw, h, -⟩
  · rw [h]
    exact Nat.one_pos
  · rw [h]
    exact Nat.pos_of_ne_zero hw

theorem value_zero : e.value 0 = e.ent.value := by
  rw [value, ite_self]
  rfl

variable {e}

/-- An entry of one word declares itself. -/
theorem writes_of_one (h : e.info.destWords = 1) : e.writes = [e.write 0] := by
  rw [writes, h]
  rfl

theorem apply_write_zero (st : Store) : st.apply (e.write 0) = st.apply e.ent := by
  funext ino w
  simp only [Store.apply, write, value_zero, Nat.mul_zero, Nat.add_zero]

end Logged

/-! ### Write-sets of single words -/

section OneWord

variable {ws other : List Logged}

/-- The writes are the entries, one by one. -/
theorem mem_declaredWrites_of_one (h : ∀ e ∈ ws, e.info.destWords = 1) {w : WsEntry} :
    w ∈ declaredWrites ws ↔ ∃ e ∈ ws, w = e.write 0 := by
  rw [declaredWrites, List.mem_flatMap]
  refine exists_congr fun e => and_congr_right fun he => ?_
  rw [Logged.writes_of_one (h e he), List.mem_singleton]

theorem foldl_declaredWrites_of_one (h : ∀ e ∈ ws, e.info.destWords = 1) (st : Store) :
    (declaredWrites ws).foldl .apply st = (entries ws).foldl .apply st := by
  induction ws generalizing st with
  | nil => rfl
  | cons e ws ih =>
    rw [declaredWrites, List.flatMap_cons, Logged.writes_of_one (h e List.mem_cons_self)]
    change (declaredWrites ws).foldl Store.apply (st.apply (e.write 0)) = _
    rw [Logged.apply_write_zero, ih fun x hx => h x (List.mem_cons_of_mem _ hx)]
    rfl

/-- Writing the same word is having the same offset. -/
theorem sameWord_iff (e e' : Logged) : SameWord (e.write 0) (e'.write 0) ↔
    e.ent.ino = e'.ent.ino ∧ e.ent.fileOffset = e'.ent.fileOffset := by
  have h₁ : e.ent.fileOffset % wordBytes = 0 := e.aligned
  have h₂ : e'.ent.fileOffset % wordBytes = 0 := e'.aligned
  rw [SameWord, Logged.write_word, Logged.write_word]
  refine and_congr_right fun _ => ?_
  simp only [wordBytes] at h₁ h₂ ⊢
  omega

end OneWord

/-! ### Walks over accepted entries -/

/-- A walk over accepted entries comes to the end. -/
theorem walkWs_entries (body : Workingset → WsEntry → Workingset) (ws : List Logged)
    (pages : Workingset) :
    walkWs body (entries ws) pages = ((entries ws).foldl body pages, .ok ()) := by
  induction ws generalizing pages with
  | nil => rfl
  | cons e ws ih =>
    obtain ⟨info, hinfo⟩ := headInfo_ok e.wellFormed (entries ws)
    change walkWs body (e.ent :: entries ws) pages = _
    rw [walkWs, hinfo]
    exact ih _

theorem wsEntConflictsLog_entries (ent : WsEntry) (other : List Logged) :
    ∃ c, wsEntConflictsLog ent (entries other) = .ok c ∧
      (c = true → ∃ e ∈ other, ent.ino = e.ent.ino ∧ ent.fileOffset = e.ent.fileOffset) := by
  induction other with
  | nil => exact ⟨false, rfl, by simp⟩
  | cons e other ih =>
    obtain ⟨info, hinfo⟩ := headInfo_ok e.wellFormed (entries other)
    change ∃ c, wsEntConflictsLog ent (e.ent :: entries other) = .ok c ∧ _
    rw [wsEntConflictsLog, hinfo]
    by_cases hconf : Commit.wsEntConflicts e.ent ent = true
    · refine ⟨true, if_pos hconf, fun _ => ⟨e, List.mem_cons_self, ?_⟩⟩
      simp only [Commit.wsEntConflicts, Bool.and_eq_true, beq_iff_eq] at hconf
      exact ⟨hconf.1.symm, hconf.2.symm⟩
    · obtain ⟨c, hc, hmem⟩ := ih
      refine ⟨c, (if_neg hconf).trans hc, fun h => ?_⟩
      obtain ⟨x, hx, heq⟩ := hmem h
      exact ⟨x, List.mem_cons_of_mem _ hx, heq⟩

/-- Validation of accepted entries compares their offsets. -/
theorem validateWs_entries (ws other : List Logged) :
    validateWs (entries other) (entries ws) = true ↔
      ∃ e ∈ ws, ∃ e' ∈ other, e.ent.ino = e'.ent.ino ∧ e.ent.fileOffset = e'.ent.fileOffset := by
  refine ⟨fun h => ?_, ?_⟩
  · induction ws with
    | nil => simp [entries, validateWs] at h
    | cons e ws ih =>
      obtain ⟨info, hinfo⟩ := headInfo_ok e.wellFormed (entries ws)
      obtain ⟨c, hc, hmem⟩ := wsEntConflictsLog_entries e.ent other
      change validateWs (entries other) (e.ent :: entries ws) = true at h
      rw [validateWs, hinfo, hc] at h
      cases c with
      | true => exact ⟨e, List.mem_cons_self, hmem rfl⟩
      | false =>
        obtain ⟨x, hx, hrest⟩ := ih h
        exact ⟨x, List.mem_cons_of_mem _ hx, hrest⟩
  · rintro ⟨e, he, e', he', heq⟩
    by_contra hfalse
    exact validateWs_false (Bool.eq_false_of_not_eq_true hfalse)
      ⟨e.ent, List.mem_map_of_mem he, e'.ent, List.mem_map_of_mem he', heq⟩

/-- One commit of a log is found where one of its entries starts. -/
theorem findFirstWriteLoop_commitOf (ts endTs ino pgoff : ℕ) (ws : List Logged) :
    findFirstWriteLoop endTs ino (pgoff * pageSize) ((pgoff + 1) * pageSize) [commitOf ts ws] =
        (ts : Ts) ↔
      ∃ e ∈ ws, hitsPage ino (pgoff * pageSize) e.ent = true := by
  have hany : (¬(commitOf ts ws).aborted ∧ (commitOf ts ws).ws.any fun ent =>
      ent.ino = ino ∧ rangeOverlapsWsent (pgoff * pageSize) ((pgoff + 1) * pageSize) ent) ↔
      ∃ e ∈ ws, hitsPage ino (pgoff * pageSize) e.ent = true := by
    simp only [commitOf, entries, rangeOverlapsWsent, List.any_map, List.any_eq_true,
      Function.comp_apply, decide_eq_true_eq, hitsPage_iff, Bool.false_eq_true, not_false_eq_true,
      true_and]
    refine exists_congr fun e => and_congr_right fun _ => and_congr_right fun _ => ?_
    simp only [pageSize]
    omega
  rw [← hany]
  rw [findFirstWriteLoop]
  by_cases h : ¬(commitOf ts ws).aborted ∧ (commitOf ts ws).ws.any fun ent =>
      ent.ino = ino ∧ rangeOverlapsWsent (pgoff * pageSize) ((pgoff + 1) * pageSize) ent
  · exact iff_of_true (if_pos h) h
  · refine iff_of_false ?_ h
    rw [if_neg h]
    exact WithTop.top_ne_coe

/-! ### Exactly the single words -/

/-- A replay of an entry leaves its second word as it is. -/
theorem not_replay_of_two {e : Logged} (h : 1 < e.info.destWords) :
    ¬∀ ts st ino off mem, IsPage st ino off mem →
      IsPage ((declaredWrites [e]).foldl .apply st) ino off
        (replayEntry ino off mem (commitOf ts [e])) := by
  intro hall
  have halign : e.ent.fileOffset % wordBytes = 0 := e.aligned
  -- a store that has another value in every word
  let st : Store := fun _ _ => e.value 1 + 1
  have hpage := hall 1 st e.ent.ino (e.ent.fileOffset + wordBytes) (fun _ => e.value 1 + 1)
    (fun _ _ => rfl)
  have hlt : wordIndex (e.ent.fileOffset + wordBytes) < 512 := by
    simp only [wordIndex, pageSize, wordBytes]
    omega
  have hword := hpage _ hlt
  have hw : (e.ent.fileOffset + wordBytes) / pageSize * 512 +
      wordIndex (e.ent.fileOffset + wordBytes) = e.ent.fileOffset / wordBytes + 1 := by
    simp only [wordIndex, pageSize, wordBytes] at halign ⊢
    omega
  have hne : wordIndex (e.ent.fileOffset + wordBytes) ≠ wordIndex e.ent.fileOffset ∨
      ¬hitsPage e.ent.ino (e.ent.fileOffset + wordBytes) e.ent = true := by
    rw [hitsPage_iff]
    simp only [wordIndex, pageSize, wordBytes] at halign ⊢
    omega
  have hmem : replayEntry e.ent.ino (e.ent.fileOffset + wordBytes) (fun _ => e.value 1 + 1)
      (commitOf 1 [e]) (wordIndex (e.ent.fileOffset + wordBytes)) = e.value 1 + 1 := by
    change (if hitsPage e.ent.ino (e.ent.fileOffset + wordBytes) e.ent then
      applyWsEntPg (fun _ => e.value 1 + 1) e.ent else fun _ => e.value 1 + 1) _ = _
    split_ifs with hit
    · exact Function.update_of_ne (hne.resolve_right fun h => h hit) _ _
    · rfl
  rw [hmem, Store.page, hw, declaredWrites, List.flatMap_singleton, Logged.writes,
    Logged.foldl_write,
    if_pos ⟨rfl, by omega, by omega⟩, Nat.add_sub_cancel_left] at hword
  omega

/-- **Streams mean what they declare only as single words.**  Validation, the search for the
first write, checkpoints, the working set and replayed pages take the write-sets made of
some entries for the word writes that these declare, if and only if each declares one word. -/
theorem meansItsWrites_iff (S : Set Logged) :
    MeansItsWrites S ↔ ∀ e ∈ S, e.info.destWords = 1 := by
  refine ⟨fun h e he => ?_, fun hone => ?_⟩
  · by_contra hne
    refine not_replay_of_two (e := e) ?_ (h.replay [e] (by simpa using he))
    have := e.destWords_pos
    omega
  have hws : ∀ ws : List Logged, (∀ e ∈ ws, e ∈ S) → ∀ e ∈ ws, e.info.destWords = 1 :=
    fun ws h e he => hone e (h e he)
  refine ⟨fun ws other h h' => ?_, fun ws h ts endTs ino pgoff => ?_,
    fun ws h n₀ ts label faults b b' st hts ha hs hb => ?_, fun ws h ts st pages hs => ?_,
    fun ws h ts st ino off mem hp => ?_⟩
  · rw [validateWs_entries]
    constructor
    · rintro ⟨e, he, e', he', heq⟩
      exact ⟨_, (mem_declaredWrites_of_one (hws ws h)).2 ⟨e, he, rfl⟩, _,
        (mem_declaredWrites_of_one (hws other h')).2 ⟨e', he', rfl⟩, (sameWord_iff e e').2 heq⟩
    · rintro ⟨w, hw, w', hw', hsame⟩
      obtain ⟨e, he, rfl⟩ := (mem_declaredWrites_of_one (hws ws h)).1 hw
      obtain ⟨e', he', rfl⟩ := (mem_declaredWrites_of_one (hws other h')).1 hw'
      exact ⟨e, he, e', he', (sameWord_iff e e').1 hsame⟩
  · rw [findFirstWriteLoop_commitOf]
    constructor
    · rintro ⟨e, he, hit⟩
      exact ⟨_, (mem_declaredWrites_of_one (hws ws h)).2 ⟨e, he, rfl⟩, hit⟩
    · rintro ⟨w, hw, hit⟩
      obtain ⟨e, he, rfl⟩ := (mem_declaredWrites_of_one (hws ws h)).1 hw
      exact ⟨e, he, hit⟩
  · rw [foldl_declaredWrites_of_one (hws ws h)]
    have hends := commit_ends faults hts ha hs (commitOf ts ws)
    rw [hb] at hends
    exact hends.2.2
  · rw [foldl_declaredWrites_of_one (hws ws h)]
    refine ⟨_, walkWs_entries applyToWspg ws pages, ?_⟩
    exact hs.applyLogEntry (l := commitOf ts ws) (walkWs_entries applyToWspg ws pages)
  · rw [foldl_declaredWrites_of_one (hws ws h)]
    exact replayEntry_isPage hp (commitOf ts ws)

/-- A constant stream of two zero words at the start of file `0`. -/
def zeroStream : Logged where
  mem := fun i => if i = 24 then 2 else if i = 31 then 192 else 0
  off := 0
  left := 40
  info := ⟨1, 2, true, true⟩
  accepted := by decide
  aligned := by decide

/-- Of two words of zeros only the first is written. -/
theorem not_meansItsWrites_zeroStream : ¬MeansItsWrites {zeroStream} := by
  intro h
  refine not_replay_of_two (e := zeroStream) (by decide) (h.replay [zeroStream] fun e he => ?_)
  exact List.mem_singleton.1 he

end Update
end Sivfs
