/-
# The log as a word store

`struct sivfs_log_entry` and the loops that walk the log from one timestamp to
another: they look an entry up in `log_cache`, follow `next`, skip aborted
entries and stop at the target.  What such a walk visits is `upTo`, whatever it
does with the entries.

`abs log t` is what the log means: the words of all files after the commits up to
`t`, starting from zeros.
-/

import Sivfs.Basic
import Sivfs.Writeset
import Mathlib.Logic.Function.Basic

namespace Sivfs

/-- `struct sivfs_log_entry`. -/
structure LogEntry where
  ts : ℕ
  aborted : Bool
  ws : List WsEntry
  deriving DecidableEq

/-- `sivfs_ts_to_log_entry`: the entry of `ts` and what is linked behind it. -/
def tsToLogEntry (log : List LogEntry) (ts : ℕ) : List LogEntry :=
  log.dropWhile fun l => l.ts ≠ ts

/-- The entries that a walk up to `targetTs` visits. -/
def upTo (targetTs : ℕ) (log : List LogEntry) : List LogEntry :=
  log.takeWhile fun l => l.ts ≤ targetTs

/-! ### What the log means -/

/-- The words of all files, by inode number and word offset. -/
abbrev Store := ℕ → ℕ → ℕ

/-- One write. -/
def Store.apply (st : Store) (ent : WsEntry) : Store := fun ino w =>
  if ino = ent.ino ∧ w = ent.fileOffset / wordBytes then ent.value else st ino w

/-- One commit. -/
def Store.commit (st : Store) (l : LogEntry) : Store :=
  if l.aborted then st else l.ws.foldl .apply st

/-- The entries write the same word. -/
def SameWord (a b : WsEntry) : Prop :=
  a.ino = b.ino ∧ a.fileOffset / wordBytes = b.fileOffset / wordBytes

/-- Writes to different words commute. -/
theorem Store.apply_comm (st : Store) {a b : WsEntry} (h : ¬SameWord a b) :
    (st.apply a).apply b = (st.apply b).apply a := by
  funext ino w
  simp only [Store.apply]
  split_ifs with hb ha
  · exact absurd ⟨ha.1.symm.trans hb.1, ha.2.symm.trans hb.2⟩ h
  · rfl
  · rfl
  · rfl

/-- A write may go before or after writes to other words. -/
theorem Store.foldl_apply_comm {st : Store} {ent : WsEntry} {ws : List WsEntry}
    (h : ∀ x ∈ ws, ¬SameWord x ent) :
    (ws.foldl Store.apply st).apply ent = ws.foldl Store.apply (st.apply ent) := by
  induction ws generalizing st with
  | nil => rfl
  | cons x ws ih =>
    rw [List.foldl_cons, List.foldl_cons, ih fun y hy => h y (List.mem_cons_of_mem _ hy),
      Store.apply_comm st (h x List.mem_cons_self)]

/-- A commit that shares no word with some writes may be made before them. -/
theorem Store.commit_foldl_comm {st : Store} {l : LogEntry} {ws : List WsEntry}
    (h : l.aborted = false → ∀ x ∈ ws, ∀ ent ∈ l.ws, ¬SameWord x ent) :
    (ws.foldl Store.apply st).commit l = ws.foldl Store.apply (st.commit l) := by
  rw [Store.commit, Store.commit]
  cases hab : l.aborted with
  | true => rfl
  | false =>
    have hdisj := h hab
    show l.ws.foldl Store.apply (ws.foldl Store.apply st) = ws.foldl Store.apply (l.ws.foldl _ st)
    generalize l.ws = ents at hdisj
    induction ents generalizing st with
    | nil => rfl
    | cons ent ents ih =>
      rw [List.foldl_cons, List.foldl_cons,
        Store.foldl_apply_comm fun x hx => hdisj x hx ent List.mem_cons_self,
        ih fun x hx e he => hdisj x hx e (List.mem_cons_of_mem _ he)]

/-- A word that all writes to it leave at `v`. -/
theorem Store.foldl_apply_const {st : Store} {ino w v : ℕ} (h₀ : st ino w = v) {ws : List WsEntry}
    (h : ∀ ent ∈ ws, ent.ino = ino → ent.fileOffset / wordBytes = w → ent.value = v) :
    ws.foldl Store.apply st ino w = v := by
  induction ws generalizing st with
  | nil => exact h₀
  | cons ent ws ih =>
    refine ih ?_ fun e he => h e (List.mem_cons_of_mem _ he)
    simp only [Store.apply]
    split_ifs with hit
    · exact h ent List.mem_cons_self hit.1.symm hit.2.symm
    · exact h₀

/-- The words after all commits up to `t`. -/
def abs (log : List LogEntry) (t : ℕ) : Store :=
  (log.filter fun l => l.ts ≤ t).foldl .commit fun _ _ => 0

/-- Page `fileOffset / PAGE_SIZE` of file `ino`. -/
def Store.page (st : Store) (ino fileOffset : ℕ) : ℕ → ℕ := fun j =>
  st ino (fileOffset / pageSize * 512 + j)

/-- Where a write is in its page. -/
def wordIndex (fileOffset : ℕ) : ℕ := fileOffset % pageSize / wordBytes

/-- `sivfs_apply_ws_ent_pg`: the offsets of write-set entries are multiples of
`sizeof(sivfs_word_t)`. -/
def applyWsEntPg (words : ℕ → ℕ) (ent : WsEntry) : ℕ → ℕ :=
  Function.update words (wordIndex ent.fileOffset) ent.value

/-- `sivfs_same_page`. -/
def samePage (a b : ℕ) : Bool := a / pageSize = b / pageSize

/-- The write is to page `fileOffset / PAGE_SIZE` of file `ino`. -/
def hitsPage (ino fileOffset : ℕ) (ent : WsEntry) : Bool :=
  ent.ino = ino ∧ samePage ent.fileOffset fileOffset

/-- An entry hits the page with its file and page number. -/
theorem hitsPage_iff {ino fileOffset : ℕ} {ent : WsEntry} : hitsPage ino fileOffset ent = true ↔
    ent.ino = ino ∧ ent.fileOffset / pageSize = fileOffset / pageSize := by
  simp [hitsPage, samePage]

/-- `words` is the page of `st`. -/
def IsPage (st : Store) (ino fileOffset : ℕ) (words : ℕ → ℕ) : Prop :=
  ∀ j < 512, words j = st.page ino fileOffset j

/-- A page that gets a write shows it. -/
theorem IsPage.apply {st : Store} {ino fileOffset : ℕ} {words : ℕ → ℕ}
    (h : IsPage st ino fileOffset words) {ent : WsEntry} (hit : hitsPage ino fileOffset ent) :
    IsPage (st.apply ent) ino fileOffset (applyWsEntPg words ent) := by
  obtain ⟨rfl, hpage⟩ := hitsPage_iff.1 hit
  intro j hj
  have hidx : j = wordIndex ent.fileOffset ↔
      fileOffset / pageSize * 512 + j = ent.fileOffset / wordBytes := by
    simp only [pageSize] at hpage
    simp only [wordIndex, pageSize, wordBytes]
    omega
  simp only [Store.page, Store.apply, applyWsEntPg, Function.update_apply, ← hidx, true_and]
  split_ifs
  · rfl
  · exact h j hj

/-- Writes to other pages do not show. -/
theorem IsPage.apply_other {st : Store} {ino fileOffset : ℕ} {words : ℕ → ℕ}
    (h : IsPage st ino fileOffset words) {ent : WsEntry} (hit : ¬hitsPage ino fileOffset ent) :
    IsPage (st.apply ent) ino fileOffset words := by
  rw [hitsPage_iff] at hit
  intro j hj
  have hidx : ¬(ino = ent.ino ∧ fileOffset / pageSize * 512 + j = ent.fileOffset / wordBytes) := by
    rintro ⟨hi, hw⟩
    refine hit ⟨hi.symm, ?_⟩
    simp only [pageSize, wordBytes] at hw ⊢
    omega
  simp only [Store.page, Store.apply, if_neg hidx]
  exact h j hj

/-- A page that no write touches is the same before the writes. -/
theorem IsPage.of_foldl_apply {st : Store} {ino off : ℕ} {words : ℕ → ℕ} {ws : List WsEntry}
    (h : IsPage (ws.foldl Store.apply st) ino off words)
    (hmiss : ∀ ent ∈ ws, ¬hitsPage ino off ent) : IsPage st ino off words := by
  intro j hj
  rw [h j hj]
  refine Store.foldl_apply_const rfl fun ent hent hino hw => absurd ?_ (hmiss ent hent)
  rw [hitsPage_iff]
  refine ⟨hino, ?_⟩
  simp only [pageSize, wordBytes] at hw ⊢
  omega

/-! ### Timestamps in a row -/

/-- The timestamps are `k`, `k + 1`, and so on. -/
def Consecutive : ℕ → List LogEntry → Prop
  | _, [] => True
  | k, l :: log => l.ts = k ∧ Consecutive (k + 1) log

/-- The next entry has the next timestamp. -/
theorem Consecutive.append {k : ℕ} {log : List LogEntry} (h : Consecutive k log) {l : LogEntry}
    (hl : l.ts = k + log.length) : Consecutive k (log ++ [l]) := by
  induction log generalizing k with
  | nil => exact ⟨hl, trivial⟩
  | cons x log ih =>
    refine ⟨h.1, ih h.2 ?_⟩
    rw [hl, List.length_cons]
    omega

/-- A log without its first entries. -/
theorem Consecutive.drop {k : ℕ} {log : List LogEntry} (h : Consecutive k log) (n : ℕ) :
    Consecutive (k + n) (log.drop n) := by
  induction log generalizing k n with
  | nil => simp [Consecutive]
  | cons l log ih =>
    cases n with
    | zero => exact h
    | succ n =>
      have := ih h.2 n
      rwa [show k + 1 + n = k + (n + 1) by omega] at this

/-- The entries up to a timestamp are the first ones. -/
theorem Consecutive.filter_le {k : ℕ} {log : List LogEntry} (h : Consecutive k log) (t : ℕ) :
    (log.filter fun l => l.ts ≤ t) = log.take (t + 1 - k) := by
  induction log generalizing k with
  | nil => simp
  | cons l log ih =>
    obtain ⟨hl, hrest⟩ := h
    rcases Nat.lt_or_ge t k with hlt | hge
    · rw [List.filter_cons_of_neg (by simpa [hl] using hlt), ih hrest,
        show t + 1 - k = 0 by omega, show t + 1 - (k + 1) = 0 by omega]
      simp
    · rw [List.filter_cons_of_pos (by simpa [hl] using hge), ih hrest,
        show t + 1 - k = t + 1 - (k + 1) + 1 by omega, List.take_succ_cons]

/-- The same for the log up to a timestamp. -/
theorem Consecutive.upTo_eq {k : ℕ} {log : List LogEntry} (h : Consecutive k log) (t : ℕ) :
    upTo t log = log.take (t + 1 - k) := by
  induction log generalizing k with
  | nil => simp [upTo]
  | cons l log ih =>
    obtain ⟨hl, hrest⟩ := h
    rcases Nat.lt_or_ge t k with hlt | hge
    · rw [upTo, List.takeWhile_cons_of_neg (by simpa [hl] using hlt), show t + 1 - k = 0 by omega]
      rfl
    · have := ih hrest
      rw [upTo] at this
      rw [upTo, List.takeWhile_cons_of_pos (by simpa [hl] using hge), this,
        show t + 1 - k = t + 1 - (k + 1) + 1 by omega, List.take_succ_cons]

/-- `sivfs_ts_to_log_entry` finds an entry by counting. -/
theorem Consecutive.tsToLogEntry_eq {k : ℕ} {log : List LogEntry} (h : Consecutive k log) {t : ℕ}
    (ht : k ≤ t) : tsToLogEntry log t = log.drop (t - k) := by
  induction log generalizing k with
  | nil => simp [tsToLogEntry]
  | cons l log ih =>
    obtain ⟨hl, hrest⟩ := h
    rcases Nat.eq_or_lt_of_le ht with rfl | hlt
    · rw [tsToLogEntry, List.dropWhile_cons_of_neg (by simpa using hl), Nat.sub_self]
      rfl
    · have := ih hrest hlt
      rw [tsToLogEntry] at this
      rw [tsToLogEntry, List.dropWhile_cons_of_pos (by simp; omega), this,
        show t - k = t - (k + 1) + 1 by omega, List.drop_succ_cons]

/-- The timestamp of an entry is its place. -/
theorem Consecutive.ts_of_getElem? {k : ℕ} {log : List LogEntry} (h : Consecutive k log) {i : ℕ}
    {l : LogEntry} (hl : log[i]? = some l) : l.ts = k + i := by
  induction log generalizing k i with
  | nil => simp at hl
  | cons x log ih =>
    cases i with
    | zero =>
      obtain rfl := Option.some.inj hl
      exact h.1
    | succ i =>
      rw [ih h.2 hl]
      omega

/-- The timestamps are from `k` on. -/
theorem Consecutive.le_ts {k : ℕ} {log : List LogEntry} (h : Consecutive k log) {l : LogEntry}
    (hl : l ∈ log) : k ≤ l.ts := by
  obtain ⟨i, hi⟩ := List.mem_iff_getElem?.1 hl
  rw [h.ts_of_getElem? hi]
  exact Nat.le_add_right k i

/-- What is left of the log behind `t`. -/
theorem Consecutive.mem_drop_iff {log : List LogEntry} (h : Consecutive 1 log) {l : LogEntry}
    {t : ℕ} : l ∈ log.drop t ↔ l ∈ log ∧ t < l.ts := by
  constructor
  · intro hl
    have := (h.drop t).le_ts hl
    exact ⟨List.mem_of_mem_drop hl, by omega⟩
  · rintro ⟨hl, hlt⟩
    obtain ⟨i, hi⟩ := List.mem_iff_getElem?.1 hl
    have hts := h.ts_of_getElem? hi
    refine List.mem_iff_getElem?.2 ⟨i - t, ?_⟩
    rw [List.getElem?_drop, show t + (i - t) = i by omega, hi]

/-- A timestamp has one entry. -/
theorem Consecutive.eq_of_ts {k : ℕ} {log : List LogEntry} (h : Consecutive k log)
    {l l' : LogEntry} (hl : l ∈ log) (hl' : l' ∈ log) (hts : l.ts = l'.ts) : l = l' := by
  obtain ⟨i, hi⟩ := List.mem_iff_getElem?.1 hl
  obtain ⟨i', hi'⟩ := List.mem_iff_getElem?.1 hl'
  have h₁ := h.ts_of_getElem? hi
  have h₂ := h.ts_of_getElem? hi'
  obtain rfl : i = i' := by omega
  exact Option.some.inj (hi.symm.trans hi')

/-- **The log from `cp` to `t` takes the store at `cp` to the store at `t`.** -/
theorem abs_eq_foldl {log : List LogEntry} (h : Consecutive 1 log) {cp t : ℕ} (hle : cp ≤ t) :
    abs log t = (upTo t (tsToLogEntry log (cp + 1))).foldl .commit (abs log cp) := by
  have hdrop : tsToLogEntry log (cp + 1) = log.drop cp := h.tsToLogEntry_eq (Nat.le_add_left 1 cp)
  rw [hdrop, (h.drop cp).upTo_eq, abs, abs, h.filter_le, h.filter_le,
    show t + 1 - 1 = cp + (t + 1 - (1 + cp)) by omega, show cp + 1 - 1 = cp by omega,
    List.take_add, List.foldl_append]

/-- One commit further. -/
theorem abs_of_mem {log : List LogEntry} (h : Consecutive 1 log) {l : LogEntry} (hl : l ∈ log) :
    abs log l.ts = (abs log (l.ts - 1)).commit l := by
  obtain ⟨i, hi⟩ := List.mem_iff_getElem?.1 hl
  have hts := h.ts_of_getElem? hi
  obtain ⟨hlt, heq⟩ := List.getElem?_eq_some_iff.1 hi
  rw [abs, abs, h.filter_le, h.filter_le, show l.ts + 1 - 1 = i + 1 by omega,
    show l.ts - 1 + 1 - 1 = i by omega, List.take_succ_eq_append_getElem hlt,
      List.foldl_append, heq]
  rfl

/-- A further commit is not seen at earlier timestamps. -/
theorem abs_append {log : List LogEntry} {l : LogEntry} {t : ℕ} (h : t < l.ts) :
    abs (log ++ [l]) t = abs log t := by
  rw [abs, abs, List.filter_append, List.filter_cons_of_neg (by simpa using h)]
  simp

/-- There is an entry for every timestamp up to the last one. -/
theorem Consecutive.tsToLogEntry_cons {log : List LogEntry} (h : Consecutive 1 log) {t : ℕ}
    (h₁ : 1 ≤ t) (ht : t ≤ log.length) : ∃ l rest, tsToLogEntry log t = l :: rest ∧ l.ts = t := by
  rw [h.tsToLogEntry_eq h₁]
  have hc := h.drop (t - 1)
  cases hl : log.drop (t - 1) with
  | nil =>
    have := List.drop_eq_nil_iff.1 hl
    omega
  | cons l rest =>
    rw [hl] at hc
    exact ⟨l, rest, rfl, by rw [hc.1]; omega⟩

end Sivfs
