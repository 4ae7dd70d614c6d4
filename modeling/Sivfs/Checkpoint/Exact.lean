/-
# Snapshot reads are exact

Every checkpoint shows the store at its timestamp (`Shows`): the checkpoint
thread applies the log since the last checkpoint to a copy of it, and a failed
attempt leaves behind pages that nobody can reach.  A page read from a
checkpoint and brought up to date from the log is then the page of the store at
the thread's timestamp (`snapshot_exact`), and if the log has no write to the
page in between, the page of the checkpoint already is.
-/

import Sivfs.Checkpoint.Snapshot

open PathCopy

namespace Sivfs
namespace Checkpoint

/-! ### Building -/

/-- The checkpoint shows the store, as far as it has room. -/
def Shows (h : Heap) (root : Option Ref) (st : Store) : Prop :=
  ∀ ino off, InRange ino off → IsPage st ino off (h.contents root (pathOf ino off))

/-- The entry is well-formed, and the checkpoint tree has room for its write. -/
def Applicable (ent : WsEntry) : Prop :=
  (entryBytes ent.streamControl).isSome ∧ InRange ent.ino ent.fileOffset

/-- How a step of an attempt may end: with the changes to the store made, or with
an error that leaves older pages alone. -/
def Ends (n₀ ts : ℕ) (h : Heap) (st : Store) (ws : List WsEntry) :
    Build × Except Errno Unit → Prop
  | (b, .error e) => HeapOk b.heap ∧ Frozen n₀ h b.heap ∧
      (e = .enomem ∨ (e = .einval ∧ ∃ ent ∈ ws, ¬Applicable ent))
  | (b, .ok ()) => (∃ label, Attempt n₀ ts label b) ∧ Frozen n₀ h b.heap ∧ Shows b.heap b.root st

/-- An attempt that went well from a later heap on. -/
theorem Ends.mono {n₀ ts : ℕ} {h h' : Heap} {st : Store} {ws ws' : List WsEntry}
    {res : Build × Except Errno Unit} (hr : Ends n₀ ts h' st ws res) (hf : Frozen n₀ h h')
    (hws : ∀ ent ∈ ws, ent ∈ ws') : Ends n₀ ts h st ws' res := by
  obtain ⟨b, e | u⟩ := res
  · obtain ⟨hok, hf', he⟩ := hr
    refine ⟨hok, hf.trans hf', he.imp_right ?_⟩
    rintro ⟨he, ent, hent, hout⟩
    exact ⟨he, ent, hws ent hent, hout⟩
  · obtain ⟨ha, hf', hs⟩ := hr
    exact ⟨ha, hf.trans hf', hs⟩

section Loops

variable {n₀ ts : ℕ} {label : Ref → List ℕ} {b : Build} {st : Store} (faults : Faults)

/-- **One change.** -/
theorem applyChange_ends (ha : Attempt n₀ ts label b) (hts : 0 < ts)
    (hs : Shows b.heap b.root st) (ent : WsEntry) :
    Ends n₀ ts b.heap (st.apply ent) [ent] (applyChangeCheckpoint faults ts b ent) := by
  rw [applyChangeCheckpoint, checkpointIterInit_eq]
  split_ifs with hin
  · have hspec := applyLoop_spec hts faults ent (pathOf ent.ino ent.fileOffset) ha
      (slotOk_root label b _ _)
    simp only [List.nil_append] at hspec
    split at hspec
    · rename_i b' e hloop
      simp only [hloop]
      exact ⟨hspec.2.1, hspec.2.2, .inl hspec.1⟩
    · rename_i b' hloop
      simp only [hloop]
      obtain ⟨label', ha', hf, hcont⟩ := hspec
      refine ⟨⟨label', ha'⟩, hf, fun ino off hr => ?_⟩
      rw [hcont]
      by_cases hit : hitsPage ino off ent = true
      · obtain ⟨hi, hp⟩ := hitsPage_iff.1 hit
        rw [if_pos (by rw [hi, pathOf_congr ino hp])]
        exact (hs ino off hr).apply hit
      · rw [if_neg ?_]
        · exact (hs ino off hr).apply_other hit
        · intro heq
          obtain ⟨hi, hp⟩ := pathOf_injective hr hin heq
          exact hit (hitsPage_iff.2 ⟨hi.symm, hp.symm⟩)
  · exact ⟨ha.ok, .refl _ _, .inr ⟨rfl, ent, List.mem_singleton_self _, fun happ => hin happ.2⟩⟩

/-- **One write-set.** -/
theorem applyWriteset_ends (hts : 0 < ts) (ws : List WsEntry) :
    ∀ {b : Build} {label : Ref → List ℕ} {st : Store}, Attempt n₀ ts label b →
      Shows b.heap b.root st →
      Ends n₀ ts b.heap (ws.foldl .apply st) ws (applyWriteset faults ts ws b) := by
  induction ws with
  | nil =>
    intro b label st ha hs
    exact ⟨⟨label, ha⟩, .refl _ _, hs⟩
  | cons ent ws ih =>
    intro b label st ha hs
    rw [applyWriteset]
    rcases hinfo : headInfo ent ws with e | info
    · obtain ⟨rfl, hnone⟩ := headInfo_error hinfo
      refine ⟨ha.ok, .refl _ _, .inr ⟨rfl, ent, List.mem_cons_self, fun happ => ?_⟩⟩
      rw [Applicable, hnone] at happ
      exact absurd happ.1 Bool.false_ne_true
    have hone := applyChange_ends faults ha hts hs ent
    rcases hres : applyChangeCheckpoint faults ts b ent with ⟨b', e | u⟩
    · rw [hres] at hone
      exact Ends.mono hone (.refl _ _) (by simp)
    · rw [hres] at hone
      obtain ⟨⟨label', ha'⟩, hf, hs'⟩ := hone
      exact (ih ha' hs').mono hf fun x hx => List.mem_cons_of_mem _ hx

/-- The entries of a list of commits that are not aborted. -/
def liveEntries (log : List LogEntry) : List WsEntry :=
  (log.filter fun l => ¬l.aborted).flatMap LogEntry.ws

/-- The writes of a log, commit by commit. -/
theorem liveEntries_cons (l : LogEntry) (log : List LogEntry) :
    liveEntries (l :: log) = liveEntries [l] ++ liveEntries log := by
  simp only [liveEntries, List.filter_cons]
  split_ifs <;> simp

/-- The log up to a timestamp begins with its first entry, or is empty. -/
theorem upTo_cons {t : ℕ} {l : LogEntry} (h : l.ts ≤ t) (rest : List LogEntry) :
    upTo t (l :: rest) = l :: upTo t rest :=
  List.takeWhile_cons_of_pos (by simpa using h)

/-- It is empty if the first entry is later. -/
theorem upTo_eq_nil {t : ℕ} {rest : List LogEntry} (h : ∀ l, rest.head? = some l → t < l.ts) :
    upTo t rest = [] := by
  cases rest with
  | nil => rfl
  | cons l rest => exact List.takeWhile_cons_of_neg (by simpa using h l rfl)

/-- **One commit.** -/
theorem commit_ends (hts : 0 < ts) (ha : Attempt n₀ ts label b) (hs : Shows b.heap b.root st)
    (l : LogEntry) : Ends n₀ ts b.heap (st.commit l) (liveEntries [l])
      (applyLogEntry faults ts l b) := by
  rw [applyLogEntry, Store.commit]
  cases hab : l.aborted with
  | true => exact ⟨⟨label, ha⟩, .refl _ _, hs⟩
  | false =>
    refine (applyWriteset_ends faults hts l.ws ha hs).mono (.refl _ _) fun ent hent => ?_
    simpa [liveEntries, hab] using hent

/-- Commits are applied in order. -/
def applyLogEntries (ts : ℕ) : List LogEntry → Build → Build × Except Errno Unit
  | [], b => (b, .ok ())
  | l :: rest, b =>
    match applyLogEntry faults ts l b with
    | (b, .error e) => (b, .error e)
    | (b, .ok ()) => applyLogEntries ts rest b

/-- The loop of `_sivfs_make_checkpoint` visits the entries up to `next_ts`. -/
theorem makeCheckpointLoop_eq (log : List LogEntry) :
    ∀ {k : ℕ} {b : Build}, Consecutive k log →
      makeCheckpointLoop faults ts log b = applyLogEntries faults ts (upTo ts log) b := by
  induction log with
  | nil =>
    intro k b _
    rfl
  | cons l rest ih =>
    intro k b hc
    obtain ⟨hl, hrest⟩ := hc
    rw [makeCheckpointLoop]
    rcases Nat.lt_or_ge ts l.ts with hlt | hge
    · rw [if_pos hlt, upTo_eq_nil (by simpa using hlt)]
      rfl
    · rw [if_neg (by omega), upTo_cons hge, applyLogEntries]
      rcases hres : applyLogEntry faults ts l b with ⟨b', e | u⟩
      · rfl
      · show (if l.ts = ts then (b', .ok ()) else _) = applyLogEntries faults ts (upTo ts rest) b'
        cases rest with
        | nil =>
          split_ifs <;> rfl
        | cons next rest =>
          have hnext : next.ts = k + 1 := hrest.1
          rcases Nat.lt_or_ge ts next.ts with hlt | hge'
          · rw [upTo_eq_nil (by simpa using hlt)]
            split_ifs
            · rfl
            · exact if_pos hlt
          · rw [if_neg (by omega)]
            exact (if_neg (by omega)).trans (ih hrest)

/-- **The log of an attempt.** -/
theorem applyLogEntries_ends (hts : 0 < ts) (log : List LogEntry) :
    ∀ {b : Build} {label : Ref → List ℕ} {st : Store}, Attempt n₀ ts label b →
      Shows b.heap b.root st →
      Ends n₀ ts b.heap (log.foldl .commit st) (liveEntries log)
        (applyLogEntries faults ts log b) := by
  induction log with
  | nil =>
    intro b label st ha hs
    exact ⟨⟨label, ha⟩, .refl _ _, hs⟩
  | cons l rest ih =>
    intro b label st ha hs
    have hone := commit_ends faults hts ha hs l
    rw [liveEntries_cons, applyLogEntries]
    rcases hres : applyLogEntry faults ts l b with ⟨b', e | u⟩
    · rw [hres] at hone
      exact Ends.mono hone (.refl _ _) fun ent hent => List.mem_append_left _ hent
    · rw [hres] at hone
      obtain ⟨⟨label', ha'⟩, hf, hs'⟩ := hone
      exact (ih ha' hs').mono hf fun ent hent => List.mem_append_right _ hent

end Loops

/-- There are only zero pages at first. -/
theorem heapOk_empty : HeapOk ⟨0, fun _ => blankPage⟩ := by
  have hzero : ∀ r k c, (⟨0, fun _ => blankPage⟩ : Heap).child r k = some c →
      ∃ l l', r = .zero l ∧ c = .zero l' ∧ l' + 1 = l := by
    intro r k c h
    cases r with
    | zero l =>
      rcases mkZeroCheckpointPage_ents l k with h' | ⟨l', hl, h'⟩
      · exact absurd (h'.symm.trans h) (by simp)
      · exact ⟨l, l', rfl, (Option.some.inj (h'.symm.trans h)).symm, hl⟩
    | page j => simp [Heap.child, Heap.mem, blankPage, PageMem.ents] at h
  refine ⟨⟨fun id _ k => rfl, fun r k id h => ?_, fun r _ => ?_, fun r k c h => ?_⟩,
    fun r k c h => ?_⟩
  · obtain ⟨l, l', -, h', -⟩ := hzero r k _ h
    simp at h'
  · cases r with
    | zero l => exact mkZeroCheckpointPage_words l
    | page j => rfl
  · obtain ⟨l, l', rfl, rfl, hl⟩ := hzero r k c h
    exact hl
  · obtain ⟨l, l', rfl, rfl, -⟩ := hzero r k c h
    exact le_rfl

/-! ### Checkpoints -/

/-- The root of a checkpoint of time `t`. -/
def RootOk (h : Heap) (t : ℕ) (root : Option Ref) : Prop :=
  ∀ r, root = some r → Valid h.next r ∧ h.level r = 6 ∧ h.checkpointTs r ≤ t

/-- The checkpoint shows the store at its timestamp. -/
structure CpOk (s : Shared) (cp : Cp) : Prop where
  root : ∀ r, cp.root = some r → Valid s.heap.next r ∧ s.heap.level r = 6 ∧
    s.heap.checkpointTs r ≤ cp.cpTs
  le : cp.cpTs ≤ s.masterTs
  shows : Shows s.heap cp.root (abs s.log cp.cpTs)

/-- What the commits and the checkpoint thread keep. -/
structure SharedOk (s : Shared) : Prop where
  log : Consecutive 1 s.log
  masterTs : s.masterTs = s.log.length
  heap : HeapOk s.heap
  latest : CpOk s s.latest

/-- Older pages point to older pages. -/
theorem HeapOk.closed {h : Heap} (hok : HeapOk h) (r : Ref) (k : ℕ) (c : Ref)
    (_ : Valid h.next r) (hc : h.child r k = some c) : Valid h.next c :=
  hok.toHeapWf.valid hc

/-- An attempt does not disturb the checkpoints made before. -/
theorem CpOk.frozen {s : Shared} (hok : HeapOk s.heap) {cp : Cp} (h : CpOk s cp) {heap : Heap}
    (hf : Frozen s.heap.next s.heap heap) (latest : Cp) :
    CpOk { s with heap := heap, latest := latest } cp := by
  refine ⟨fun r hr => ?_, h.le, fun ino off hin => ?_⟩
  · obtain ⟨hv, hl, ht⟩ := h.root r hr
    cases r with
    | zero l => exact ⟨trivial, hl, ht⟩
    | page id =>
      exact ⟨hv.mono hf.next_le, (hf.level id hv).trans hl, (hf.checkpointTs id hv).trans_le ht⟩
  · show IsPage _ ino off (heap.contents cp.root (pathOf ino off))
    rw [hf.contents hok.closed fun r hr => (h.root r hr).1]
    exact h.shows ino off hin

/-- An attempt starts from the latest checkpoint. -/
theorem attempt_start {s : Shared} (hok : HeapOk s.heap)
    (hroot : RootOk s.heap s.latest.cpTs s.latest.root) (hlt : s.latest.cpTs < s.masterTs) :
    Attempt s.heap.next s.masterTs (fun _ => []) ⟨s.heap, s.latest.root, []⟩ := by
  have hold : ∀ r, Valid s.heap.next r → ¬Own s.heap.next r := by
    intro r hv hown
    cases r with
    | zero => exact hown
    | page id => exact absurd hv (not_lt.2 hown)
  refine ⟨hok, le_rfl, fun id hid hlt => absurd hlt (not_lt.2 hid), fun c hc hcase => ?_,
    ⟨fun r hr hown => rfl, fun r k c hc hown => absurd hown (hold c (hok.toHeapWf.valid hc))⟩,
    fun c hc => ⟨(hroot c hc).1, (hroot c hc).2.1⟩⟩
  rcases hcase with hc' | ⟨r, k, hr, hc'⟩
  · exact (hroot c hc').2.2.trans_lt hlt
  · cases r with
    | zero => exact absurd hr id
    | page id =>
      rw [hok.fresh id hr] at hc'
      simp at hc'

/-- An attempt begins with the latest checkpoint. -/
theorem SharedOk.attempt {s : Shared} (h : SharedOk s) (hne : s.masterTs ≠ s.latest.cpTs) :
    Attempt s.heap.next s.masterTs (fun _ => []) ⟨s.heap, s.latest.root, []⟩ :=
  attempt_start h.heap h.latest.root (lt_of_le_of_ne h.latest.le (Ne.symm hne))

/-- An attempt applies the log since the latest checkpoint. -/
theorem applyLog_eq_entries {s : Shared} (hlog : Consecutive 1 s.log)
    (hlen : s.masterTs = s.log.length) (hlt : s.latest.cpTs < s.masterTs) (faults : Faults)
    (b : Build) : applyLog faults s.log s.latest.cpTs s.masterTs b =
      applyLogEntries faults s.masterTs
        (upTo s.masterTs (tsToLogEntry s.log (s.latest.cpTs + 1))) b := by
  obtain ⟨l, rest, hcut, -⟩ := hlog.tsToLogEntry_cons (Nat.le_add_left 1 s.latest.cpTs) (by omega)
  have hcons : Consecutive (s.latest.cpTs + 1) (tsToLogEntry s.log (s.latest.cpTs + 1)) := by
    rw [hlog.tsToLogEntry_eq (Nat.le_add_left 1 s.latest.cpTs), Nat.add_sub_cancel, Nat.add_comm]
    exact hlog.drop _
  rw [applyLog, if_neg hlt.ne']
  rw [hcut] at hcons ⊢
  exact makeCheckpointLoop_eq faults _ hcons

/-- What it applies is the log behind that checkpoint. -/
theorem SharedOk.applyLog_eq {s : Shared} (h : SharedOk s) (hne : s.masterTs ≠ s.latest.cpTs)
    (faults : Faults) (b : Build) : applyLog faults s.log s.latest.cpTs s.masterTs b =
      applyLogEntries faults s.masterTs
        (upTo s.masterTs (tsToLogEntry s.log (s.latest.cpTs + 1))) b :=
  applyLog_eq_entries h.log h.masterTs (lt_of_le_of_ne h.latest.le (Ne.symm hne)) faults b

/-- **An attempt ends with the store at `master_ts`, or harmlessly.** -/
theorem SharedOk.applyLog_ends {s : Shared} (h : SharedOk s) (hne : s.masterTs ≠ s.latest.cpTs)
    (faults : Faults) : Ends s.heap.next s.masterTs s.heap (abs s.log s.masterTs)
      (liveEntries (upTo s.masterTs (tsToLogEntry s.log (s.latest.cpTs + 1))))
      (applyLog faults s.log s.latest.cpTs s.masterTs ⟨s.heap, s.latest.root, []⟩) := by
  have hlt : s.latest.cpTs < s.masterTs := lt_of_le_of_ne h.latest.le (Ne.symm hne)
  rw [h.applyLog_eq hne, abs_eq_foldl h.log hlt.le]
  exact applyLogEntries_ends faults (by omega) _ (h.attempt hne) h.latest.shows

/-- **`sivfs_make_checkpoint`**, successful or not, leaves every checkpoint as it
was and publishes a correct one. -/
theorem SharedOk.makeCheckpoint {s : Shared} (h : SharedOk s) (faults : MakeFaults) :
    SharedOk (makeCheckpoint faults s).1 ∧
      ∀ cp, CpOk s cp → CpOk (Checkpoint.makeCheckpoint faults s).1 cp := by
  rw [Checkpoint.makeCheckpoint]
  split_ifs with heq
  · exact ⟨h, fun _ hc => hc⟩
  · cases faults.setup with
    | some e => exact ⟨h, fun _ hc => hc⟩
    | none =>
      have hends := h.applyLog_ends heq faults.pages
      have hfail : ∀ heap, HeapOk heap → Frozen s.heap.next s.heap heap →
          SharedOk { s with heap := heap } ∧ ∀ cp, CpOk s cp → CpOk { s with heap := heap } cp :=
        fun heap hok hf => ⟨⟨h.log, h.masterTs, hok, h.latest.frozen h.heap hf _⟩, fun cp hc =>
          hc.frozen h.heap hf _⟩
      rcases hres : applyLog faults.pages s.log s.latest.cpTs s.masterTs
        ⟨s.heap, s.latest.root, []⟩ with ⟨b, e | u⟩
      · rw [hres] at hends
        exact hfail b.heap hends.1 hends.2.1
      · rw [hres] at hends
        obtain ⟨⟨label, ha⟩, hf, hshows⟩ := hends
        have hpub : CpOk { s with heap := b.heap, latest := ⟨b.root, s.masterTs⟩ }
            ⟨b.root, s.masterTs⟩ := by
          refine ⟨fun r hr => ?_, le_rfl, hshows⟩
          obtain ⟨hv, hl⟩ := ha.root_ok r hr
          refine ⟨hv, hl, ?_⟩
          rcases Classical.em (Own s.heap.next r) with hown | hown
          · cases r with
            | zero => exact absurd hown id
            | page id => exact (ha.own_ts id hown hv).le
          · exact (ha.young r hown (.inl hr)).le
        cases faults.insert with
        | some e => exact hfail b.heap ha.ok hf
        | none =>
          cases faults.mark with
          | some e => exact hfail b.heap ha.ok hf
          | none => exact ⟨⟨h.log, h.masterTs, ha.ok, hpub⟩, fun cp hc => hc.frozen h.heap hf _⟩

/-- The checkpoint thread stores to the heap and to `latest_checkpoint`, which it moves up to
`master_ts` or leaves. -/
theorem makeCheckpoint_stores {s : Shared} (faults : MakeFaults)
    (hle : s.latest.cpTs ≤ s.masterTs) : (makeCheckpoint faults s).1.log = s.log ∧
      (makeCheckpoint faults s).1.masterTs = s.masterTs ∧
      s.latest.cpTs ≤ (makeCheckpoint faults s).1.latest.cpTs := by
  rw [makeCheckpoint]
  split_ifs with heq
  · exact ⟨rfl, rfl, le_rfl⟩
  · cases faults.setup with
    | some e => exact ⟨rfl, rfl, le_rfl⟩
    | none =>
      rcases applyLog faults.pages s.log s.latest.cpTs s.masterTs
        ⟨s.heap, s.latest.root, []⟩ with ⟨b, e | u⟩
      · exact ⟨rfl, rfl, le_rfl⟩
      · cases faults.insert with
        | some e => exact ⟨rfl, rfl, le_rfl⟩
        | none =>
          cases faults.mark with
          | some e => exact ⟨rfl, rfl, le_rfl⟩
          | none => exact ⟨rfl, rfl, hle⟩

/-- A commit leaves every checkpoint as it was. -/
theorem CpOk.commit {s : Shared} {cp : Cp} (h : CpOk s cp) (l : LogEntry)
    (hl : l.ts = s.masterTs + 1) :
    CpOk { s with log := s.log ++ [l], masterTs := s.masterTs + 1 } cp := by
  refine ⟨h.root, h.le.trans (Nat.le_succ _), ?_⟩
  have := h.le
  show Shows s.heap cp.root (abs (s.log ++ [l]) cp.cpTs)
  rw [abs_append (by omega)]
  exact h.shows

/-! ### Reading -/

/-- The replay visits the entries up to the target. -/
theorem replayLoop_eq (ino off t : ℕ) (rest : List LogEntry) :
    ∀ {l : LogEntry} {mem : ℕ → ℕ}, l.ts ≤ t → replayLoop ino off t (l :: rest) mem =
      (upTo t (l :: rest)).foldl (replayEntry ino off) mem := by
  induction rest with
  | nil =>
    intro l mem hl
    rw [upTo_cons hl]
    rfl
  | cons next rest ih =>
    intro l mem hl
    rw [replayLoop, upTo_cons hl, List.foldl_cons]
    split_ifs with hlt
    · rw [upTo_eq_nil (by simpa using hlt)]
      rfl
    · exact ih (not_lt.1 hlt)

/-- Replaying a commit on a page is the page of the commit. -/
theorem replayEntry_isPage {st : Store} {ino off : ℕ} {mem : ℕ → ℕ} (h : IsPage st ino off mem)
    (l : LogEntry) : IsPage (st.commit l) ino off (replayEntry ino off mem l) := by
  rw [Store.commit, replayEntry]
  split_ifs
  · exact h
  · generalize l.ws = ws
    induction ws generalizing st mem with
    | nil => exact h
    | cons ent ws ih =>
      refine ih ?_
      show IsPage _ _ _ (if hitsPage ino off ent then applyWsEntPg mem ent else mem)
      split_ifs with hit
      · exact h.apply hit
      · exact h.apply_other hit

/-- A replay of the log gives the page. -/
theorem replay_isPage {st : Store} {ino off : ℕ} {mem : ℕ → ℕ} (h : IsPage st ino off mem)
    (log : List LogEntry) :
    IsPage (log.foldl .commit st) ino off (log.foldl (replayEntry ino off) mem) := by
  induction log generalizing st mem with
  | nil => exact h
  | cons l log ih => exact ih (replayEntry_isPage h l)

/-- No commit that counts writes to the range. -/
def NoWrite (ino start stop : ℕ) (log : List LogEntry) : Prop :=
  ∀ l ∈ log, l.aborted = false → ∀ ent ∈ l.ws,
    ¬(ent.ino = ino ∧ start ≤ ent.fileOffset ∧ ent.fileOffset < stop)

/-- If the search finds nothing, nothing is there. -/
theorem noWrite_of_findFirstWriteLoop {t ino start stop : ℕ} (rest : List LogEntry) :
    ∀ {l : LogEntry}, l.ts ≤ t → findFirstWriteLoop t ino start stop (l :: rest) = invalidTs →
      NoWrite ino start stop (upTo t (l :: rest)) := by
  have hhead : ∀ {l : LogEntry} {log : List LogEntry}, NoWrite ino start stop log →
      ¬(¬l.aborted = true ∧ (l.ws.any fun ent =>
        decide (ent.ino = ino ∧ rangeOverlapsWsent start stop ent = true)) = true) →
      NoWrite ino start stop (l :: log) := by
    intro l log hlog hl x hx hab ent hent hhit
    rcases List.mem_cons.1 hx with rfl | hx
    · refine hl ⟨by simp [hab], List.any_eq_true.2 ⟨ent, hent, ?_⟩⟩
      simpa [rangeOverlapsWsent] using hhit
    · exact hlog x hx hab ent hent hhit
  induction rest with
  | nil =>
    intro l hl h
    rw [upTo_cons hl]
    rw [findFirstWriteLoop] at h
    split_ifs at h with hc
    · exact absurd h WithTop.coe_ne_top
    · exact hhead (by simp [NoWrite, upTo]) hc
  | cons next rest ih =>
    intro l hl h
    rw [upTo_cons hl]
    rw [findFirstWriteLoop] at h
    by_cases hc : ¬l.aborted = true ∧ (l.ws.any fun ent =>
        decide (ent.ino = ino ∧ rangeOverlapsWsent start stop ent = true)) = true
    · rw [if_pos hc] at h
      exact absurd h WithTop.coe_ne_top
    · rw [if_neg hc] at h
      refine hhead ?_ hc
      split_ifs at h with hlt
      · rw [upTo_eq_nil (by simpa using hlt)]
        simp [NoWrite]
      · exact ih (not_lt.1 hlt) h

/-- Commits that do not write to a page leave it alone. -/
theorem IsPage.of_noWrite {st : Store} {ino off : ℕ} {words : ℕ → ℕ} (h : IsPage st ino off words)
    (hoff : off % pageSize = 0) {log : List LogEntry} (hno : NoWrite ino off (off + pageSize) log) :
    IsPage (log.foldl .commit st) ino off words := by
  induction log generalizing st with
  | nil => exact h
  | cons l log ih =>
    refine ih ?_ fun x hx => hno x (List.mem_cons_of_mem _ hx)
    have hl := hno l List.mem_cons_self
    rw [Store.commit]
    cases hab : l.aborted with
    | true => exact h
    | false =>
      have hmiss : ∀ ent ∈ l.ws, ¬hitsPage ino off ent := by
        intro ent hent hit
        obtain ⟨hi, hp⟩ := hitsPage_iff.1 hit
        refine hl hab ent hent ⟨hi, ?_⟩
        simp only [pageSize] at hp hoff ⊢
        omega
      show IsPage (l.ws.foldl .apply st) ino off words
      generalize l.ws = ws at hmiss
      induction ws generalizing st with
      | nil => exact h
      | cons ent ws ih =>
        exact ih (h.apply_other (hmiss ent List.mem_cons_self)) fun x hx =>
          hmiss x (List.mem_cons_of_mem _ hx)

/-- The page of a checkpoint, where it has room for one. -/
theorem CpOk.readCheckpoint {s : Shared} {cp : Cp} (h : CpOk s cp) {ino off : ℕ}
    (hin : InRange ino off) (hoff : off % pageSize = 0) :
    ∃ words, readCheckpoint s.heap cp.root ino off = .ok words ∧
      IsPage (abs s.log cp.cpTs) ino off words := by
  refine ⟨_, ?_, h.shows ino off hin⟩
  rw [Checkpoint.readCheckpoint, if_neg (by simpa using hoff), checkpointIterInit_eq, if_pos hin]
  rfl

/-- **`my_sivfs_update_page` gives the page of the store at the snapshot.** -/
theorem CpOk.updatePage {s : Shared} {cp : Cp} (h : CpOk s cp) (hlog : Consecutive 1 s.log) {n : ℕ}
    (hle : cp.cpTs ≤ n) (hn : n ≤ s.log.length) {ino off : ℕ} (hin : InRange ino off)
    (hoff : off % pageSize = 0) :
    ∃ words, updatePage s ⟨(n : Ts), some cp⟩ ino off = .ok words ∧
      IsPage (abs s.log n) ino off words := by
  obtain ⟨mem, hread, hpage⟩ := h.readCheckpoint hin hoff
  rcases Nat.eq_or_lt_of_le hle with rfl | hlt
  · refine ⟨mem, ?_, hpage⟩
    simp only [Checkpoint.updatePage, hoff, ne_eq, not_true, if_false, hread]
    exact if_pos (Nat.lt_succ_self _)
  · obtain ⟨l, rest, hl, hts⟩ := hlog.tsToLogEntry_cons (Nat.le_add_left 1 cp.cpTs) (by omega)
    refine ⟨replayLoop ino off n (l :: rest) mem, ?_, ?_⟩
    · simp only [Checkpoint.updatePage, hoff, ne_eq, not_true, if_false, hread]
      refine (if_neg (show ¬n < cp.cpTs + 1 by omega)).trans ?_
      rw [hl]
      rfl
    · rw [abs_eq_foldl hlog hlt.le, hl, replayLoop_eq ino off n rest (by omega)]
      exact replay_isPage hpage _

/-- `my_sivfs_update_page` fails on a page that the checkpoint has no room for. -/
theorem updatePage_inRange {s : Shared} {cp : Cp} {n ino off : ℕ} {words : ℕ → ℕ}
    (h : updatePage s ⟨(n : Ts), some cp⟩ ino off = .ok words) (hoff : off % pageSize = 0) :
    InRange ino off := by
  by_contra hout
  have hread : Checkpoint.readCheckpoint s.heap cp.root ino off = .error .einval := by
    rw [Checkpoint.readCheckpoint, if_neg (by simpa using hoff), checkpointIterInit_eq, if_neg hout]
    rfl
  simp only [Checkpoint.updatePage, hoff, ne_eq, not_true, if_false, hread] at h
  exact absurd h (by simp)

/-! ### Whole runs -/

section Runs

variable {ι : Type*} [DecidableEq ι] {s s' : State ι}

/-- Every checkpoint that is published or checked out is correct. -/
structure Inv (s : State ι) : Prop where
  shared : SharedOk s.toShared
  threads : ∀ i cp, (s.threads i).checkpoint = some cp → CpOk s.toShared cp

/-- A thread moves. -/
theorem Inv.setThread (h : Inv s) (i : ι) {th : Thread}
    (hth : ∀ cp, th.checkpoint = some cp → CpOk s.toShared cp) : Inv (s.setThread i th) := by
  refine ⟨h.shared, fun j cp hcp => ?_⟩
  rcases eq_or_ne j i with rfl | hji
  · simp only [State.setThread, Function.update_self] at hcp
    exact hth cp hcp
  · simp only [State.setThread, Function.update_of_ne hji] at hcp
    exact h.threads j cp hcp

/-- **Every step keeps the invariant.** -/
theorem Inv.step (h : Inv s) {a : Act ι} (hstep : step s a = some s') : Inv s' := by
  cases a with
  | commit aborted ws =>
    simp only [Checkpoint.step] at hstep
    split_ifs at hstep
    obtain rfl := Option.some.inj hstep
    have hlen := h.shared.masterTs
    refine ⟨⟨h.shared.log.append ?_, ?_, h.shared.heap, h.shared.latest.commit _ rfl⟩,
      fun i cp hcp => (h.threads i cp hcp).commit _ rfl⟩
    · show s.masterTs + 1 = 1 + s.log.length
      omega
    · show s.masterTs + 1 = (s.log ++ [_]).length
      rw [List.length_append, List.length_singleton]
      omega
  | makeCheckpoint faults =>
    obtain rfl := Option.some.inj hstep
    obtain ⟨hs, hcps⟩ := h.shared.makeCheckpoint faults
    exact ⟨hs, fun i cp hcp => hcps cp (h.threads i cp hcp)⟩
  | checkout i =>
    obtain rfl := Option.some.inj hstep
    refine h.setThread i fun cp hcp => ?_
    obtain rfl := Option.some.inj hcp
    exact h.shared.latest
  | update i =>
    obtain rfl := Option.some.inj hstep
    exact h.setThread i fun cp hcp => h.threads i cp hcp
  | pause i =>
    obtain rfl := Option.some.inj hstep
    exact h.setThread i (by simp)

omit [DecidableEq ι] in
/-- After mounting. -/
theorem Init.inv (h : Init s) : Inv s := by
  obtain ⟨hs, hthr⟩ := h
  refine ⟨?_, fun i cp hcp => by simp [hthr] at hcp⟩
  rw [hs]
  refine ⟨trivial, rfl, heapOk_empty, ⟨by simp, le_rfl, fun ino off _ j _ => ?_⟩⟩
  show (Heap.contents _ none (pathOf ino off)) j = 0
  rw [Heap.contents, follow_none]

/-- **It holds in every state.** -/
theorem reachable_inv (h : (machine ι).Reachable s) : Inv s :=
  h.invariant (I := fun s => Inv s) (fun _ hs => Init.inv hs) fun _ _ _ _ hi hstep => hi.step hstep

/-- **Snapshot reads are exact.**  In every reachable state, for a thread with a
checkpoint at or before its snapshot, `my_sivfs_update_page` gives the page of
the store at the snapshot, and if `sivfs_find_first_write` finds no write after
the checkpoint, the page of the checkpoint is the same. -/
theorem snapshot_exact (h : (machine ι).Reachable s) {i : ι} {cp : Cp} {n : ℕ}
    (hcp : (s.threads i).checkpoint = some cp) (hts : (s.threads i).ts = (n : Ts))
    (hle : cp.cpTs ≤ n) (hmaster : n ≤ s.masterTs) {ino off : ℕ} (hin : InRange ino off)
    (hoff : off % pageSize = 0) :
    (∃ words, updatePage s.toShared (s.threads i) ino off = .ok words ∧
      IsPage (abs s.log n) ino off words) ∧
    ∃ first, findFirstWrite s.toShared cp.cpTs n ino off (off + pageSize) = .ok first ∧
      (first = invalidTs → ∃ words, readCheckpoint s.heap cp.root ino off = .ok words ∧
        IsPage (abs s.log n) ino off words) := by
  have hi := reachable_inv h
  have hok := hi.threads i cp hcp
  have hlen := hi.shared.masterTs
  have hthread : s.threads i = ⟨(n : Ts), some cp⟩ := by rw [← hts, ← hcp]
  obtain ⟨words, hread, hpage⟩ := hok.readCheckpoint hin hoff
  have hrange : ¬(n < cp.cpTs ∨ off + pageSize ≤ off) := by
    simp only [pageSize]
    omega
  constructor
  · rw [hthread]
    exact hok.updatePage hi.shared.log hle (by omega) hin hoff
  · rw [findFirstWrite, if_neg hrange]
    rcases Nat.eq_or_lt_of_le hle with rfl | hlt
    · rw [if_pos rfl]
      exact ⟨_, rfl, fun _ => ⟨words, hread, hpage⟩⟩
    · obtain ⟨l, rest, hlog, hl⟩ := hi.shared.log.tsToLogEntry_cons (Nat.le_add_left 1 cp.cpTs)
        (by omega)
      rw [if_neg (by omega), abs_eq_foldl hi.shared.log hlt.le, hlog]
      refine ⟨_, rfl, fun hfirst => ⟨words, hread, ?_⟩⟩
      exact IsPage.of_noWrite hpage hoff
        (noWrite_of_findFirstWriteLoop rest (show l.ts ≤ n by omega) hfirst)

end Runs

/-- One thread, after mounting. -/
def mounted : State Unit where
  log := []
  masterTs := 0
  heap := ⟨0, fun _ => blankPage⟩
  latest := ⟨none, 0⟩
  threads := fun _ => ⟨invalidTs, none⟩

/-- One commit is in the checkpoint, one is after it and one was aborted; between
them an attempt to make a checkpoint runs out of memory. -/
def threeCommits : List (Act Unit) :=
  [.commit false [⟨1, 8, 0, 0, 7⟩],
    .makeCheckpoint ⟨none, ⟨fun n => n = 5, fun _ => false⟩, none, none⟩,
    .makeCheckpoint ⟨none, ⟨fun _ => false, fun _ => false⟩, none, none⟩,
    .checkout (), .commit false [⟨1, 16, 0, 0, 9⟩], .commit true [⟨1, 8, 0, 0, 1⟩], .update ()]

/-- After `threeCommits` the thread reads `7` and `9`. -/
theorem snapshot_exact_threeCommits : ∃ s, (machine Unit).Reachable s ∧ ∃ cp,
    (s.threads ()).checkpoint = some cp ∧ (s.threads ()).ts = ((3 : ℕ) : Ts) ∧ cp.cpTs = 1 ∧
    s.masterTs = 3 ∧ InRange 1 0 ∧ 0 % pageSize = 0 ∧ abs s.log 3 1 1 = 7 ∧ abs s.log 3 1 2 = 9 ∧
    (∃ words, updatePage s.toShared (s.threads ()) 1 0 = .ok words ∧
      IsPage (abs s.log 3) 1 0 words) ∧
    ∃ first, findFirstWrite s.toShared cp.cpTs 3 1 0 (0 + pageSize) = .ok first ∧
      (first = invalidTs → ∃ words, readCheckpoint s.heap cp.root 1 0 = .ok words ∧
        IsPage (abs s.log 3) 1 0 words) := by
  have h : ((machine Unit).run (fun _ _ => true) mounted threeCommits).map
      (fun s => ((s.threads ()).checkpoint.map Cp.cpTs, (s.threads ()).ts, s.masterTs, s.log)) =
      some (some 1, ((3 : ℕ) : Ts), 3, [⟨1, false, [⟨1, 8, 0, 0, 7⟩]⟩,
        ⟨2, false, [⟨1, 16, 0, 0, 9⟩]⟩, ⟨3, true, [⟨1, 8, 0, 0, 1⟩]⟩]) := by decide +kernel
  obtain ⟨s, hs, h⟩ := Option.map_eq_some_iff.1 h
  simp only [Prod.mk.injEq] at h
  obtain ⟨hcp, hts, hmaster, hlog⟩ := h
  obtain ⟨cp, hcp, hcpTs⟩ := Option.map_eq_some_iff.1 hcp
  have hreach : (machine Unit).Reachable s :=
    Machine.ReachableWith.run (fun _ _ _ => trivial) (.init ⟨rfl, fun _ => rfl⟩) hs
  have hin : InRange 1 0 := by decide
  refine ⟨s, hreach, cp, hcp, hts, hcpTs, hmaster, hin, by decide, ?_, ?_,
    snapshot_exact hreach hcp hts (by omega) (by omega) hin (by decide)⟩
  · rw [hlog]
    decide
  · rw [hlog]
    decide

end Checkpoint
end Sivfs
