/-
# Recorded pages

What `sivfs_update` and the walks over a write-set leave in `checkpoint_pages`.  None of them
records a page (`recorded_applyToWspg`, `recorded_unmap`), and `sivfs_apply_logs` leaves those
recorded that no entry in its range writes to (`recorded_applyLogsLoop`).  So after an update
the pages recorded are pages recorded before, and untouched since the snapshot but for the
commit that is skipped (`recorded_update`).
-/

import Sivfs.Update.Mapped

open PathCopy

namespace Sivfs
namespace Mapped

open Checkpoint
open Update (Workingset Resident Env Txn sivfsFindVma submit CutShort)

/-! ### Recorded pages -/

/-- A page of a checkpoint is recorded. -/
def Recorded (pages : Workingset) (ino pgoff : ℕ) : Prop :=
  ∃ r, pages ino pgoff = some r ∧ r.checkpoint = true

section Pages

variable {pages pages' : Workingset} {ino pgoff : ℕ}

/-- A page of the thread's own is not recorded. -/
theorem not_recorded_of_own (h : (pages ino pgoff).any (fun r => !r.checkpoint) = true) :
    ¬Recorded pages ino pgoff := by
  rintro ⟨r, hr, hcp⟩
  simp [hr, hcp] at h

/-- A page that is put somewhere is recorded if it is one of a checkpoint. -/
theorem recorded_put {i o : ℕ} {r : Option Resident} (h : Recorded (pages.put i o r) ino pgoff) :
    (ino = i ∧ pgoff = o ∧ ∃ x, r = some x ∧ x.checkpoint = true) ∨
      (¬(ino = i ∧ pgoff = o) ∧ Recorded pages ino pgoff) := by
  obtain ⟨x, hx, hcp⟩ := h
  rcases Workingset.put_eq_some hx with ⟨rfl, rfl, hr⟩ | ⟨hne, hold⟩
  · exact .inl ⟨rfl, rfl, x, hr, hcp⟩
  · exact .inr ⟨hne, x, hold, hcp⟩

/-- **A write removes the page it goes to from the record.** -/
theorem recorded_applyToWspg {ent : WsEntry}
    (h : Recorded (Update.applyToWspg pages ent) ino pgoff) :
    Recorded pages ino pgoff ∧ ¬hitsPage ino (pgoff * pageSize) ent := by
  rw [Update.hitsPage_pgoff]
  unfold Update.applyToWspg at h
  cases hpage : pages ent.ino (ent.fileOffset / pageSize) with
  | none =>
    simp only [hpage] at h
    refine ⟨h, ?_⟩
    rintro ⟨rfl, rfl⟩
    obtain ⟨r, hr, -⟩ := h
    simp [hpage] at hr
  | some r₀ =>
    simp only [hpage] at h
    split_ifs at h with hcp
    · rcases recorded_put h with ⟨-, -, x, hx, -⟩ | ⟨hne, hold⟩
      · simp at hx
      · exact ⟨hold, hne⟩
    · rcases recorded_put h with ⟨-, -, x, hx, hx'⟩ | ⟨hne, hold⟩
      · obtain rfl := Option.some.inj hx
        exact absurd hx' hcp
      · exact ⟨hold, hne⟩

theorem recorded_unmap {ent : WsEntry} (h : Recorded (Update.unmapPageRange pages ent) ino pgoff) :
    Recorded pages ino pgoff := by
  rcases recorded_put h with ⟨-, -, x, hx, -⟩ | ⟨-, hold⟩
  · simp at hx
  · exact hold

/-- A walk over a write-set, to the end or not, records nothing new. -/
theorem recorded_walkWs (body : Workingset → WsEntry → Workingset)
    (hbody : ∀ {pages ent}, Recorded (body pages ent) ino pgoff → Recorded pages ino pgoff)
    (ws : List WsEntry) : ∀ {pages : Workingset},
      Recorded (Update.walkWs body ws pages).1 ino pgoff → Recorded pages ino pgoff := by
  induction ws with
  | nil => exact fun h => h
  | cons ent ws ih =>
    intro pages h
    rw [Update.walkWs] at h
    cases hinfo : headInfo ent ws with
    | error e =>
      simp only [hinfo] at h
      exact h
    | ok info =>
      simp only [hinfo] at h
      exact hbody (ih h)

/-- Nothing in a write-set goes to the page. -/
def Misses (ino pgoff : ℕ) (ws : List WsEntry) : Prop :=
  ∀ ent ∈ ws, ¬hitsPage ino (pgoff * pageSize) ent

/-- The pages that are recorded after a write-set are those it does not write to. -/
theorem recorded_foldl (ws : List WsEntry) : ∀ {pages : Workingset},
    Recorded (ws.foldl Update.applyToWspg pages) ino pgoff →
      Recorded pages ino pgoff ∧ Misses ino pgoff ws := by
  induction ws with
  | nil =>
    intro pages h
    exact ⟨h, by simp [Misses]⟩
  | cons ent ws ih =>
    intro pages h
    obtain ⟨hrest, hmiss⟩ := ih h
    obtain ⟨hold, hent⟩ := recorded_applyToWspg hrest
    exact ⟨hold, List.forall_mem_cons.2 ⟨hent, hmiss⟩⟩

/-- The pages that are recorded after a turn over the log are those that the entry does
not write to, unless it is skipped. -/
theorem recorded_applyUnlessSkipped {tsSkip : Ts} {l : LogEntry} {e : Except Errno Unit}
    (hone : Update.applyUnlessSkipped tsSkip l pages = (pages', e))
    (h : Recorded pages' ino pgoff) :
    Recorded pages ino pgoff ∧ (e = .ok () → (l.ts : Ts) ≠ tsSkip → l.aborted = false →
      Misses ino pgoff l.ws) := by
  unfold Update.applyUnlessSkipped Update.applyLogEntryWorkingset at hone
  split_ifs at hone with hskip hab
  · obtain ⟨rfl, -⟩ := Prod.mk.inj hone
    exact ⟨h, fun _ hne => absurd hskip hne⟩
  · obtain ⟨rfl, -⟩ := Prod.mk.inj hone
    exact ⟨h, fun _ _ hlive => absurd hab (by simp [hlive])⟩
  · constructor
    · refine recorded_walkWs Update.applyToWspg (fun h => (recorded_applyToWspg h).1) l.ws ?_
      rw [hone]
      exact h
    · rintro rfl - -
      rw [Update.walkWs_ok hone] at h
      exact (recorded_foldl l.ws h).2

/-- **The loop of `sivfs_apply_logs_workingset`** leaves the pages recorded that nothing
is written to, and records nothing new if it fails. -/
theorem recorded_applyLogsLoop {tsStop : ℕ} {tsSkip : Ts} (log : List LogEntry) :
    ∀ {k : ℕ} {pages pages' : Workingset} {e : Except Errno Unit}, Consecutive (k + 1) log →
      Update.applyLogsLoop tsStop tsSkip log pages = (pages', e) → Recorded pages' ino pgoff →
      Recorded pages ino pgoff ∧ (e = .ok () → ∀ l ∈ log, l.ts ≤ tsStop → (l.ts : Ts) ≠ tsSkip →
        l.aborted = false → Misses ino pgoff l.ws) := by
  induction log with
  | nil =>
    intro k pages pages' e _ h hrec
    obtain ⟨rfl, -⟩ := Prod.mk.inj h
    exact ⟨hrec, by simp⟩
  | cons clog rest ih =>
    intro k pages pages' e hc h hrec
    obtain ⟨hts, hc⟩ := hc
    rw [Update.applyLogsLoop] at h
    rcases hone : Update.applyUnlessSkipped tsSkip clog pages with ⟨pages₁, e₁ | ⟨⟩⟩
    · simp only [hone] at h
      obtain ⟨rfl, rfl⟩ := Prod.mk.inj h
      exact ⟨(recorded_applyUnlessSkipped hone hrec).1, by simp⟩
    · simp only [hone] at h
      have hdone : tsStop ≤ clog.ts → pages' = pages₁ → Recorded pages ino pgoff ∧
          (e = .ok () → ∀ l ∈ clog :: rest, l.ts ≤ tsStop → (l.ts : Ts) ≠ tsSkip →
            l.aborted = false → Misses ino pgoff l.ws) := by
        rintro hstop rfl
        obtain ⟨hold, hmiss⟩ := recorded_applyUnlessSkipped hone hrec
        refine ⟨hold, fun _ => List.forall_mem_cons.2 ⟨fun _ => hmiss rfl, fun l hl hle => ?_⟩⟩
        have := hc.le_ts hl
        omega
      split_ifs at h with hstop
      · exact hdone hstop.ge (Prod.mk.inj h).1.symm
      · cases rest with
        | nil =>
          obtain ⟨rfl, -⟩ := Prod.mk.inj h
          obtain ⟨hold, hmiss⟩ := recorded_applyUnlessSkipped hone hrec
          refine ⟨hold, fun _ => ?_⟩
          simp only [List.mem_singleton, forall_eq]
          exact fun _ => hmiss rfl
        | cons next rest =>
          simp only at h
          split_ifs at h with hnext
          · have hn : next.ts = k + 1 + 1 := hc.1
            refine hdone ?_ (Prod.mk.inj h).1.symm
            omega
          · obtain ⟨hold, hmiss⟩ := ih hc h hrec
            obtain ⟨hold', hmiss'⟩ := recorded_applyUnlessSkipped hone hold
            exact ⟨hold', fun hok => List.forall_mem_cons.2 ⟨fun _ => hmiss' rfl, hmiss hok⟩⟩

end Pages

/-- No commit after `a` and up to `b` writes to the page. -/
def Untouched (log : List LogEntry) (a b ino pgoff : ℕ) : Prop :=
  ∀ l ∈ log, a < l.ts → l.ts ≤ b → l.aborted = false → Misses ino pgoff l.ws

/-- **`sivfs_update`** leaves the pages recorded that no commit since the snapshot writes
to, but for the one that is skipped. -/
theorem recorded_update {env : Env} {log : List LogEntry} {th th' : Update.Thread} {nextTs : ℕ}
    {skipTs : Ts} {e : Except Errno Unit} (hlog : Consecutive 1 log)
    (h : Update.update env log th nextTs skipTs = (th', e)) {ino pgoff : ℕ}
    (hrec : Recorded th'.workingset ino pgoff) :
    Recorded th.workingset ino pgoff ∧ (e = .ok () → ∀ t : ℕ, th.ts = (t : Ts) →
      ∀ l ∈ log, t < l.ts → l.ts ≤ nextTs → (l.ts : Ts) ≠ skipTs → l.aborted = false →
        Misses ino pgoff l.ws) := by
  by_cases hd : th.directAccess = true
  · rw [Update.update, if_pos hd] at h
    obtain ⟨rfl, rfl⟩ := Prod.mk.inj h
    exact ⟨hrec, by simp⟩
  · have hd' : th.directAccess = false := by simpa using hd
    by_cases htop : th.ts = ⊤
    · rw [Update.update, if_neg hd, htop] at h
      obtain ⟨rfl, -⟩ := Prod.mk.inj h
      exact ⟨hrec, fun _ t ht => absurd (ht.symm.trans htop) WithTop.coe_ne_top⟩
    · obtain ⟨t, hts⟩ := WithTop.ne_top_iff_exists.1 htop
      rw [Update.update_of_ts hd' hts.symm] at h
      have hkeep : th' = { th with ts := nextTs } ∨ th' = th →
        Recorded th.workingset ino pgoff := by
        rintro (rfl | rfl)
        · exact hrec
        · exact hrec
      split_ifs at h with hnothing hdeleted
      · refine ⟨hkeep (.inl (Prod.mk.inj h).1.symm), fun _ t' ht' l _ hlt hle => ?_⟩
        obtain rfl : t = t' := WithTop.coe_inj.1 (hts.trans ht')
        omega
      · obtain ⟨rfl, rfl⟩ := Prod.mk.inj h
        exact ⟨hrec, by simp⟩
      · have hdrop : tsToLogEntry log (t + 1) = log.drop t :=
          hlog.tsToLogEntry_eq (Nat.le_add_left 1 t)
        have hcons : Consecutive (t + 1) (log.drop t) := by
          have := hlog.drop t
          rwa [Nat.add_comm] at this
        rw [hdrop] at h
        cases hrest : log.drop t with
        | nil =>
          simp only [hrest] at h
          obtain ⟨rfl, rfl⟩ := Prod.mk.inj h
          exact ⟨hrec, by simp⟩
        | cons clog rest =>
          rw [hrest] at hcons
          have hclog : clog.ts = t + 1 := hcons.1
          simp only [hrest, Update.applyLogsWorkingset,
            if_neg (show ¬nextTs < clog.ts by omega)] at h
          rcases happly : Update.applyLogsLoop nextTs skipTs (clog :: rest) th.workingset with
            ⟨pages, e₁ | ⟨⟩⟩
          · simp only [happly] at h
            obtain ⟨rfl, rfl⟩ := Prod.mk.inj h
            exact ⟨(recorded_applyLogsLoop (clog :: rest) hcons happly hrec).1, by simp⟩
          · simp only [happly] at h
            obtain ⟨rfl, -⟩ := Prod.mk.inj h
            obtain ⟨hold, hmiss⟩ := recorded_applyLogsLoop (clog :: rest) hcons happly hrec
            refine ⟨hold, fun _ t' ht' l hl hlt hle hskip hlive => ?_⟩
            obtain rfl : t = t' := WithTop.coe_inj.1 (hts.trans ht')
            exact hmiss rfl l (hrest ▸ hlog.mem_drop_iff.2 ⟨hl, hlt⟩) hle hskip hlive

end Mapped
end Sivfs
