/-
# Bringing mapped pages up to date

A call that moves a thread from one snapshot to a later one does not build its
pages again.  It applies the log entries between the two to the pages of the
working set, removes the pages of checkpoints that they touch, and leaves out the
entry of the thread's own transaction, whose writes are in the pages already.

`Shown st pages` says that every page mapped is the page of the store `st`.  Each
of these steps takes pages of one store to pages of another.
-/

import Sivfs.Checkpoint.Exact
import Sivfs.Update.Tagged

namespace Sivfs
namespace Update

/-! ### The log -/

theorem length_stamp (k : ℕ) (txns : List Txn) : (stamp k txns).length = txns.length := by
  induction txns generalizing k with
  | nil => rfl
  | cons x txns ih => rw [stamp, List.length_cons, List.length_cons, ih]

theorem consecutive_stamp (k : ℕ) (txns : List Txn) : Consecutive k (stamp k txns) := by
  induction txns generalizing k with
  | nil => trivial
  | cons x txns ih => exact ⟨rfl, ih (k + 1)⟩

theorem stamp_append (k : ℕ) (xs ys : List Txn) :
    stamp k (xs ++ ys) = stamp k xs ++ stamp (k + xs.length) ys := by
  induction xs generalizing k with
  | nil => rfl
  | cons x xs ih =>
    rw [List.cons_append, stamp, stamp, List.cons_append, ih, List.length_cons,
      show k + 1 + xs.length = k + (xs.length + 1) by omega]

/-- The timestamps lie in a row, and each entry is that of a transaction. -/
theorem mem_stamp {k : ℕ} {txns : List Txn} {l : LogEntry} (h : l ∈ stamp k txns) :
    k ≤ l.ts ∧ l.ts < k + txns.length ∧ ⟨l.aborted, l.ws⟩ ∈ txns := by
  induction txns generalizing k with
  | nil => simp [stamp] at h
  | cons x txns ih =>
    rw [List.length_cons]
    rcases List.mem_cons.1 h with rfl | h
    · exact ⟨le_rfl, Nat.lt_add_of_pos_right (Nat.succ_pos _), List.mem_cons_self⟩
    · obtain ⟨h₁, h₂, h₃⟩ := ih h
      exact ⟨by omega, by omega, List.mem_cons_of_mem _ h₃⟩

/-- What comes behind does not change the store at earlier timestamps. -/
theorem abs_stamp_append (xs ys : List Txn) {t : ℕ} (ht : t ≤ xs.length) :
    abs (stamp 1 (xs ++ ys)) t = abs (stamp 1 xs) t := by
  have hlen := length_stamp 1 xs
  rw [abs, abs, (consecutive_stamp 1 _).filter_le, (consecutive_stamp 1 _).filter_le, stamp_append,
    List.take_append_of_le_length (by omega)]

/-! ### One write -/

/-- Every mapped page is the page of `st`. -/
def Shown (st : Store) (pages : Workingset) : Prop :=
  ∀ ino pgoff r, pages ino pgoff = some r → IsPage st ino (pgoff * pageSize) r.words

theorem hitsPage_pgoff {ino pgoff : ℕ} {ent : WsEntry} :
    hitsPage ino (pgoff * pageSize) ent = true ↔
      ino = ent.ino ∧ pgoff = ent.fileOffset / pageSize := by
  rw [hitsPage_iff, Nat.mul_div_cancel _ (by decide), eq_comm, @eq_comm _ pgoff]

/-- A page of the changed working set is the one put there, or an old one. -/
theorem Workingset.put_eq_some {pages : Workingset} {i p ino pgoff : ℕ} {r : Option Resident}
    {x : Resident} (h : pages.put i p r ino pgoff = some x) :
    (ino = i ∧ pgoff = p ∧ r = some x) ∨ (¬(ino = i ∧ pgoff = p) ∧ pages ino pgoff = some x) := by
  unfold Workingset.put at h
  split_ifs at h with hit
  · exact .inl ⟨hit.1, hit.2, h⟩
  · exact .inr ⟨hit, h⟩

/-- **A write reaches the pages or removes them.** -/
theorem Shown.apply {st : Store} {pages : Workingset} (h : Shown st pages) (ent : WsEntry) :
    Shown (st.apply ent) (applyToWspg pages ent) := by
  have hother : ∀ ino pgoff r, ¬(ino = ent.ino ∧ pgoff = ent.fileOffset / pageSize) →
      pages ino pgoff = some r → IsPage (st.apply ent) ino (pgoff * pageSize) r.words :=
    fun ino pgoff r hmiss hr => (h ino pgoff r hr).apply_other fun hit =>
      hmiss (hitsPage_pgoff.1 hit)
  unfold applyToWspg
  cases hpage : pages ent.ino (ent.fileOffset / pageSize) with
  | none =>
    intro ino pgoff r hr
    refine hother ino pgoff r ?_ hr
    rintro ⟨rfl, rfl⟩
    simp [hpage] at hr
  | some r₀ =>
    show Shown _ (if r₀.checkpoint = true then _ else _)
    split_ifs
    · intro ino pgoff r hr
      rcases Workingset.put_eq_some hr with ⟨-, -, hnone⟩ | ⟨hmiss, hold⟩
      · simp at hnone
      · exact hother ino pgoff r hmiss hold
    · intro ino pgoff r hr
      rcases Workingset.put_eq_some hr with ⟨rfl, rfl, hnew⟩ | ⟨hmiss, hold⟩
      · obtain rfl := Option.some.inj hnew
        exact (h ent.ino _ r₀ hpage).apply (hitsPage_pgoff.2 ⟨rfl, rfl⟩)
      · exact hother ino pgoff r hmiss hold

/-! ### Write-sets -/

/-- A walk that ends well has gone over all entries. -/
theorem walkWs_ok {body : Workingset → WsEntry → Workingset} {ws : List WsEntry}
    {pages pages' : Workingset} (h : walkWs body ws pages = (pages', .ok ())) :
    pages' = ws.foldl body pages := by
  induction ws generalizing pages with
  | nil => exact (Prod.mk.inj h).1.symm
  | cons ent ws ih =>
    rw [walkWs] at h
    split at h
    · simp at h
    · exact ih h

/-- **A commit of another thread is applied.** -/
theorem Shown.applyLogEntry {st : Store} {pages pages' : Workingset} (h : Shown st pages)
    {l : LogEntry} (hl : applyLogEntryWorkingset l pages = (pages', .ok ())) :
    Shown (st.commit l) pages' := by
  unfold applyLogEntryWorkingset at hl
  unfold Store.commit
  split_ifs at hl ⊢
  · obtain ⟨rfl, -⟩ := Prod.mk.inj hl
    exact h
  · rw [walkWs_ok hl]
    clear hl
    generalize l.ws = ws
    induction ws generalizing st pages with
    | nil => exact h
    | cons ent ws ih => exact ih (h.apply ent)

/-- What is mapped after pages were removed was mapped before, and not removed. -/
theorem foldl_unmap {ws : List WsEntry} {pages : Workingset} {ino pgoff : ℕ} {r : Resident}
    (h : ws.foldl unmapPageRange pages ino pgoff = some r) :
    pages ino pgoff = some r ∧ ∀ ent ∈ ws, ¬hitsPage ino (pgoff * pageSize) ent := by
  induction ws generalizing pages with
  | nil => exact ⟨h, by simp⟩
  | cons ent ws ih =>
    obtain ⟨h₁, h₂⟩ := ih h
    rcases Workingset.put_eq_some h₁ with ⟨-, -, hnone⟩ | ⟨hmiss, hold⟩
    · simp at hnone
    · exact ⟨hold, List.forall_mem_cons.2 ⟨fun hit => hmiss (hitsPage_pgoff.1 hit), h₂⟩⟩

/-- **Removing the pages of an aborted write-set takes its writes back.** -/
theorem Shown.invalidate {st : Store} {pages pages' : Workingset} {ws : List WsEntry}
    (h : Shown (ws.foldl Store.apply st) pages)
    (hw : invalidateWorkingsetLog ws pages = (pages', .ok ())) : Shown st pages' := by
  obtain rfl := walkWs_ok hw
  intro ino pgoff r hr
  obtain ⟨hold, hmiss⟩ := foldl_unmap hr
  exact (h ino pgoff r hold).of_foldl_apply hmiss

/-! ### The log -/

/-- The stores that a walk over the log goes through: each is the one before with
the commit of its timestamp, but for the one that is skipped. -/
def Follows (S : ℕ → Store) (tsSkip : Ts) (l : LogEntry) : Prop :=
  S l.ts = if (l.ts : Ts) = tsSkip then S (l.ts - 1) else (S (l.ts - 1)).commit l

/-- **The loop of `sivfs_apply_logs_workingset`** takes pages from the snapshot
before its first entry to the target. -/
theorem applyLogsLoop_shown {S : ℕ → Store} {tsStop : ℕ} {tsSkip : Ts} (log : List LogEntry) :
    ∀ {k : ℕ} {pages pages' : Workingset}, Consecutive (k + 1) log → k < tsStop →
      tsStop ≤ k + log.length → (∀ l ∈ log, Follows S tsSkip l) → Shown (S k) pages →
      applyLogsLoop tsStop tsSkip log pages = (pages', .ok ()) → Shown (S tsStop) pages' := by
  induction log with
  | nil =>
    intro k pages pages' hc hk hlen
    simp at hlen
    omega
  | cons clog rest ih =>
    intro k pages pages' hc hk hlen hS hsh h
    obtain ⟨hts, hc⟩ := hc
    rw [applyLogsLoop] at h
    rcases hone : applyUnlessSkipped tsSkip clog pages with ⟨pages₁, e | ⟨⟩⟩
    · simp [hone] at h
    · have hsh₁ : Shown (S clog.ts) pages₁ := by
        rw [hS clog List.mem_cons_self, show clog.ts - 1 = k by omega]
        unfold applyUnlessSkipped at hone
        split_ifs at hone ⊢
        · obtain ⟨rfl, -⟩ := Prod.mk.inj hone
          exact hsh
        · exact hsh.applyLogEntry hone
      simp only [hone] at h
      rcases Nat.eq_or_lt_of_le (show clog.ts ≤ tsStop by omega) with heq | hlt
      · rw [if_pos heq] at h
        obtain ⟨rfl, -⟩ := Prod.mk.inj h
        rwa [← heq]
      · rw [if_neg (by omega)] at h
        cases rest with
        | nil =>
          simp at hlen
          omega
        | cons next rest =>
          have hnext : next.ts = k + 1 + 1 := hc.1
          simp only [if_neg (show ¬tsStop < next.ts by omega)] at h
          refine ih hc (by omega) ?_ (fun l hl => hS l (List.mem_cons_of_mem _ hl)) ?_ h
          · rw [List.length_cons] at hlen
            omega
          · rwa [← hts]

/-- **`sivfs_update`** takes pages of the snapshot to pages of the next one. -/
theorem update_shown {env : Env} {log : List LogEntry} {th th' : Thread} {t nextTs : ℕ}
    {skipTs : Ts} {S : ℕ → Store} (hd : th.directAccess = false) (hts : th.ts = (t : Ts))
    (hlog : Consecutive 1 log) (hle : t ≤ nextTs) (hlen : nextTs ≤ log.length)
    (hS : ∀ l ∈ log, t < l.ts → Follows S skipTs l) (hsh : Shown (S t) th.workingset)
    (h : update env log th nextTs skipTs = (th', .ok ())) :
    Shown (S nextTs) th'.workingset ∧ th'.ts = (nextTs : Ts) := by
  rw [update_of_ts hd hts] at h
  split_ifs at h with hnothing hdeleted
  · obtain ⟨rfl, -⟩ := Prod.mk.inj h
    obtain rfl : t = nextTs := by omega
    exact ⟨hsh, rfl⟩
  · simp at h
  · have hdrop : tsToLogEntry log (t + 1) = log.drop t :=
      hlog.tsToLogEntry_eq (Nat.le_add_left 1 t)
    have hcons : Consecutive (t + 1) (log.drop t) := by
      have := hlog.drop t
      rwa [Nat.add_comm] at this
    rw [hdrop] at h
    cases hrest : log.drop t with
    | nil => simp [hrest] at h
    | cons clog rest =>
      rw [hrest] at hcons
      have hclog : clog.ts = t + 1 := hcons.1
      simp only [hrest, applyLogsWorkingset, if_neg (show ¬nextTs < clog.ts by omega)] at h
      rcases happly : applyLogsLoop nextTs skipTs (clog :: rest) th.workingset with
        ⟨pages, e | ⟨⟩⟩
      · simp [happly] at h
      · simp only [happly] at h
        obtain ⟨rfl, -⟩ := Prod.mk.inj h
        refine ⟨applyLogsLoop_shown (clog :: rest) hcons (by omega) ?_ (fun l hl => ?_) hsh happly,
          rfl⟩
        · rw [← hrest, List.length_drop]
          omega
        · obtain ⟨hl', hlt⟩ := hlog.mem_drop_iff.1 (hrest ▸ hl)
          exact hS l hl' hlt

/-! ### No conflict -/

theorem wsEntConflictsLog_false {ent : WsEntry} {other : List WsEntry}
    (h : wsEntConflictsLog ent other = .ok false) :
    ∀ y ∈ other, ¬(ent.ino = y.ino ∧ ent.fileOffset = y.fileOffset) := by
  induction other with
  | nil => simp
  | cons x other ih =>
    rw [wsEntConflictsLog] at h
    split at h
    · simp at h
    · split_ifs at h with hconf
      · simp at h
      · refine List.forall_mem_cons.2 ⟨?_, ih h⟩
        rintro ⟨h₁, h₂⟩
        simp [Commit.wsEntConflicts, h₁, h₂] at hconf

theorem validateWs_false {other ws : List WsEntry} (h : validateWs other ws = false) :
    ¬Commit.SharesWord ws other := by
  induction ws with
  | nil =>
    rintro ⟨x, hx, -⟩
    simp at hx
  | cons ent ws ih =>
    rw [validateWs] at h
    split at h
    · rename_i hent
      rintro ⟨x, hx, y, hy, hxy⟩
      rcases List.mem_cons.1 hx with rfl | hx
      · exact wsEntConflictsLog_false hent y hy hxy
      · exact ih h ⟨x, hx, y, hy, hxy⟩
    · simp at h

theorem validateLoop_false {undecided : ℕ → Bool} {ws : List WsEntry} {tsStop : ℕ}
    (log : List LogEntry) : ∀ {k : ℕ}, Consecutive k log →
      validateLoop undecided ws tsStop log = false →
      ∀ l ∈ log, l.ts ≤ tsStop → validateEntry undecided ws l = false := by
  induction log with
  | nil => simp
  | cons clog rest ih =>
    intro k hc h
    obtain ⟨hts, hc⟩ := hc
    unfold validateLoop at h
    split_ifs at h with hentry hstop
    · refine List.forall_mem_cons.2 ⟨fun _ => by simpa using hentry, fun l hl hle => ?_⟩
      have := hc.le_ts hl
      omega
    · refine List.forall_mem_cons.2 ⟨fun _ => by simpa using hentry, fun l hl hle => ?_⟩
      cases rest with
      | nil => simp at hl
      | cons next rest =>
        have hnext : next.ts = k + 1 := hc.1
        have := hc.le_ts hl
        simp only [if_neg (show ¬tsStop < next.ts by omega)] at h
        exact ih hc h l hl hle

/-- **A transaction that is not aborted shares no word with one that committed since
its snapshot.** -/
theorem validate_false {env : Env} {t : ℕ} {ws : List WsEntry}
    (h : validate env (t : Ts) ws (env.earlier.length + 1) = some false) :
    ∀ l ∈ stamp 1 env.earlier, t < l.ts → l.aborted = false → ¬Commit.SharesWord ws l.ws := by
  intro l hl hlt hlive
  obtain ⟨-, hlen, -⟩ := mem_stamp hl
  rw [validate, tsAdd_coe, tsAdd_coe, if_pos (by omega)] at h
  split_ifs at h with hdeleted
  · simp at h
  · rw [(consecutive_stamp 1 env.earlier).tsToLogEntry_eq (Nat.le_add_left 1 t),
      Nat.add_sub_cancel] at h
    have hcons := (consecutive_stamp 1 env.earlier).drop t
    have hmem := (consecutive_stamp 1 env.earlier).mem_drop_iff.2 ⟨hl, hlt⟩
    cases hrest : (stamp 1 env.earlier).drop t with
    | nil => simp [hrest] at hmem
    | cons clog rest =>
      rw [hrest] at hcons hmem
      simp only [hrest, Nat.add_sub_cancel, Option.some.injEq] at h
      have hentry := validateLoop_false (clog :: rest) hcons h l hmem (by omega)
      rw [validateEntry, hlive] at hentry
      exact validateWs_false (by simpa using hentry)

end Update
end Sivfs
