/-
# Calls that fail

When `my_sivfs_commit_update` returns an error, the caller is to go on in its
snapshot and to make the call again, as `sivfs_begin_direct_access` does in a loop.
For that nothing of the call may have come to pass: no entry in the log, the
snapshot and the checkpoint kept, the lists of allocated chunks and of chunks to
free as they were (`Unchanged`).

The errors before `sivfs_commit_changes` appends are of this kind.  Behind it the
call goes on to leave by `goto error0`, and takes nothing back:

| step | what has happened | why it fails |
| --- | --- | --- |
| `sivfs_invalidate_workingset_log` | the entry is in the log | malformed entry behind an overrun |
| `sivfs_allocation_on_commit` | chunks are off their lists | `_sivfs_free_block`, `ainfo` `NULL` |
| the double read | the old checkpoint is given up | no checkpoint |
| `sivfs_update_direct_access` | all of these | checkpoint not at `master_ts`, commits under way |
| `sivfs_update` | all of these | log deleted, not there, or malformed |

Here is when each of these fails; `Sivfs.Update.FailsClean` puts them together.
-/

import Sivfs.Update.Agree

namespace Sivfs
namespace Update

/-! ### What a failed call may not change -/

/-- The call has changed nothing that the caller goes on with. -/
structure Unchanged (th : Thread) (out : Outcome) : Prop where
  entry : out.entry = none
  ts : out.thread.ts = th.ts
  checkpoint : out.thread.checkpoint = th.checkpoint
  checkpointTs : out.thread.checkpointTs = th.checkpointTs
  allocatedChunks : out.thread.allocatedChunks = th.allocatedChunks
  allocChunksToFree : out.thread.allocChunksToFree = th.allocChunksToFree

/-- If the call returns an error, it has changed nothing. -/
def FailsClean (th : Thread) (out : Outcome) : Prop :=
  ∀ e, out.ret = .error (.code e) → Unchanged th out

/-! ### When a step fails -/

/-- `sivfs_wse_to_stream_info` rejects an entry. -/
def Malformed (ws : List WsEntry) : Prop :=
  ∃ ent ∈ ws, entryBytes ent.streamControl = none

/-- `sivfs_allocation_on_commit` fails. -/
def HookFails (env : Env) (th : Thread) : Bool → Prop
  | true => (∃ c ∈ th.allocChunksToFree, env.noAinfo c) ∨ ∃ c ∈ th.allocatedChunks, env.freeFails c
  | false => ∃ c ∈ th.allocChunksToFree, env.freeFails c

/-- The double read finds no checkpoint. -/
def NoCheckpoint (env : Env) (th : Thread) : Prop :=
  th.checkpointTs ≠ env.latestTs ∧ env.settled = none

/-- The time of the checkpoint that the thread has after the double read. -/
def heldTs (env : Env) (th : Thread) : Ts :=
  if th.checkpointTs = env.latestTs then th.checkpointTs else env.settledTs

/-- The entries of other threads, if the call has appended one of its own or not. -/
def others (env : Env) (own : Bool) : List LogEntry :=
  stamp 1 env.earlier ++ stamp (env.earlier.length + 1 + own.toNat) env.later

/-- `sivfs_update` from `t` fails. -/
def UpdateFails (env : Env) (own : Bool) (t : ℕ) : Prop :=
  t < env.masterTs ∧ (t + 1 < env.updateDeletedTs ∨
    env.earlier.length + env.later.length + own.toNat ≤ t ∨
    ∃ l ∈ others env own, t < l.ts ∧ l.ts ≤ env.masterTs ∧ l.aborted = false ∧ Malformed l.ws)

/-- The new snapshot cannot be taken. -/
def SnapshotFails (env : Env) (th : Thread) (options : Options) (own : Bool) : Prop :=
  if options.directAccess then (env.masterTs : Ts) ≠ heldTs env th ∨ env.startedTs ≠ env.masterTs
  else ∃ t : ℕ, th.ts = (t : Ts) ∧ UpdateFails env own t

/-! ### Walks -/

theorem not_malformed_nil : ¬Malformed [] := by
  rintro ⟨ent, hent, -⟩
  simp at hent

/-- A write-set is malformed at its first entry or behind it. -/
theorem malformed_cons {ent : WsEntry} {ws : List WsEntry} :
    Malformed (ent :: ws) ↔ entryBytes ent.streamControl = none ∨ Malformed ws := by
  simp [Malformed]

/-- **A walk over a write-set fails on malformed entries only.** -/
theorem walkWs_ok_iff {body : Workingset → WsEntry → Workingset} {ws : List WsEntry}
    {pages : Workingset} : (walkWs body ws pages).2 = .ok () ↔ ¬Malformed ws := by
  induction ws generalizing pages with
  | nil => exact ⟨fun _ => not_malformed_nil, fun _ => rfl⟩
  | cons ent ws ih =>
    rw [malformed_cons, walkWs]
    cases hinfo : headInfo ent ws with
    | error e =>
      have hnone : entryBytes ent.streamControl = none := by
        by_contra hsome
        obtain ⟨info, hok⟩ := headInfo_ok (Option.isSome_iff_ne_none.2 hsome) ws
        simp [hinfo] at hok
      simp [hnone]
    | ok info =>
      have hsome := Option.isSome_iff_ne_none.1 (isSome_of_headInfo hinfo)
      simp only [ih, hsome, false_or]

/-- The entry makes `sivfs_apply_logs_workingset` fail. -/
def Blocks (tsSkip : Ts) (l : LogEntry) : Prop :=
  (l.ts : Ts) ≠ tsSkip ∧ l.aborted = false ∧ Malformed l.ws

/-- An entry stops the update if it blocks. -/
theorem applyUnlessSkipped_ok_iff {tsSkip : Ts} {l : LogEntry} {pages : Workingset} :
    (applyUnlessSkipped tsSkip l pages).2 = .ok () ↔ ¬Blocks tsSkip l := by
  unfold applyUnlessSkipped applyLogEntryWorkingset Blocks
  split_ifs with hskip hab
  · simp [hskip]
  · simp [hab]
  · simp [hskip, hab, walkWs_ok_iff]

/-- **The loop of `sivfs_apply_logs_workingset`** fails on live entries up to its
target only. -/
theorem applyLogsLoop_ok_iff {tsStop : ℕ} {tsSkip : Ts} (log : List LogEntry) :
    ∀ {k : ℕ} {pages : Workingset}, Consecutive k log → k ≤ tsStop →
      ((applyLogsLoop tsStop tsSkip log pages).2 = .ok () ↔
        ∀ l ∈ log, l.ts ≤ tsStop → ¬Blocks tsSkip l) := by
  induction log with
  | nil => simp [applyLogsLoop]
  | cons clog rest ih =>
    intro k pages hc hk
    obtain ⟨hts, hc⟩ := hc
    have hone := @applyUnlessSkipped_ok_iff tsSkip clog pages
    rw [List.forall_mem_cons, ← hone]
    unfold applyLogsLoop
    rcases happly : applyUnlessSkipped tsSkip clog pages with ⟨pages', e | ⟨⟩⟩
    · simp [hts, hk]
    · simp only [implies_true, true_and]
      rcases Nat.eq_or_lt_of_le (show clog.ts ≤ tsStop by omega) with heq | hlt
      · rw [if_pos heq]
        refine iff_of_true rfl fun l hl hle => ?_
        have := hc.le_ts hl
        omega
      · rw [if_neg (by omega)]
        cases rest with
        | nil => simp
        | cons next rest =>
          have hnext : next.ts = k + 1 := hc.1
          simp only [if_neg (show ¬tsStop < next.ts by omega)]
          exact ih hc (by omega)

/-! ### Allocation hooks -/

theorem drain_ok_iff {fails : ℕ → Bool} {chunks : List ℕ} :
    (drain fails chunks).2 = .ok () ↔ ∀ c ∈ chunks, ¬fails c := by
  induction chunks with
  | nil => simp [drain]
  | cons c chunks ih =>
    rw [drain, List.forall_mem_cons]
    split_ifs with hc
    · simp [hc]
    · simp [hc, ih]

/-- A list is drained from its front. -/
theorem drain_length (fails : ℕ → Bool) (chunks : List ℕ) :
    (drain fails chunks).1.length ≤ chunks.length - 1 := by
  induction chunks with
  | nil => simp [drain]
  | cons c chunks ih =>
    rw [drain, List.length_cons]
    split_ifs
    · exact le_rfl
    · omega

/-- **Chunks come off the list**, whether the loop fails or not. -/
theorem drain_eq_iff {fails : ℕ → Bool} {chunks : List ℕ} :
    (drain fails chunks).1 = chunks ↔ chunks = [] := by
  constructor
  · intro h
    have := drain_length fails chunks
    rw [h] at this
    exact List.length_eq_zero_iff.1 (by omega)
  · rintro rfl
    rfl

/-- The hook fails as `HookFails` says. -/
theorem allocationOnCommit_ok_iff {env : Env} {th : Thread} {aborted : Bool} :
    (allocationOnCommit env th aborted).2 = .ok () ↔ ¬HookFails env th aborted := by
  cases aborted with
  | false =>
    show (drain env.freeFails th.allocChunksToFree).2 = .ok () ↔ _
    rw [drain_ok_iff, HookFails]
    push Not
    rfl
  | true =>
    have hfree := @drain_ok_iff env.noAinfo th.allocChunksToFree
    have halloc := @drain_ok_iff env.freeFails th.allocatedChunks
    rw [allocationOnCommit, if_pos rfl, HookFails]
    push Not
    rcases hd : drain env.noAinfo th.allocChunksToFree with ⟨toFree, e | ⟨⟩⟩
    · rw [hd] at hfree
      exact iff_of_false (by simp) fun h => by simpa using hfree.2 h.1
    · rw [hd] at hfree
      exact halloc.trans ⟨fun h => ⟨hfree.1 rfl, h⟩, fun h => h.2⟩

/-- **The lists are as they were only if they were empty.** -/
theorem allocationOnCommit_lists {env : Env} {th : Thread} {aborted : Bool} :
    ((allocationOnCommit env th aborted).1.allocatedChunks = th.allocatedChunks ∧
      (allocationOnCommit env th aborted).1.allocChunksToFree = th.allocChunksToFree) ↔
    th.allocatedChunks = [] ∧ th.allocChunksToFree = [] := by
  cases aborted with
  | false =>
    show [] = th.allocatedChunks ∧ (drain env.freeFails th.allocChunksToFree).1 = _ ↔ _
    rw [drain_eq_iff, eq_comm]
  | true =>
    have hfree := @drain_eq_iff env.noAinfo th.allocChunksToFree
    rw [allocationOnCommit, if_pos rfl]
    rcases hd : drain env.noAinfo th.allocChunksToFree with ⟨toFree, e | ⟨⟩⟩
    · rw [hd] at hfree
      have hne : th.allocChunksToFree ≠ [] := by
        intro hnil
        simp [hnil, drain] at hd
      exact iff_of_false (fun h => hne (hfree.1 h.2)) fun h => hne h.2
    · rw [hd] at hfree
      exact and_congr drain_eq_iff hfree

/-- A hook that fails has had chunks to work on. -/
theorem HookFails.lists {env : Env} {th : Thread} {aborted : Bool} (h : HookFails env th aborted) :
    ¬(th.allocatedChunks = [] ∧ th.allocChunksToFree = []) := by
  rintro ⟨h₁, h₂⟩
  cases aborted with
  | false => simp [HookFails, h₂] at h
  | true => simp [HookFails, h₁, h₂] at h

/-! ### The new snapshot -/

theorem checkOut_ok_iff {env : Env} {th : Thread} :
    (∃ cpTs, (checkOut env th).2 = .ok cpTs) ↔ ¬NoCheckpoint env th := by
  unfold checkOut NoCheckpoint
  split_ifs with h
  · simp [h]
  · cases env.settled <;> simp [h]

/-- The timestamp that is held behind the double read. -/
theorem checkOut_checkpointTs (env : Env) (th : Thread) :
    (checkOut env th).1.checkpointTs = heldTs env th := by
  unfold checkOut heldTs
  split_ifs <;> rfl

/-- The double read leaves a thread with its checkpoint if that is the latest, or the settled one.
-/
theorem checkOut_checkpoint_iff {env : Env} {th : Thread} :
    ((checkOut env th).1.checkpoint = th.checkpoint ∧
      (checkOut env th).1.checkpointTs = th.checkpointTs) ↔
    (th.checkpointTs ≠ env.latestTs →
      env.settled = th.checkpoint ∧ (env.settledTs : Ts) = th.checkpointTs) := by
  unfold checkOut
  split_ifs with h
  · simp [h]
  · simp [h]

/-- **`sivfs_update`** fails if the log is deleted, ends before the snapshot, or has a
live malformed entry up to the target. -/
theorem update_ok_iff {env : Env} {log : List LogEntry} {th : Thread} {t nextTs : ℕ} {skipTs : Ts}
    (hd : th.directAccess = false) (hts : th.ts = (t : Ts)) (hlog : Consecutive 1 log) :
    (update env log th nextTs skipTs).2 = .ok () ↔
      ¬(t < nextTs ∧ (t + 1 < env.updateDeletedTs ∨ log.length ≤ t ∨
        ∃ l ∈ log, t < l.ts ∧ l.ts ≤ nextTs ∧ Blocks skipTs l)) := by
  rw [update_of_ts hd hts]
  split_ifs with hnothing hdeleted
  · exact iff_of_true rfl fun h => by omega
  · exact iff_of_false (by simp) fun h => h ⟨by omega, .inl hdeleted⟩
  · have hlt : t < nextTs := by omega
    have hcons := hlog.drop t
    have hmem := fun l => @Consecutive.mem_drop_iff log hlog l t
    rw [hlog.tsToLogEntry_eq (Nat.le_add_left 1 t), Nat.add_sub_cancel]
    cases hrest : log.drop t with
    | nil =>
      exact iff_of_false (by simp) fun h => h ⟨hlt, .inr (.inl (List.drop_eq_nil_iff.1 hrest))⟩
    | cons clog rest =>
      rw [hrest] at hcons hmem
      have hclog : clog.ts = 1 + t := hcons.1
      have hlen : ¬log.length ≤ t := fun hle => by
        rw [List.drop_eq_nil_iff.2 hle] at hrest
        simp at hrest
      have hfails : (t < nextTs ∧ (t + 1 < env.updateDeletedTs ∨ log.length ≤ t ∨
          ∃ l ∈ log, t < l.ts ∧ l.ts ≤ nextTs ∧ Blocks skipTs l)) ↔
          ∃ l ∈ clog :: rest, l.ts ≤ nextTs ∧ Blocks skipTs l := by
        simp only [hmem, hlt, hdeleted, hlen, true_and, false_or, and_assoc]
      have hloop := @applyLogsLoop_ok_iff nextTs skipTs (clog :: rest) _ th.workingset hcons
        (by omega)
      rw [hfails]
      push Not
      rw [← hloop]
      simp only [applyLogsWorkingset, if_neg (show ¬nextTs < clog.ts by omega)]
      rcases applyLogsLoop nextTs skipTs (clog :: rest) th.workingset with ⟨pages, e | ⟨⟩⟩ <;> simp

/-- An update that fails leaves all but the pages alone. -/
theorem update_error {env : Env} {log : List LogEntry} {th th' : Thread} {nextTs : ℕ} {skipTs : Ts}
    {e : Errno} (h : update env log th nextTs skipTs = (th', .error e)) :
    ∃ pages, th' = { th with workingset := pages } := by
  unfold update at h
  split_ifs at h
  · exact ⟨th.workingset, (Prod.mk.inj h).1.symm⟩
  · split at h
    · simp at h
    · split_ifs at h
      · simp at h
      · exact ⟨th.workingset, (Prod.mk.inj h).1.symm⟩
      · split at h
        · exact ⟨th.workingset, (Prod.mk.inj h).1.symm⟩
        · split at h
          · exact ⟨_, (Prod.mk.inj h).1.symm⟩
          · simp at h

/-- A snapshot that cannot be taken leaves the thread in the old one. -/
theorem takeSnapshot_error {env : Env} {log : List LogEntry} {th th' : Thread} {options : Options}
    {commitTs : Ts} {e : Errno} (h : takeSnapshot env log th options commitTs = (th', .error e)) :
    ∃ pages direct, th' = { th with workingset := pages, directAccess := direct } := by
  unfold takeSnapshot at h
  split_ifs at h
  · unfold updateDirectAccess at h
    split at h
    · exact ⟨th.workingset, th.directAccess, (Prod.mk.inj h).1.symm⟩
    · split at h
      · exact ⟨th.workingset, th.directAccess, (Prod.mk.inj h).1.symm⟩
      · simp at h
  · obtain ⟨pages, rfl⟩ := update_error h
    exact ⟨pages, false, rfl⟩

/-! ### The entry of the call -/

/-- What the call has appended to the log, and the timestamp that it skips. -/
inductive Appended (env : Env) : Option LogEntry → Ts → Prop
  | nothing : Appended env none invalidTs
  | entry (aborted : Bool) (ws : List WsEntry) :
    Appended env (some ⟨env.earlier.length + 1, aborted, ws⟩) ((env.earlier.length + 1 : ℕ) : Ts)

/-- The log behind the call. -/
theorem length_logAfter (env : Env) (entry : Option LogEntry) :
    (env.logAfter entry).length = env.earlier.length + env.later.length + entry.isSome.toNat := by
  rw [Env.logAfter, length_stamp, List.length_append, List.length_append]
  cases entry with
  | none => simp
  | some l =>
    simp
    omega

/-- **The entries that are not skipped are those of others.** -/
theorem Appended.mem_others_iff {env : Env} {entry : Option LogEntry} {commitTs : Ts}
    (h : Appended env entry commitTs) {l : LogEntry} :
    l ∈ others env entry.isSome ↔ l ∈ env.logAfter entry ∧ (l.ts : Ts) ≠ commitTs := by
  rw [others, Env.logAfter, List.append_assoc, stamp_append, List.mem_append, List.mem_append]
  cases h with
  | nothing =>
    have hne : (l.ts : Ts) ≠ invalidTs := WithTop.coe_ne_top
    simp [hne, Nat.add_comm]
  | entry aborted ws =>
    have hne : (l.ts : Ts) ≠ ((env.earlier.length + 1 : ℕ) : Ts) ↔ l.ts ≠ env.earlier.length + 1 :=
      not_congr WithTop.coe_inj
    simp only [hne, Option.isSome_some, Bool.toNat_true, Option.map_some, Option.toList_some,
      List.singleton_append, stamp, List.mem_cons, Nat.add_comm 1]
    constructor
    · rintro (hl | hl)
      · have := (mem_stamp hl).2.1
        exact ⟨.inl hl, by omega⟩
      · have := (mem_stamp hl).1
        exact ⟨.inr (.inr hl), by omega⟩
    · rintro ⟨hl | rfl | hl, hts⟩
      · exact .inl hl
      · exact absurd rfl hts
      · exact .inr hl

/-- The failures of the update, in terms of the log that it walks. -/
theorem Appended.updateFails_iff {env : Env} {entry : Option LogEntry} {commitTs : Ts}
    (h : Appended env entry commitTs) {t : ℕ} :
    UpdateFails env entry.isSome t ↔
      t < env.masterTs ∧ (t + 1 < env.updateDeletedTs ∨ (env.logAfter entry).length ≤ t ∨
        ∃ l ∈ env.logAfter entry, t < l.ts ∧ l.ts ≤ env.masterTs ∧ Blocks commitTs l) := by
  rw [length_logAfter, UpdateFails]
  refine and_congr_right fun _ => or_congr_right (or_congr_right ?_)
  constructor
  · rintro ⟨l, hl, hlt, hle, hlive⟩
    obtain ⟨hl, hne⟩ := h.mem_others_iff.1 hl
    exact ⟨l, hl, hlt, hle, hne, hlive⟩
  · rintro ⟨l, hl, hlt, hle, hne, hlive⟩
    exact ⟨l, h.mem_others_iff.2 ⟨hl, hne⟩, hlt, hle, hlive⟩

/-- **When the new snapshot is taken.** -/
theorem takeSnapshot_ok_iff {env : Env} {th : Thread} {options : Options}
    {entry : Option LogEntry} {commitTs : Ts} (h : Appended env entry commitTs) :
    (takeSnapshot env (env.logAfter entry) (checkOut env th).1 options commitTs).2 = .ok () ↔
      ¬SnapshotFails env th options entry.isSome := by
  rw [takeSnapshot, SnapshotFails]
  split_ifs with hdir
  · rw [updateDirectAccess, checkOut_checkpointTs]
    split_ifs with h₁ h₂ <;> simp_all
  · have hts : (leaveDirectAccess (checkOut env th).1).ts = th.ts := (checkOut_frame env th).1
    cases hth : th.ts using WithTop.recTopCoe with
    | top =>
      rw [hth] at hts
      rw [update, hts]
      simp [leaveDirectAccess]
    | coe t =>
      rw [hth] at hts
      rw [update_ok_iff rfl hts (consecutive_logAfter env entry), ← h.updateFails_iff]
      refine not_congr ⟨fun hfails => ⟨t, rfl, hfails⟩, ?_⟩
      rintro ⟨t', heq, hfails⟩
      obtain rfl := WithTop.coe_injective heq
      exact hfails

end Update
end Sivfs
