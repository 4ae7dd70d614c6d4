/-
# The turn that commits

With the fetch-and-add on the clock the writes of a thread become the newest committed state, at
the new timestamp (`State.fetchAdd_committedAt_new`).  Every other word of it is that of the state
before (`Inv.committedAt_of_not_held`), so reads of other threads that were consistent stay so
(`Inv.fetchAdd`).
-/

import Sivfs.Locktable.Storing

namespace Sivfs
namespace Locktable
namespace TinyStm

open History UndoLog

variable {ι : Type} [DecidableEq ι] {cfg : Config} {s s' : State ι} {t t' : Local} {i j : ι}
  {l a v : ℕ}

/-! ### The fetch-and-add -/

section FetchAdd

namespace State

/-- The committed states up to now stay what they are. -/
@[simp] theorem fetchAdd_committedAt_of_le {k : ℕ} (hk : k ≤ s.globalTs) :
    (s.fetchAdd i).committedAt k = s.committedAt k :=
  Function.update_of_ne (by omega) ..

/-- The new one has the words of the transaction, unless that is aborted. -/
theorem fetchAdd_committedAt_new : (s.fetchAdd i).committedAt (s.globalTs + 1) =
    if (s.thread i).state.aborted then s.committedAt s.globalTs
      else s.commitState (s.thread i).state.writeset :=
  Function.update_self ..

/-- No commit to a lock is later than the clock. -/
theorem fetchAdd_lastCommit_le (h : TableOk cfg s) :
    (s.fetchAdd i).lastCommit l ≤ s.globalTs + 1 := by
  rw [fetchAdd]
  dsimp only
  split_ifs
  · exact le_rfl
  · exact (h.lastCommit_le l).trans (Nat.le_succ _)

/-- Locks that the thread does not hold have no new commit. -/
theorem fetchAdd_lastCommit_of_not_mem (hl : l ∉ (s.thread i).state.locksHeld) :
    (s.fetchAdd i).lastCommit l = s.lastCommit l :=
  if_neg fun h => hl h.2

end State

variable (h : Inv cfg s) (hpc : (s.thread i).pc = .fetchAdd)

include h hpc

/-- **A commit changes words under the locks of its transaction only.** -/
theorem Inv.committedAt_of_not_held (hl : cfg.addrToLock a ∉ (s.thread i).state.locksHeld) :
    (s.fetchAdd i).committedAt (s.globalTs + 1) a = s.committedAt s.globalTs a := by
  rw [State.fetchAdd_committedAt_new]
  split_ifs
  · rfl
  · refine if_neg fun ha => hl ?_
    have hact : (s.thread i).pc.active = true := by rw [hpc]; rfl
    rw [← Local.unstamped_of_active hact]
    exact (h.thread i).locked a (by rwa [Local.pending_of_active hact])

/-- **The committing thread**, with its undo entries if it is aborted. -/
theorem Inv.fetchAdd_endOk {t : Local} (htxn : t.txn = (s.thread i).txn)
    (hvalidated : t.state.readsetValidatedTs = (s.thread i).state.readsetValidatedTs)
    (hreadset : t.state.readset = (s.thread i).state.readset)
    (hcommitTs : t.state.commitTs = s.globalTs + 1) :
    EndOk cfg (s.fetchAdd i) t
      (if (s.thread i).state.aborted then (s.thread i).state.writeset else [])
      (s.thread i).state.locksHeld := by
  have hact : (s.thread i).pc.active = true := by rw [hpc]; rfl
  have hok := h.thread i
  have hundo := hok.undo
  rw [Local.held_of_active hact, Local.pending_of_active hact] at hundo
  have hlocked := hok.locked
  rw [Local.unstamped_of_active hact, Local.pending_of_active hact] at hlocked
  refine ⟨?_, ?_, fun r hr => ?_, fun a ha => ?_, fun a ha => ?_,
    Local.held_of_active hact ▸ hok.nodup, hcommitTs.le, fun l _ => ?_⟩
  · rw [hvalidated]
    exact hok.validated.trans (Nat.le_succ _)
  · rw [hvalidated, htxn, State.fetchAdd_committedAt_of_le hok.validated]
    exact hok.reads
  · exact (hok.entries r (hreadset ▸ hr)).trans (Nat.le_succ _)
  · refine Eq.trans ?_ (congrFun State.fetchAdd_committedAt_new.symm a)
    split_ifs
    · exact hundo a ha
    · rw [State.commitState]
      split_ifs with hmem
      · rfl
      · rw [← hundo a ha, rollback_of_not_mem hmem]
        rfl
  · split_ifs at ha
    · exact hlocked a ha
    · exact absurd ha List.not_mem_nil
  · rw [hcommitTs]
    exact ⟨Nat.lt_succ_of_le (h.table.ts_le l), State.fetchAdd_lastCommit_le h.table⟩

/-- **A transaction gets its timestamp.** -/
theorem Inv.fetchAdd : Inv cfg (s.fetchAdd i) := by
  set t' : Local := { s.thread i with
    state := { (s.thread i).state with commitTs := s.globalTs + 1 } }
  have hact : (s.thread i).pc.active = true := by rw [hpc]; rfl
  have hends : t'.Ends t'.state.locksHeld t'.undoOrKeep := Local.ends_undoOrKeep
  have hid := h.thrId_of_pc (i := i) (by rw [hpc]; simp)
  have hother (j : ι) (hj : j ≠ i) : (s.fetchAdd i).thread j = s.thread j :=
    State.setThread_of_ne hj
  have hself : (s.fetchAdd i).thread i = t'.undoOrKeep := State.setThread_self
  have hheld := Local.held_of_active hact
  have hunstamped := Local.unstamped_of_active hact
  refine h.turn (i := i) ?_ hother (State.owned_view h.owned hid rfl rfl
    (fun j hj => State.view_thread (hother j hj)) ?_ ?_) (h.writing_of_same hother ?_)
    ⟨fun l => (h.table.ts_le l).trans (Nat.le_succ _),
      fun l => State.fetchAdd_lastCommit_le h.table,
      fun a k hk hkn => ?_, fun l hl => ?_⟩ ?_ fun j hj =>
      ⟨Nat.le_succ _, fun k hk => State.fetchAdd_committedAt_of_le hk, fun _ => le_rfl,
        fun l hl => ⟨rfl, ?_⟩, fun a ha => ⟨rfl, ?_⟩⟩
  · rw [hself, hends.thrId]
    exact hid
  · rw [hself, hends.thrId]
    rfl
  · rw [hself, hends.held]
    exact hheld.symm
  · rw [hself, hends.unstamped]
    exact hunstamped.symm
  · -- Nothing changed under a lock since its last commit.
    change k ≤ s.globalTs + 1 at hkn
    change _ = (s.fetchAdd i).committedAt (s.globalTs + 1) a
    rcases Nat.lt_or_eq_of_le hkn with hlt | rfl
    · have hkg := Nat.le_of_lt_succ hlt
      have hl : ¬((s.thread i).state.aborted = false ∧
          cfg.addrToLock a ∈ (s.thread i).state.locksHeld) := fun hyes => by
        have hnew : (s.fetchAdd i).lastCommit (cfg.addrToLock a) = s.globalTs + 1 := if_pos hyes
        omega
      have hlast : (s.fetchAdd i).lastCommit (cfg.addrToLock a) = s.lastCommit (cfg.addrToLock a) :=
        if_neg hl
      rw [State.fetchAdd_committedAt_of_le hkg, h.table.const a k (hlast ▸ hk) hkg]
      by_cases hmem : cfg.addrToLock a ∈ (s.thread i).state.locksHeld
      · have haborted : (s.thread i).state.aborted = true := by
          rw [← Bool.not_eq_false]
          exact fun hno => hl ⟨hno, hmem⟩
        rw [State.fetchAdd_committedAt_new, if_pos haborted]
      · exact (h.committedAt_of_not_held hpc hmem).symm
    · rfl
  · have hnot : l ∉ (s.thread i).state.locksHeld := fun hmem => by
      have hwriting := (h.writing l).2 ⟨i, hunstamped ▸ hmem⟩
      exact Bool.noConfusion (hwriting.symm.trans hl)
    have hquiet := h.table.quiet l hl
    refine ⟨?_, fun a ha => (hquiet.2 a ha).trans ?_⟩
    · rw [State.fetchAdd_lastCommit_of_not_mem hnot]
      exact hquiet.1
    · exact (h.committedAt_of_not_held hpc (ha ▸ hnot)).symm
  · rw [hself, Local.undoOrKeep]
    have hend := h.fetchAdd_endOk hpc (t := t') rfl rfl rfl rfl
    split_ifs with haborted
    · rw [if_pos haborted] at hend
      refine EndOk.undoFrom ?_
      rw [List.reverse_reverse]
      exact hend
    · rw [if_neg haborted] at hend
      exact EndOk.unlockFrom ⟨hend.validated, hend.reads, hend.entries, hend.undo, hend.locked,
        hend.nodup, hend.commitTs, hend.stamps⟩ rfl
  · exact State.fetchAdd_lastCommit_of_not_mem fun hmem => hj (h.holder_eq hl (hheld ▸ hmem))
  · exact h.committedAt_of_not_held hpc fun hmem => hj (h.holder_eq ha (hheld ▸ hmem))

end FetchAdd

/-! ### Calls that begin -/

theorem Inv.getState (h : Inv cfg s) :
    Inv cfg (s.getState i) ∧ ((s.getState i).thread i).state.thrId ≠ 0 ∧
      ((s.getState i).thread i).pc = (s.thread i).pc := by
  by_cases hid : (s.thread i).state.thrId = 0
  · set t : Local := { s.thread i with state := newThread s.lastThrId }
    have hs : s.getState i = { s.setThread i t with lastThrId := s.lastThrId + 1 } := if_pos hid
    have hself : (s.setThread i t).thread i = t := State.setThread_self
    have hother (j : ι) (hj : j ≠ i) : (s.setThread i t).thread j = s.thread j :=
      State.setThread_of_ne hj
    have ht : t = ⟨newThread s.lastThrId, .idle, []⟩ := by simp [t, h.started i hid]
    have hnone : (s.thread i).held = [] ∧ (s.thread i).unstamped = [] := by
      rw [h.started i hid]
      exact ⟨rfl, rfl⟩
    have hviewId : (s.view.thread i).thrId = 0 := hid
    have hview : (s.view.getState i).thread i = newThread s.lastThrId := by
      rw [Shared.getState, if_pos hviewId]
      exact Shared.setThread_self (f := fun _ => newThread s.lastThrId)
    have hlast : (s.view.getState i).lastThrId = s.lastThrId + 1 := by
      rw [Shared.getState, if_pos hviewId]
      rfl
    have hpos : s.lastThrId ≠ 0 := Nat.pos_iff_ne_zero.1 h.owned.pos
    rw [hs]
    refine ⟨h.turn (i := i) ?_ hother (State.owned_view (i := i) h.owned.getState ?_ ?_ hlast.symm
      (fun j hj => ?_) ?_ ?_) (h.writing_of_same hother ?_) ⟨h.table.ts_le, h.table.lastCommit_le,
        h.table.const, h.table.quiet⟩ ?_ fun _ _ => ⟨le_rfl, fun _ _ => rfl, fun _ => le_rfl,
        fun _ _ => ⟨rfl, rfl⟩, fun _ _ => ⟨rfl, rfl⟩⟩, ?_, ?_⟩
    · simp only [hself]
      exact hpos
    · rw [hview]
      exact hpos
    · rw [Shared.getState_lockOwnership]
      rfl
    · rw [Shared.getState_of_other hj]
      exact State.view_thread (hother j hj)
    · rw [hview]
      exact congrArg (·.state.thrId) hself
    · rw [hview]
      refine (congrArg Local.held hself).trans ?_
      rw [ht]
      rfl
    · rw [hnone.2]
      refine (congrArg Local.unstamped hself).trans ?_
      rw [ht]
      rfl
    · simp only [hself]
      rw [ht]
      exact .new _
    · simp only [hself]
      exact hpos
    · simp only [hself]
      rfl
  · rw [State.getState, if_neg hid]
    exact ⟨h, hid, rfl⟩

/-- A commit call begins with a validation; outside of a transaction it opens one and loads the
clock. -/
theorem Inv.beginCommit (h : Inv cfg s) (hid : (s.thread i).state.thrId ≠ 0)
    (hpc : (s.thread i).pc = .idle ∨ (s.thread i).pc = .thrown) : Inv cfg (s.beginCommit i) := by
  have hp : (s.thread i).pc.plain = true := by
    rcases hpc with hpc | hpc <;> rw [hpc] <;> rfl
  have hact := Pc.active_of_plain hp
  rw [State.beginCommit]
  dsimp only
  split_ifs
  · exact h.setActive hid hact ((h.thread i).validate hp trivial) (Local.keeps_validate ..)
  · exact h.setActive hid hact ((h.thread i).move hp rfl trivial)
      ⟨rfl, rfl, rfl⟩

end TinyStm
end Locktable
end Sivfs
