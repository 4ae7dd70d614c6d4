/-
# The call after the write-set

From the hooks on, every call does the same.  It fails if a hook does, if there is no checkpoint,
or if the snapshot cannot be taken (`finish_failed_iff`), and then it has left things as they
were if nothing was appended, the chunk lists were empty and the checkpoint was not exchanged
(`finish_unchanged_iff`).
-/

import Sivfs.Update.Failure

namespace Sivfs
namespace Update

/-! ### The call after the write-set -/

/-- What goes wrong after the write-set is dealt with. -/
def FinishFails (env : Env) (th : Thread) (options : Options) (own aborted : Bool) : Prop :=
  HookFails env th aborted ∨ NoCheckpoint env th ∨ SnapshotFails env th options own

/-- The checkpoint of the thread is not exchanged for another one. -/
def KeepsCheckpoint (env : Env) (th : Thread) : Prop :=
  th.checkpointTs ≠ env.latestTs →
    env.settled = th.checkpoint ∧ (env.settledTs : Ts) = th.checkpointTs

section Finish

variable {env : Env} {th : Thread} {options : Options} {entry : Option LogEntry} {commitTs : Ts}
  {aborted : Bool}

/-- The hooks do not change what the later steps fail on. -/
theorem allocationOnCommit_later (own : Bool) :
    (NoCheckpoint env (allocationOnCommit env th aborted).1 ↔ NoCheckpoint env th) ∧
    (SnapshotFails env (allocationOnCommit env th aborted).1 options own ↔
      SnapshotFails env th options own) ∧
    (KeepsCheckpoint env (allocationOnCommit env th aborted).1 ↔ KeepsCheckpoint env th) := by
  obtain ⟨hth, hcp, -⟩ := allocationOnCommit_frame env th aborted
  simp only [NoCheckpoint, SnapshotFails, heldTs, KeepsCheckpoint, hcp, hth, and_self]

/-- **When the rest of the call fails.** -/
theorem finish_failed_iff (h : Appended env entry commitTs) :
    (∃ e, (finish env th entry options commitTs aborted).ret = .error (.code e)) ↔
      FinishFails env th options entry.isSome aborted := by
  obtain ⟨hno, hsnap, -⟩ :=
    @allocationOnCommit_later env th options aborted entry.isSome
  have halloc := @allocationOnCommit_ok_iff env th aborted
  rw [FinishFails, ← hno, ← hsnap]
  rcases ha : allocationOnCommit env th aborted with ⟨th₁, e | ⟨⟩⟩
  · rw [ha] at halloc
    refine iff_of_true ⟨e, by simp [finish, ha]⟩ (.inl ?_)
    simpa using halloc
  · rw [ha] at halloc
    have hcheck := @checkOut_ok_iff env th₁
    have htake := @takeSnapshot_ok_iff env th₁ options entry commitTs h
    rcases hc : checkOut env th₁ with ⟨th₂, e | cpTs⟩
    · rw [hc] at hcheck
      refine iff_of_true ⟨e, by simp [finish, ha, hc]⟩ (.inr (.inl ?_))
      simpa using hcheck
    · rw [hc] at hcheck htake
      have h₁ : ¬HookFails env th aborted := halloc.1 rfl
      have h₂ : ¬NoCheckpoint env th₁ := hcheck.1 ⟨cpTs, rfl⟩
      rcases ht : takeSnapshot env (env.logAfter entry) th₂ options commitTs with ⟨th₃, e | ⟨⟩⟩
      · rw [ht] at htake
        refine iff_of_true ⟨e, by simp [finish, ha, hc, ht]⟩ (.inr (.inr ?_))
        simpa using htake
      · rw [ht] at htake
        have h₃ := htake.1 rfl
        refine iff_of_false ?_ (by simp [h₁, h₂, h₃])
        simp [finish, ha, hc, ht]

/-- If it fails, a hook has failed or the checkpoint has been exchanged. -/
theorem finish_error {e : Exit}
    (h : (finish env th entry options commitTs aborted).ret = .error e) :
    HookFails env th aborted ∧
      (finish env th entry options commitTs aborted).thread =
        (allocationOnCommit env th aborted).1 ∨
    ∃ pages direct, (finish env th entry options commitTs aborted).thread =
      { (checkOut env (allocationOnCommit env th aborted).1).1 with
        workingset := pages, directAccess := direct } := by
  have halloc := @allocationOnCommit_ok_iff env th aborted
  unfold finish at h ⊢
  rcases ha : allocationOnCommit env th aborted with ⟨th₁, e | ⟨⟩⟩
  · rw [ha] at halloc
    exact .inl ⟨by simpa using halloc, rfl⟩
  · right
    simp only [ha] at h ⊢
    rcases hc : checkOut env th₁ with ⟨th₂, e | cpTs⟩
    · exact ⟨th₂.workingset, th₂.directAccess, rfl⟩
    · simp only [hc] at h ⊢
      rcases ht : takeSnapshot env (env.logAfter entry) th₂ options commitTs with ⟨th₃, e | ⟨⟩⟩
      · obtain ⟨pages, direct, rfl⟩ := takeSnapshot_error ht
        exact ⟨pages, direct, rfl⟩
      · simp [ht] at h

/-- **What the rest of the call changes when it fails.** -/
theorem finish_unchanged_iff {e : Exit}
    (h : (finish env th entry options commitTs aborted).ret = .error e) :
    Unchanged th (finish env th entry options commitTs aborted) ↔
      entry = none ∧ (th.allocatedChunks = [] ∧ th.allocChunksToFree = []) ∧
        KeepsCheckpoint env th := by
  have hlists := @allocationOnCommit_lists env th aborted
  have hentry := finish_entry env th entry options commitTs aborted
  obtain ⟨hth, hcpTs, -⟩ := allocationOnCommit_frame env th aborted
  obtain ⟨-, -, hkeep⟩ := @allocationOnCommit_later env th options aborted entry.isSome
  rcases finish_error h with ⟨hhook, hthread⟩ | ⟨pages, direct, hthread⟩
  · refine iff_of_false (fun hun => hhook.lists (hlists.1 ⟨?_, ?_⟩)) fun hun => hhook.lists hun.2.1
    · rw [← hthread, hun.allocatedChunks]
    · rw [← hthread, hun.allocChunksToFree]
  · obtain ⟨hts, -, -, halloc, hfree⟩ := checkOut_frame env (allocationOnCommit env th aborted).1
    have hcheck := @checkOut_checkpoint_iff env (allocationOnCommit env th aborted).1
    rw [← KeepsCheckpoint, hkeep, hth, hcpTs] at hcheck
    rw [hth] at hts
    rw [← hlists, ← halloc, ← hfree, ← hcheck]
    constructor
    · rintro ⟨h₁, -, h₃, h₄, h₅, h₆⟩
      rw [hthread] at h₃ h₄ h₅ h₆
      exact ⟨hentry.symm.trans h₁, ⟨h₅, h₆⟩, h₃, h₄⟩
    · rintro ⟨h₁, ⟨h₅, h₆⟩, h₃, h₄⟩
      refine ⟨hentry.trans h₁, ?_, ?_, ?_, ?_, ?_⟩ <;> rw [hthread]
      · exact hts
      · exact h₃
      · exact h₄
      · exact h₅
      · exact h₆

end Finish

end Update
end Sivfs
