/-
# When a failed call leaves things as they were

`failsClean_iff` is the exact condition: the call is refused before it appends, it has nothing to
change, or none of the later steps fails.  `not_failsClean_directAccess` is a call that appends
and then fails in `sivfs_update_direct_access`.
-/

import Sivfs.Update.Course

namespace Sivfs
namespace Update

theorem not_commences_iff {env : Env} {th : Thread} {w : Option Submitted} {options : Options}
    {entry : Option LogEntry} (h : entry.isSome = commits th w options) :
    ¬Commences env th w options ↔ entry = none ∧
      (th.allocatedChunks = [] ∧ th.allocChunksToFree = []) ∧ KeepsCheckpoint env th := by
  rw [Commences, ← h]
  push Not
  rw [ne_eq, Option.not_isSome_iff_eq_none, and_assoc]

/-- What the call does to the pages and to `should_abort` does not matter. -/
theorem unchanged_iff {th : Thread} {pages : Workingset} {out : Outcome} :
    Unchanged { th with shouldAbort := false, workingset := pages } out ↔ Unchanged th out :=
  ⟨fun h => ⟨h.entry, h.ts, h.checkpoint, h.checkpointTs, h.allocatedChunks, h.allocChunksToFree⟩,
    fun h => ⟨h.entry, h.ts, h.checkpoint, h.checkpointTs, h.allocatedChunks, h.allocChunksToFree⟩⟩

/-- **When a failed call leaves things as they were.**  For every state, write-set,
options and company: if the call returns an error, then nothing is in the log and
snapshot, checkpoint and chunk lists are kept; if and only if the call is refused
before it appends, or has nothing to change, or none of the later steps fails. -/
theorem failsClean_iff (env : Env) (th : Thread) (w : Option Submitted) (options : Options) :
    FailsClean th (commitUpdate env th w options) ↔
      Refused env th w options ∨ ¬Commences env th w options ∨ ¬GoesWrong env th w options := by
  by_cases hrefused : Refused env th w options
  · exact iff_of_true (fun _ _ => hrefused.unchanged) (.inl hrefused)
  · simp only [hrefused, false_or]
    rcases course hrefused with ⟨hfate, hret⟩ | ⟨l, e, hfate, hmal, hcommits, hentry, hret⟩ |
      ⟨aborted, pages, entry, commitTs, hfate, hwell, happ, hcommits, hcall⟩
    · refine iff_of_true (fun e he => ?_) (.inr ?_)
      · simp [hret] at he
      · rintro ⟨aborted, h, -⟩
        simp [hfate] at h
    · refine iff_of_false (fun h => ?_) ?_
      · simpa [hentry] using (h e hret).entry
      · rintro (h | h)
        · exact h (.inl hcommits)
        · exact h ⟨true, hfate, .inl ⟨rfl, hmal⟩⟩
    · have hgoes : GoesWrong env th w options ↔
          FinishFails env th options entry.isSome aborted := by
        rw [hcommits]
        constructor
        · rintro ⟨a, ha, h⟩
          obtain rfl := Option.some.inj (hfate.symm.trans ha)
          exact h.resolve_left hwell
        · exact fun h => ⟨aborted, hfate, .inr h⟩
      have hfails := @finish_failed_iff env { th with shouldAbort := false, workingset := pages }
        options entry commitTs aborted happ
      rw [hgoes, hcall]
      by_cases hff : FinishFails env th options entry.isSome aborted
      · obtain ⟨e, he⟩ := hfails.2 hff
        have hclean := (unchanged_iff.symm.trans (finish_unchanged_iff he)).trans
          (not_commences_iff hcommits).symm
        constructor
        · exact fun h => .inl (hclean.1 (h e he))
        · rintro (h | h)
          · exact fun _ _ => hclean.2 h
          · exact absurd hff h
      · exact iff_of_true (fun e he => absurd (hfails.1 ⟨e, he⟩) hff) (.inr hff)

/-- A write to the one page of file `7`. -/
def plainWrite : WsEntry := ⟨0, 0, 65536, 0, 5⟩

/-- The first call of `sivfs_begin_direct_access` with a write to commit: the write is
in the log when it turns out that there is no checkpoint of it yet. -/
theorem not_failsClean_directAccess :
    (commitUpdate (alone onePage fun _ _ => 4096) (begun fun _ _ => none)
      (some (submit [plainWrite])) ⟨false, true⟩).ret = .error (.code .einval) ∧
    (commitUpdate (alone onePage fun _ _ => 4096) (begun fun _ _ => none)
      (some (submit [plainWrite])) ⟨false, true⟩).entry =
        some ⟨1, false, [withTag plainWrite 7 0]⟩ ∧
    ¬FailsClean (begun fun _ _ => none)
      (commitUpdate (alone onePage fun _ _ => 4096) (begun fun _ _ => none)
        (some (submit [plainWrite])) ⟨false, true⟩) := by
  have hret : (commitUpdate (alone onePage fun _ _ => 4096) (begun fun _ _ => none)
      (some (submit [plainWrite])) ⟨false, true⟩).ret = .error (.code .einval) := by
    decide
  have hentry : (commitUpdate (alone onePage fun _ _ => 4096) (begun fun _ _ => none)
      (some (submit [plainWrite])) ⟨false, true⟩).entry =
        some ⟨1, false, [withTag plainWrite 7 0]⟩ := by
    decide
  refine ⟨hret, hentry, fun h => ?_⟩
  have hnone := (h .einval hret).entry
  rw [hentry] at hnone
  simp at hnone

end Update
end Sivfs
