/-
# The ways of a call through its write-set

A call that is not refused faults in the validation, or is aborted there with a write-set whose
pages cannot be removed, or gets past its write-set and goes on as `Sivfs.Update.Finish` has it
(`course`).  Whether the write-set is malformed can be said of it as user space has made it: the
tags change no `stream_control` (`addMetadataToChanges_streamControl`).
-/

import Sivfs.Update.Finish

namespace Sivfs
namespace Update

/-! ### The call with its write-set -/

/-- The entries handed in; with `log_writeset` `NULL` there are none. -/
def writes : Option Submitted → List WsEntry
  | none => []
  | some x => x.entries

/-- `should_abort` of the thread or `SIVFS_ABORT_FLAG` is set. -/
def doomed (th : Thread) (options : Options) : Bool := th.shouldAbort || options.abort

/-- `sivfs_commit_changes` is called with the write-set. -/
def commits (th : Thread) (w : Option Submitted) (options : Options) : Bool :=
  !doomed th options && writes w ≠ []

/-- `sivfs_add_metadata_to_changes` rejects the write-set. -/
def Rejected (env : Env) (x : Submitted) : Prop :=
  x.wsHasMetadata = false ∧ ¬AllPass env.mm env.iSize x.entries ∧
    ¬CutShort env.mm env.iSize x.entries

/-- The call is turned down before it appends to the log. -/
def Refused (env : Env) (th : Thread) (w : Option Submitted) (options : Options) : Prop :=
  ∃ x, w = some x ∧ (x.aborted = true ∨ x.entries ≠ [] ∧ (Rejected env x ∨
    if doomed th options then Malformed x.entries else env.lock ≠ none))

/-- Whether the transaction is aborted; `none` if validation does not come to an end. -/
def fate (env : Env) (th : Thread) (w : Option Submitted) (options : Options) : Option Bool :=
  if doomed th options then some true
  else
    match w with
    | none => some false
    | some x =>
      if x.entries = [] then some false
      else validate env th.ts (addMetadataToChanges env.mm env.iSize x).1.entries
        (env.earlier.length + 1)

/-- A step fails behind `sivfs_commit_changes`. -/
def GoesWrong (env : Env) (th : Thread) (w : Option Submitted) (options : Options) : Prop :=
  ∃ aborted, fate env th w options = some aborted ∧
    (aborted = true ∧ Malformed (writes w) ∨
      FinishFails env th options (commits th w options) aborted)

/-- The call changes something on its way. -/
def Commences (env : Env) (th : Thread) (w : Option Submitted) (options : Options) : Prop :=
  commits th w options = true ∨ th.allocatedChunks ≠ [] ∨ th.allocChunksToFree ≠ [] ∨
    ¬KeepsCheckpoint env th

/-! ### The tags -/

/-- Tagging does not touch `stream_control`. -/
theorem addMetadataLoop_streamControl (mm : Mm) (iSize : ℕ → ℕ → ℕ) (ws : List WsEntry) :
    (addMetadataLoop mm iSize ws).1.map WsEntry.streamControl = ws.map WsEntry.streamControl := by
  induction ws generalizing iSize with
  | nil => rfl
  | cons ent ws ih =>
    unfold addMetadataLoop
    split
    · rfl
    · split
      · rfl
      · exact congrArg (List.cons _) (ih _)
      · rfl

theorem addMetadataToChanges_streamControl (mm : Mm) (iSize : ℕ → ℕ → ℕ) (x : Submitted) :
    (addMetadataToChanges mm iSize x).1.entries.map WsEntry.streamControl =
      x.entries.map WsEntry.streamControl := by
  have hloop := addMetadataLoop_streamControl mm iSize x.entries
  unfold addMetadataToChanges
  split_ifs
  · rfl
  · split <;> simp_all

theorem Malformed.congr {ws ws' : List WsEntry} (h : Malformed ws)
    (heq : ws.map WsEntry.streamControl = ws'.map WsEntry.streamControl) : Malformed ws' := by
  obtain ⟨ent, hent, hnone⟩ := h
  have hmem : ent.streamControl ∈ ws'.map WsEntry.streamControl :=
    heq ▸ List.mem_map_of_mem hent
  obtain ⟨ent', hent', hsc⟩ := List.mem_map.1 hmem
  exact ⟨ent', hent', by rw [hsc, hnone]⟩

/-- A write-set that is not aborted is tagged or rejected. -/
theorem addMetadataToChanges_cases (env : Env) {x : Submitted} (h : x.aborted = false) :
    (Rejected env x ∧ ∃ w' e, addMetadataToChanges env.mm env.iSize x = (w', .error e)) ∨
    (¬Rejected env x ∧ ∃ w', addMetadataToChanges env.mm env.iSize x = (w', .ok ())) := by
  obtain ⟨ws, aborted, hasMetadata⟩ := x
  obtain rfl : aborted = false := h
  cases hasMetadata with
  | true => exact .inr ⟨fun h => by simpa using h.1, _, rfl⟩
  | false =>
    by_cases hpass : AllPass env.mm env.iSize ws
    · exact .inr ⟨fun h => h.2.1 hpass, admitted (.inl hpass)⟩
    · by_cases hcut : CutShort env.mm env.iSize ws
      · exact .inr ⟨fun h => h.2.2 hcut, admitted (.inr hcut)⟩
      · exact .inl ⟨⟨rfl, hpass, hcut⟩, addMetadata_error hpass hcut⟩

/-! ### The course of a call -/

/-- The pages of an aborted write-set are removed, as far as its entries go. -/
theorem abortWrites_cases (th : Thread) (ws : List WsEntry) (entry : Option LogEntry)
    (commitTs : Ts) :
    (Malformed ws ∧ ∃ pages e, abortWrites th ws entry commitTs =
      ({ th with workingset := pages }, entry, .error (.code e))) ∨
    (¬Malformed ws ∧ ∃ pages, abortWrites th ws entry commitTs =
      ({ th with workingset := pages }, entry, .ok (commitTs, true))) := by
  have hiff := @walkWs_ok_iff unmapPageRange ws th.workingset
  unfold abortWrites invalidateWorkingsetLog
  rcases hwalk : walkWs unmapPageRange ws th.workingset with ⟨pages, e | ⟨⟩⟩
  · rw [hwalk] at hiff
    exact .inl ⟨by simpa using hiff, pages, e, rfl⟩
  · rw [hwalk] at hiff
    exact .inr ⟨hiff.1 rfl, pages, rfl⟩

section Course

variable {env : Env} {th : Thread} {w : Option Submitted} {options : Options}

/-- A write-set that is rejected, malformed and aborted already, or does not get the
commit lock. -/
theorem commitWrites_refused {x : Submitted} {doomed : Bool} (hab : x.aborted = false)
    (hne : x.entries ≠ [])
    (h : Rejected env x ∨ if doomed then Malformed x.entries else env.lock ≠ none) :
    ∃ pages e, commitWrites env th (some x) doomed =
      ({ th with workingset := pages }, none, .error (.code e)) := by
  have hsc := addMetadataToChanges_streamControl env.mm env.iSize x
  simp only [commitWrites, if_neg hne]
  rcases addMetadataToChanges_cases env hab with ⟨-, w', e, hmeta⟩ | ⟨hnot, w', hmeta⟩
  · exact ⟨th.workingset, e, by rw [hmeta]⟩
  · have h := h.resolve_left hnot
    rw [hmeta] at hsc ⊢
    simp only [commitTagged]
    cases doomed with
    | true =>
      have hmal : Malformed w'.entries := Malformed.congr h hsc.symm
      rcases abortWrites_cases th w'.entries none invalidTs with ⟨-, hcall⟩ | ⟨hwell, -⟩
      · exact hcall
      · exact absurd hmal hwell
    | false =>
      obtain ⟨e, he⟩ := Option.ne_none_iff_exists'.1 h
      exact ⟨th.workingset, e, by simp [commitChanges, he]⟩

/-- A call that is refused returns an error. -/
theorem Refused.call (h : Refused env th w options) :
    ∃ pages should e, commitUpdate env th w options =
      ⟨{ th with workingset := pages, shouldAbort := should }, none, .error (.code e)⟩ := by
  obtain ⟨x, rfl, h⟩ := h
  cases hab : x.aborted with
  | true =>
    refine ⟨th.workingset, th.shouldAbort, .einval, ?_⟩
    rw [commitUpdate, Option.any_some, hab]
    rfl
  | false =>
    obtain ⟨hne, h⟩ := h.resolve_left (by simp [hab])
    obtain ⟨pages, e, hcall⟩ := commitWrites_refused hab hne h
    have hany : (some x).any Submitted.aborted = false := hab
    exact ⟨pages, false, e, commitUpdate_of_writes_error hany hcall⟩

/-- **A call that is refused changes nothing.** -/
theorem Refused.unchanged (h : Refused env th w options) :
    Unchanged th (commitUpdate env th w options) := by
  obtain ⟨pages, should, e, hcall⟩ := h.call
  rw [hcall]
  exact ⟨rfl, rfl, rfl, rfl, rfl, rfl⟩

/-- How a call goes on that is not refused. -/
inductive Course (env : Env) (th : Thread) (w : Option Submitted) (options : Options) : Prop
  /-- Validation faults. -/
  | faults (hfate : fate env th w options = none)
      (hret : (commitUpdate env th w options).ret = .error .fault)
  /-- The transaction is aborted by validation, and its pages cannot be removed. -/
  | stuck (l : LogEntry) (e : Errno) (hfate : fate env th w options = some true)
      (hmalformed : Malformed (writes w)) (hcommits : commits th w options = true)
      (hentry : (commitUpdate env th w options).entry = some l)
      (hret : (commitUpdate env th w options).ret = .error (.code e))
  /-- The call gets past the write-set. -/
  | passes (aborted : Bool) (pages : Workingset) (entry : Option LogEntry) (commitTs : Ts)
      (hfate : fate env th w options = some aborted)
      (hwell : ¬(aborted = true ∧ Malformed (writes w)))
      (happended : Appended env entry commitTs) (hcommits : entry.isSome = commits th w options)
      (hcall : commitUpdate env th w options =
        finish env { th with shouldAbort := false, workingset := pages } entry options commitTs
          aborted)

/-- A call without writes. -/
theorem course_of_empty (hany : w.any Submitted.aborted = false) (hempty : writes w = []) :
    Course env th w options := by
  have hwrites : commitWrites env { th with shouldAbort := false } w (doomed th options) =
      ({ th with shouldAbort := false }, none, .ok (invalidTs, doomed th options)) := by
    cases w with
    | none => rfl
    | some x =>
      have hx : x.entries = [] := hempty
      simp only [commitWrites, if_pos hx]
  have hfate : fate env th w options = some (doomed th options) := by
    unfold fate
    cases hd : doomed th options with
    | true => rfl
    | false =>
      cases w with
      | none => rfl
      | some x =>
        have hx : x.entries = [] := hempty
        simp [hx]
  refine .passes (doomed th options) th.workingset none invalidTs hfate ?_ .nothing ?_ ?_
  · rw [hempty]
    exact fun h => not_malformed_nil h.2
  · simp [commits, hempty]
  · exact commitUpdate_of_writes hany hwrites

/-- A call that is aborted from the start. -/
theorem course_of_doomed {x w' : Submitted} (hab : x.aborted = false) (hne : x.entries ≠ [])
    (hmeta : addMetadataToChanges env.mm env.iSize x = (w', .ok ()))
    (hd : doomed th options = true) (hwell : ¬Malformed x.entries) :
    Course env th (some x) options := by
  have hany : (some x).any Submitted.aborted = false := hab
  have hsc := addMetadataToChanges_streamControl env.mm env.iSize x
  rw [hmeta] at hsc
  rcases abortWrites_cases { th with shouldAbort := false } w'.entries none invalidTs with
    ⟨hmal, -⟩ | ⟨-, pages, hpages⟩
  · exact absurd (hmal.congr hsc) hwell
  · refine .passes true pages none invalidTs ?_ (fun h => hwell h.2) .nothing ?_ ?_
    · rw [fate, hd]
      rfl
    · simp [commits, hd]
    · refine commitUpdate_of_writes hany ?_
      rw [← doomed, hd]
      simp only [commitWrites, if_neg hne, hmeta, commitTagged, if_true, hpages]

/-- A call that appends to the log. -/
theorem course_of_commits {x w' : Submitted} (hab : x.aborted = false) (hne : x.entries ≠ [])
    (hmeta : addMetadataToChanges env.mm env.iSize x = (w', .ok ()))
    (hd : doomed th options = false) (hlock : env.lock = none) :
    Course env th (some x) options := by
  have hany : (some x).any Submitted.aborted = false := hab
  have hsc := addMetadataToChanges_streamControl env.mm env.iSize x
  have hcommits : commits th (some x) options = true := by simp [commits, hd, writes, hne]
  have hfate : fate env th (some x) options =
      validate env th.ts w'.entries (env.earlier.length + 1) := by
    simp only [fate, hd, Bool.false_eq_true, if_false, if_neg hne, hmeta]
  have hwrites : commitWrites env { th with shouldAbort := false } (some x)
      (th.shouldAbort || options.abort) =
      commitTagged env { th with shouldAbort := false } w'.entries false := by
    rw [← doomed, hd]
    simp only [commitWrites, if_neg hne, hmeta]
  rw [hmeta] at hsc
  simp only [commitTagged, Bool.false_eq_true, if_false, commitChanges, hlock] at hwrites
  rcases hval : validate env th.ts w'.entries (env.earlier.length + 1) with _ | aborted
  · simp only [hval] at hwrites
    exact .faults (hfate.trans hval) (by rw [commitUpdate_of_writes_error hany hwrites])
  · simp only [hval] at hwrites
    cases aborted with
    | false =>
      exact .passes false th.workingset _ _ (hfate.trans hval) (by simp)
        (.entry false w'.entries) (by rw [hcommits]; rfl) (commitUpdate_of_writes hany hwrites)
    | true =>
      rcases abortWrites_cases { th with shouldAbort := false } w'.entries
        (some ⟨env.earlier.length + 1, true, w'.entries⟩) ((env.earlier.length + 1 : ℕ) : Ts) with
        ⟨hmal, pages, e, hpages⟩ | ⟨hwell, pages, hpages⟩
      · have hcall := commitUpdate_of_writes_error hany (hwrites.trans hpages)
        exact .stuck ⟨env.earlier.length + 1, true, w'.entries⟩ e (hfate.trans hval)
          (hmal.congr hsc) hcommits (by rw [hcall]) (by rw [hcall])
      · exact .passes true pages _ _ (hfate.trans hval) (fun h => hwell (h.2.congr hsc.symm))
          (.entry true w'.entries) (by rw [hcommits]; rfl)
          (commitUpdate_of_writes hany (hwrites.trans hpages))

/-- **The course of a call.** -/
theorem course (h : ¬Refused env th w options) : Course env th w options := by
  have hany : w.any Submitted.aborted = false := by
    rw [Bool.eq_false_iff]
    intro hab
    obtain ⟨x, rfl, hab⟩ := (Option.any_eq_true _ _).1 hab
    exact h ⟨x, rfl, .inl hab⟩
  rcases eq_or_ne (writes w) [] with hempty | hne
  · exact course_of_empty hany hempty
  · cases w with
    | none => exact absurd rfl hne
    | some x =>
      have hab : x.aborted = false := hany
      rcases addMetadataToChanges_cases env hab with ⟨hrejected, -⟩ | ⟨-, w', hmeta⟩
      · exact absurd ⟨x, rfl, .inr ⟨hne, .inl hrejected⟩⟩ h
      · cases hd : doomed th options with
        | true =>
          refine course_of_doomed hab hne hmeta hd fun hmal => h ⟨x, rfl, .inr ⟨hne, .inr ?_⟩⟩
          rwa [hd, if_pos rfl]
        | false =>
          refine course_of_commits hab hne hmeta hd ?_
          by_contra hlock
          refine h ⟨x, rfl, .inr ⟨hne, .inr ?_⟩⟩
          rwa [hd, if_neg Bool.false_ne_true]

end Course

end Update
end Sivfs
