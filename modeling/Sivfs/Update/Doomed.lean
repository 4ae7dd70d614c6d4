/-
# Doomed transactions

`sivfs_free_block` cannot tell the caller that a free conflicts.  It sets
`should_abort` of the thread, and the next `my_sivfs_commit_update` is to abort the
transaction.

The call takes the flag over into a local variable at its very start and clears it.
If it then returns an error, the transaction goes on without it: the caller makes
the call again with the same write-set, as `sivfs_begin_direct_access` does in a
loop, and nothing is left to abort it.

A history is a list of calls, each made after the one before has returned an error.
-/

import Sivfs.Update.FailsClean

namespace Sivfs
namespace Update

/-! ### Histories -/

/-- A call: what it finds, the state of the thread and the options. -/
structure Call where
  env : Env
  th : Thread
  options : Options

/-- The call is made with the write-set `ws`. -/
def Call.out (ws : List WsEntry) (c : Call) : Outcome :=
  commitUpdate c.env c.th (some (submit ws)) c.options

/-- What a thread can do between two calls: fault pages in and evict them, allocate
and free, which may doom the transaction. -/
structure Resumes (th th' : Thread) : Prop where
  ts : th'.ts = th.ts
  checkpoint : th'.checkpoint = th.checkpoint
  checkpointTs : th'.checkpointTs = th.checkpointTs
  priorCheckpointTs : th'.priorCheckpointTs = th.priorCheckpointTs
  directAccess : th'.directAccess = th.directAccess
  shouldAbort : th.shouldAbort = true → th'.shouldAbort = true

/-- The call returned an error and is followed by another one. -/
def Retried (ws : List WsEntry) (c d : Call) : Prop :=
  (∃ e, (c.out ws).ret = .error (.code e)) ∧ Resumes (c.out ws).thread d.th

/-- The write-set is tried again after each error. -/
def Retries (ws : List WsEntry) (calls : List Call) : Prop := calls.IsChain (Retried ws)

/-! ### Calls of a doomed transaction -/

/-- A call that is to abort gets to its end. -/
def Through (ws : List WsEntry) (c : Call) : Prop :=
  (ws = [] ∨ ¬Rejected c.env (submit ws) ∧ ¬Malformed ws) ∧
    ¬FinishFails c.env c.th c.options false true

/-- A call that is to abort gets to its end, or else the next one is to abort too. -/
def Keeps (ws : List WsEntry) (c d : Call) : Prop :=
  doomed c.th c.options = true → Through ws c ∨ doomed d.th d.options = true

/-- The call either returns an error or aborts, and appends nothing. -/
theorem doomed_call (ws : List WsEntry) {c : Call} (h : doomed c.th c.options = true) :
    (c.out ws).entry = none ∧ ∀ aborted, (c.out ws).ret = .ok aborted → aborted = true := by
  unfold Call.out
  by_cases hrefused : Refused c.env c.th (some (submit ws)) c.options
  · obtain ⟨pages, should, e, hcall⟩ := hrefused.call
    rw [hcall]
    exact ⟨rfl, by simp⟩
  · have hfate : fate c.env c.th (some (submit ws)) c.options = some true := by
      rw [fate, h]
      rfl
    have hnone : commits c.th (some (submit ws)) c.options = false := by simp [commits, h]
    rcases course hrefused with ⟨hfate', -⟩ | ⟨l, e, -, -, hcommits, -⟩ |
      ⟨aborted, pages, entry, commitTs, hfate', -, happ, hcommits, hcall⟩
    · simp [hfate] at hfate'
    · simp [hnone] at hcommits
    · rw [hnone, Option.isSome_eq_false_iff, Option.isNone_iff_eq_none] at hcommits
      obtain rfl := Option.some.inj (hfate.symm.trans hfate')
      rw [hcall, finish_entry]
      refine ⟨hcommits, fun a ha => ?_⟩
      obtain ⟨th₁, th₂, th₃, cpTs, -, -, -, hout⟩ := finish_ok ha
      rw [hout] at ha
      exact (Except.ok.inj ha).symm

/-- **It does not return an error if nothing stands in its way.** -/
theorem Through.returns {ws : List WsEntry} {c : Call} (hd : doomed c.th c.options = true)
    (h : Through ws c) : ¬∃ e, (c.out ws).ret = .error (.code e) := by
  obtain ⟨hws, hfinish⟩ := h
  have hrefused : ¬Refused c.env c.th (some (submit ws)) c.options := by
    rintro ⟨x, hx, hab | ⟨hne, hbad⟩⟩
    · obtain rfl := Option.some.inj hx
      simp [submit] at hab
    · obtain rfl := Option.some.inj hx
      rw [hd, if_pos rfl] at hbad
      obtain ⟨hnot, hwell⟩ := hws.resolve_left hne
      exact hbad.elim hnot hwell
  have hnone : commits c.th (some (submit ws)) c.options = false := by simp [commits, hd]
  have hfate : fate c.env c.th (some (submit ws)) c.options = some true := by
    rw [fate, hd]
    rfl
  unfold Call.out
  rcases course hrefused with ⟨-, hret⟩ | ⟨l, e, -, -, hcommits, -⟩ |
    ⟨aborted, pages, entry, commitTs, hfate', -, happ, hcommits, hcall⟩
  · simp [hret]
  · simp [hnone] at hcommits
  · obtain rfl := Option.some.inj (hfate.symm.trans hfate')
    rw [hcall, finish_failed_iff happ, hcommits, hnone]
    exact hfinish

/-! ### Whole histories -/

/-- The doom is passed on from call to call. -/
theorem doomed_chain {ws : List WsEntry} {c : Call} {post : List Call}
    (hrun : Retries ws (c :: post)) (hkept : (c :: post).IsChain (Keeps ws))
    (hd : doomed c.th c.options = true) : ∀ d ∈ c :: post, doomed d.th d.options = true := by
  induction post generalizing c with
  | nil => simpa using hd
  | cons d post ih =>
    obtain ⟨hretried, hrun⟩ := List.isChain_cons_cons.1 hrun
    obtain ⟨hkeeps, hkept⟩ := List.isChain_cons_cons.1 hkept
    have hnext : doomed d.th d.options = true := by
      rcases hkeeps hd with hthrough | hnext
      · exact absurd hretried.1 (hthrough.returns hd)
      · exact hnext
    exact List.forall_mem_cons.2 ⟨hd, ih hrun hkept hnext⟩

/-- **A doomed transaction never commits**, if every call that is to abort gets to its
end or is followed by one that is to abort too.  In every history of calls with one
write-set, from the call on that finds `should_abort` set nothing is appended to the
log, and a call that returns `0` reports an abort. -/
theorem doomed_never_commits {ws : List WsEntry} {pre post : List Call} {c : Call}
    (hrun : Retries ws (pre ++ c :: post)) (hkept : (pre ++ c :: post).IsChain (Keeps ws))
    (hdoomed : c.th.shouldAbort = true) :
    ∀ d ∈ c :: post, (∀ l, (d.out ws).entry = some l → l.aborted = true) ∧
      ∀ aborted, (d.out ws).ret = .ok aborted → aborted = true := by
  have hd : doomed c.th c.options = true := by simp [doomed, hdoomed]
  have hrun' : Retries ws (c :: post) := List.IsChain.right_of_append hrun
  intro d hmem
  have hd' := doomed_chain hrun' hkept.right_of_append hd d hmem
  obtain ⟨hentry, hret⟩ := doomed_call ws hd'
  exact ⟨by simp [hentry], hret⟩

/-- Another thread has just committed, and there is no checkpoint of it yet: direct
access is not to be had, and `should_abort` is cleared. -/
def tooEarly : Call where
  env := { alone onePage (fun _ _ => 4096) with later := [⟨false, [⟨9, 0, 0, 0, 1⟩]⟩] }
  th := { begun (fun _ _ => none) with shouldAbort := true }
  options := ⟨false, true⟩

/-- The call is made again. -/
def again (env : Env) (options : Options) : Call where
  env := env
  th := (tooEarly.out [plainWrite]).thread
  options := options

theorem retries_again (env : Env) (options : Options) :
    Retries [plainWrite] [tooEarly, again env options] := by
  have hret : (tooEarly.out [plainWrite]).ret = .error (.code .einval) := by decide
  exact List.isChain_pair.2 ⟨⟨.einval, hret⟩, rfl, rfl, rfl, rfl, rfl, id⟩

/-- The caller asks for an abort. -/
theorem doomed_never_commits_abortFlag : tooEarly.th.shouldAbort = true ∧
    ∀ d ∈ [tooEarly, again tooEarly.env ⟨true, false⟩],
      (∀ l, (d.out [plainWrite]).entry = some l → l.aborted = true) ∧
      ∀ aborted, (d.out [plainWrite]).ret = .ok aborted → aborted = true :=
  ⟨rfl, @doomed_never_commits _ [] _ _ (retries_again _ _)
    (List.isChain_pair.2 fun _ => .inr rfl) rfl⟩

/-- The caller waits until there is a checkpoint: the free that conflicted and the write
of the same transaction are committed. -/
theorem not_doomed_never_commits_waited :
    let checkpointed : Env := { alone onePage (fun _ _ => 4096) with
      earlier := [⟨false, [⟨9, 0, 0, 0, 1⟩]⟩]
      latestTs := (2 : ℕ)
      settled := some ⟨none, 2⟩
      settledTs := 2
      masterTs := 2
      startedTs := 2 }
    Retries [plainWrite] [tooEarly, again checkpointed ⟨false, true⟩] ∧
    tooEarly.th.shouldAbort = true ∧
    ((again checkpointed ⟨false, true⟩).out [plainWrite]).ret = .ok false ∧
    ((again checkpointed ⟨false, true⟩).out [plainWrite]).entry =
      some ⟨2, false, [withTag plainWrite 7 0]⟩ :=
  ⟨retries_again _ _, rfl, by decide, by decide⟩

end Update
end Sivfs
