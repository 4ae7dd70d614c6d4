/-
# Updating pages against building them

After a call of commit/update, a page that is still mapped should be the page that
`my_sivfs_update_page` would build for the new snapshot.  The pages come from the
old snapshot with the thread's own writes in them; the transaction may have
committed between those of other threads or have been aborted.

It is so unless

* the tagging loop leaves at a write beyond the end of a file: this write and those
  behind it stay in the pages, and are in the log under whatever inode number and
  offset user space wrote; or
* direct access is asked for: `sivfs_update_direct_access` removes the pages of the
  working set and takes the new snapshot without looking at the pages of older
  checkpoints.
-/

import Sivfs.Update.Workingset
import Mathlib.Data.List.Basic

namespace Sivfs
namespace Update

/-! ### The thread's own writes -/

/-- The write at its place in a file, if the thread can have made it. -/
def wrote (mm : Mm) (ent : WsEntry) : Option WsEntry :=
  match sivfsFindVma mm ent.address wordBytes true with
  | .error _ => none
  | .ok vma =>
    if ent.address % wordBytes = 0 then
      some (withTag ent vma.backingIno (vma.fileOffset ent.address))
    else none

/-- The store with the thread's writes in it. -/
def overlay (mm : Mm) (ws : List WsEntry) (st : Store) : Store :=
  (ws.filterMap (wrote mm)).foldl Store.apply st

theorem Addresses.wrote {mm : Mm} {ent : WsEntry} {vma : Vma} (h : Addresses mm ent vma) :
    wrote mm ent = some (Update.located mm ent) := by
  rw [Update.wrote, h.located, h.found]
  exact if_pos h.aligned

/-- If the write-set passes, these are the tagged entries. -/
theorem AllPass.overlay_eq {mm : Mm} {iSize : ℕ → ℕ → ℕ} {ws : List WsEntry}
    (h : AllPass mm iSize ws) (st : Store) :
    overlay mm ws st = (ws.map (located mm)).foldl Store.apply st := by
  have hws : ws.filterMap (wrote mm) = ws.map (located mm) := by
    rw [← List.filterMap_eq_map]
    refine List.filterMap_congr fun ent hent => ?_
    obtain ⟨k, hk⟩ := List.mem_iff_getElem?.1 hent
    obtain ⟨vma, ha, -⟩ := h k ent hk
    exact ha.wrote
  rw [overlay, hws]

/-- Tagged entries are word-aligned. -/
theorem AllPass.aligned {mm : Mm} {iSize : ℕ → ℕ → ℕ} {ws : List WsEntry}
    (h : AllPass mm iSize ws) : ∀ x ∈ ws.map (located mm), x.fileOffset % wordBytes = 0 := by
  rw [List.forall_mem_map]
  intro ent hent
  obtain ⟨k, hk⟩ := List.mem_iff_getElem?.1 hent
  obtain ⟨-, -, -, -, -, hmod, -⟩ := (h k ent hk).tagged
  exact hmod

/-! ### Calls -/

/-- A thread in a transaction makes a call with the write-set `ws`. -/
structure Ready (env : Env) (th : Thread) (ws : List WsEntry) (options : Options) (t : ℕ) :
    Prop where
  ts : th.ts = (t : Ts)
  snapshot : t ≤ env.earlier.length
  /-- The pages have the snapshot and the thread's writes in them. -/
  resident : Shown (overlay env.mm ws (abs (stamp 1 env.earlier) t)) th.workingset
  /-- What other threads have committed is tagged. -/
  aligned : ∀ x ∈ env.earlier ++ env.later, x.aborted = false →
    ∀ ent ∈ x.ws, ent.fileOffset % wordBytes = 0
  /-- `master_ts` does not go back. -/
  ts_le : t ≤ env.masterTs
  /-- `sivfs_commit_changes` has raised it to its own entry. -/
  entry_le : ∀ l, (commitUpdate env th (some (submit ws)) options).entry = some l →
    l.ts ≤ env.masterTs
  masterTs_le : env.masterTs ≤
    (env.logAfter (commitUpdate env th (some (submit ws)) options).entry).length

/-- If the call returns `0`, every page still mapped is that of the new snapshot, and
what `my_sivfs_update_page` builds from a correct checkpoint. -/
def Agrees (env : Env) (out : Outcome) : Prop :=
  ∀ aborted n, out.ret = .ok aborted → out.thread.ts = ((n : ℕ) : Ts) →
    ∀ ino pgoff r, out.thread.workingset ino pgoff = some r →
      IsPage (abs (env.logAfter out.entry) n) ino (pgoff * pageSize) r.words ∧
      ∀ s cp built, s.log = env.logAfter out.entry → Checkpoint.CpOk s cp →
        out.thread.checkpoint = some cp → cp.cpTs ≤ n →
        Checkpoint.updatePage s out.thread.toThread ino (pgoff * pageSize) = .ok built →
        ∀ j < 512, r.words j = built j

/-! ### The phases of a call -/

theorem allocationOnCommit_frame (env : Env) (th : Thread) (aborted : Bool) :
    (allocationOnCommit env th aborted).1.toThread = th.toThread ∧
    (allocationOnCommit env th aborted).1.checkpointTs = th.checkpointTs ∧
    (allocationOnCommit env th aborted).1.workingset = th.workingset ∧
    (allocationOnCommit env th aborted).1.directAccess = th.directAccess := by
  unfold allocationOnCommit
  split_ifs
  · split <;> exact ⟨rfl, rfl, rfl, rfl⟩
  · exact ⟨rfl, rfl, rfl, rfl⟩

theorem checkOut_frame (env : Env) (th : Thread) :
    (checkOut env th).1.ts = th.ts ∧ (checkOut env th).1.workingset = th.workingset ∧
    (checkOut env th).1.directAccess = th.directAccess ∧
    (checkOut env th).1.allocatedChunks = th.allocatedChunks ∧
    (checkOut env th).1.allocChunksToFree = th.allocChunksToFree := by
  unfold checkOut
  split_ifs <;> exact ⟨rfl, rfl, rfl, rfl, rfl⟩

/-- Leaving direct access keeps no wrong page. -/
theorem Shown.leaveDirectAccess {st : Store} {th : Thread} (h : Shown st th.workingset) :
    Shown st (leaveDirectAccess th).workingset := by
  unfold Update.leaveDirectAccess
  split_ifs
  · intro ino pgoff r hr
    simp [invalidateWorkingset] at hr
  · exact h

/-- The way to a return value of `0`. -/
theorem finish_ok {env : Env} {th : Thread} {entry : Option LogEntry} {options : Options}
    {commitTs : Ts} {aborted a : Bool}
    (h : (finish env th entry options commitTs aborted).ret = .ok a) :
    ∃ th₁ th₂ th₃ cpTs, allocationOnCommit env th aborted = (th₁, .ok ()) ∧
      checkOut env th₁ = (th₂, .ok cpTs) ∧
      takeSnapshot env (env.logAfter entry) th₂ options commitTs = (th₃, .ok ()) ∧
      finish env th entry options commitTs aborted =
        ⟨{ th₃ with priorCheckpointTs := cpTs }, entry, .ok aborted⟩ := by
  rcases halloc : allocationOnCommit env th aborted with ⟨th₁, e | ⟨⟩⟩
  · simp [finish, halloc] at h
  · rcases hcheck : checkOut env th₁ with ⟨th₂, e | cpTs⟩
    · simp [finish, halloc, hcheck] at h
    · rcases hsnap : takeSnapshot env (env.logAfter entry) th₂ options commitTs with ⟨th₃, e | ⟨⟩⟩
      · simp [finish, halloc, hcheck, hsnap] at h
      · exact ⟨th₁, th₂, th₃, cpTs, rfl, hcheck, hsnap, by
          simp only [finish, halloc, hcheck, hsnap]⟩

/-- **After the write-set is dealt with**, the rest of the call takes pages of the
snapshot to pages of the next. -/
theorem finish_shown {env : Env} {th : Thread} {entry : Option LogEntry} {options : Options}
    {commitTs : Ts} {aborted a : Bool} {t : ℕ} {S : ℕ → Store} (hdir : options.directAccess = false)
    (hts : th.ts = (t : Ts)) (hle : t ≤ env.masterTs)
    (hlen : env.masterTs ≤ (env.logAfter entry).length)
    (hS : ∀ l ∈ env.logAfter entry, t < l.ts → Follows S commitTs l)
    (hsh : Shown (S t) th.workingset)
    (h : (finish env th entry options commitTs aborted).ret = .ok a) :
    Shown (S env.masterTs) (finish env th entry options commitTs aborted).thread.workingset ∧
      (finish env th entry options commitTs aborted).thread.ts = (env.masterTs : Ts) := by
  obtain ⟨th₁, th₂, th₃, cpTs, halloc, hcheck, hsnap, hout⟩ := finish_ok h
  obtain ⟨hth, -, hws, -⟩ := allocationOnCommit_frame env th aborted
  obtain ⟨hts₂, hws₂, -⟩ := checkOut_frame env th₁
  rw [halloc] at hth hws
  rw [hcheck] at hts₂ hws₂
  rw [takeSnapshot, hdir, if_neg Bool.false_ne_true] at hsnap
  have hts₃ : (leaveDirectAccess th₂).ts = (t : Ts) := by
    rw [← hts, ← hth, ← hts₂]
    rfl
  have hsh₃ : Shown (S t) (leaveDirectAccess th₂).workingset := by
    refine Shown.leaveDirectAccess ?_
    rwa [hws₂, hws]
  have hupdate := update_shown rfl hts₃ (consecutive_stamp 1 _) hle hlen hS hsh₃ hsnap
  rw [hout]
  exact hupdate

/-! ### The write-set -/

theorem consecutive_logAfter (env : Env) (entry : Option LogEntry) :
    Consecutive 1 (env.logAfter entry) := consecutive_stamp 1 _

theorem abs_logAfter (env : Env) (entry : Option LogEntry) {t : ℕ} (ht : t ≤ env.earlier.length) :
    abs (env.logAfter entry) t = abs (stamp 1 env.earlier) t := by
  rw [Env.logAfter, List.append_assoc]
  exact abs_stamp_append _ _ ht

/-- The entry of the call is in the log. -/
theorem own_mem_logAfter (env : Env) (aborted : Bool) (ws : List WsEntry) :
    ⟨env.earlier.length + 1, aborted, ws⟩ ∈
      env.logAfter (some ⟨env.earlier.length + 1, aborted, ws⟩) := by
  rw [Env.logAfter, List.append_assoc, stamp_append, Nat.add_comm]
  exact List.mem_append_right _ List.mem_cons_self

/-- What is before it was there at the lock. -/
theorem mem_earlier_of_logAfter {env : Env} {entry : Option LogEntry} {l : LogEntry}
    (h : l ∈ env.logAfter entry) (hts : l.ts ≤ env.earlier.length) : l ∈ stamp 1 env.earlier := by
  rw [Env.logAfter, List.append_assoc, stamp_append] at h
  rcases List.mem_append.1 h with h | h
  · exact h
  · have := (mem_stamp h).1
    omega

/-- The stores of the log, when nothing or an aborted entry is skipped. -/
theorem follows_abs {log : List LogEntry} (hlog : Consecutive 1 log) {l : LogEntry} (hl : l ∈ log)
    {tsSkip : Ts} (hskip : (l.ts : Ts) = tsSkip → l.aborted = true) :
    Follows (abs log) tsSkip l := by
  unfold Follows
  split_ifs with h
  · rw [abs_of_mem hlog hl, Store.commit, if_pos (hskip h)]
  · exact abs_of_mem hlog hl

/-- The stores that the pages of a committed transaction go through: with its writes on
top until its own place in the log. -/
def ownStores (log : List LogEntry) (ws : List WsEntry) (commitTs m : ℕ) : Store :=
  if m < commitTs then ws.foldl Store.apply (abs log m) else abs log m

/-- **Skipping the own entry loses nothing**, if no commit since the snapshot shares a
word with it. -/
theorem follows_ownStores {log : List LogEntry} {ws : List WsEntry} {commitTs t : ℕ}
    (hlog : Consecutive 1 log) (hown : ⟨commitTs, false, ws⟩ ∈ log)
    (hdisj : ∀ l ∈ log, t < l.ts → l.ts < commitTs → l.aborted = false →
      ∀ x ∈ ws, ∀ ent ∈ l.ws, ¬SameWord x ent)
    {l : LogEntry} (hl : l ∈ log) (ht : t < l.ts) :
    Follows (ownStores log ws commitTs) (commitTs : Ts) l := by
  have habs := abs_of_mem hlog hl
  unfold Follows ownStores
  rcases lt_trichotomy l.ts commitTs with hlt | heq | hgt
  · have hne : (l.ts : Ts) ≠ (commitTs : Ts) := fun h => hlt.ne (WithTop.coe_injective h)
    rw [if_pos hlt, if_neg hne, if_pos (show l.ts - 1 < commitTs by omega), habs]
    exact (Store.commit_foldl_comm fun hlive => hdisj l hl ht hlt hlive).symm
  · have hown' := abs_of_mem hlog hown
    rw [if_neg (by omega), heq, if_pos rfl, if_pos (show commitTs - 1 < commitTs by omega)]
    exact hown'
  · have hne : (l.ts : Ts) ≠ (commitTs : Ts) := fun h => hgt.ne' (WithTop.coe_injective h)
    rw [if_neg (by omega), if_neg hne, if_neg (show ¬l.ts - 1 < commitTs by omega), habs]

/-- Entries with different tags write different words. -/
theorem not_sameWord {x y : WsEntry} (hx : x.fileOffset % wordBytes = 0)
    (hy : y.fileOffset % wordBytes = 0) (h : ¬(x.ino = y.ino ∧ x.fileOffset = y.fileOffset)) :
    ¬SameWord x y := by
  rintro ⟨hino, hw⟩
  refine h ⟨hino, ?_⟩
  simp only [wordBytes] at hx hy hw
  omega

/-- The thread's pages go through stores that end with the store of the log. -/
def Prepared (env : Env) (t : ℕ) (pages : Workingset) (entry : Option LogEntry) (commitTs : Ts) :
    Prop :=
  ∃ S : ℕ → Store, Shown (S t) pages ∧
    (∀ l ∈ env.logAfter entry, t < l.ts → Follows S commitTs l) ∧
    ∀ n, (∀ l, entry = some l → l.ts ≤ n) → S n = abs (env.logAfter entry) n

/-- Pages without writes of the thread. -/
theorem Prepared.of_shown {env : Env} {t : ℕ} {pages : Workingset} {entry : Option LogEntry}
    {commitTs : Ts} (ht : t ≤ env.earlier.length)
    (hsh : Shown (abs (stamp 1 env.earlier) t) pages)
    (hskip : ∀ l ∈ env.logAfter entry, (l.ts : Ts) = commitTs → l.aborted = true) :
    Prepared env t pages entry commitTs := by
  refine ⟨abs (env.logAfter entry), ?_, fun l hl _ => ?_, fun _ _ => rfl⟩
  · rwa [abs_logAfter env entry ht]
  · exact follows_abs (consecutive_logAfter env entry) hl (hskip l hl)

section Writes

variable {env : Env} {th : Thread} {ws : List WsEntry} {t : ℕ}

/-- **The pages of an aborted transaction.** -/
theorem abortWrites_prepared {W : List WsEntry} {entry : Option LogEntry} {commitTs : Ts}
    {th' : Thread} {entry' : Option LogEntry} {p : Ts × Bool} (ht : t ≤ env.earlier.length)
    (hsh : Shown (W.foldl Store.apply (abs (stamp 1 env.earlier) t)) th.workingset)
    (hskip : ∀ l ∈ env.logAfter entry, (l.ts : Ts) = commitTs → l.aborted = true)
    (h : abortWrites th W entry commitTs = (th', entry', .ok p)) :
    Prepared env t th'.workingset entry' p.1 ∧ th'.ts = th.ts := by
  unfold abortWrites at h
  rcases hinv : invalidateWorkingsetLog W th.workingset with ⟨pages, e | ⟨⟩⟩
  · simp [hinv] at h
  · simp only [hinv, Prod.mk.injEq, Except.ok.injEq] at h
    obtain ⟨rfl, rfl, rfl⟩ := h
    exact ⟨.of_shown ht (hsh.invalidate hinv) hskip, rfl⟩

/-- **The pages of a committed transaction.** -/
theorem committed_prepared {W : List WsEntry} (hW : ∀ x ∈ W, x.fileOffset % wordBytes = 0)
    (ht : t ≤ env.earlier.length)
    (haligned : ∀ x ∈ env.earlier, x.aborted = false →
      ∀ ent ∈ x.ws, ent.fileOffset % wordBytes = 0)
    (hsh : Shown (W.foldl Store.apply (abs (stamp 1 env.earlier) t)) th.workingset)
    (hval : validate env (t : Ts) W (env.earlier.length + 1) = some false) :
    Prepared env t th.workingset (some ⟨env.earlier.length + 1, false, W⟩)
      ((env.earlier.length + 1 : ℕ) : Ts) := by
  have hown := own_mem_logAfter env false W
  have hdisj : ∀ l ∈ env.logAfter (some ⟨env.earlier.length + 1, false, W⟩), t < l.ts →
      l.ts < env.earlier.length + 1 → l.aborted = false →
      ∀ x ∈ W, ∀ ent ∈ l.ws, ¬SameWord x ent := by
    intro l hl hlt hlt' hlive x hx ent hent
    have hmem := mem_earlier_of_logAfter hl (by omega)
    refine not_sameWord (hW x hx) (haligned _ (mem_stamp hmem).2.2 hlive ent hent) fun heq => ?_
    exact validate_false hval l hmem hlt hlive ⟨x, hx, ent, hent, heq⟩
  refine ⟨ownStores _ W (env.earlier.length + 1), ?_, fun l hl hlt =>
    follows_ownStores (consecutive_logAfter env _) hown hdisj hl hlt, fun n hn => ?_⟩
  · rw [ownStores, if_pos (by omega), abs_logAfter env _ ht]
    exact hsh
  · have hle : env.earlier.length + 1 ≤ n := hn _ rfl
    rw [ownStores, if_neg (by omega)]

/-- **The write-set is dealt with**: whatever becomes of it, the pages go through
stores that end with the store of the log. -/
theorem commitWrites_prepared {doomed : Bool} {th' : Thread} {entry : Option LogEntry}
    {p : Ts × Bool} (hpass : AllPass env.mm env.iSize ws) (hts : th.ts = (t : Ts))
    (ht : t ≤ env.earlier.length)
    (haligned : ∀ x ∈ env.earlier, x.aborted = false →
      ∀ ent ∈ x.ws, ent.fileOffset % wordBytes = 0)
    (hsh : Shown (overlay env.mm ws (abs (stamp 1 env.earlier) t)) th.workingset)
    (h : commitWrites env th (some (submit ws)) doomed = (th', entry, .ok p)) :
    Prepared env t th'.workingset entry p.1 ∧ th'.ts = th.ts := by
  have hnone : ∀ l ∈ env.logAfter none, (l.ts : Ts) = invalidTs → l.aborted = true :=
    fun l _ hl => absurd hl WithTop.coe_ne_top
  rw [hpass.overlay_eq] at hsh
  simp only [commitWrites, hpass.addMetadata] at h
  by_cases hempty : (submit ws).entries = []
  · rw [if_pos hempty] at h
    obtain rfl : ws = [] := hempty
    simp only [Prod.mk.injEq, Except.ok.injEq] at h
    obtain ⟨rfl, rfl, rfl⟩ := h
    exact ⟨.of_shown ht hsh hnone, rfl⟩
  · rw [if_neg hempty, commitTagged] at h
    cases doomed with
    | true => exact abortWrites_prepared ht hsh hnone h
    | false =>
      simp only [Bool.false_eq_true, if_false, commitChanges, hts] at h
      cases hlock : env.lock with
      | some e => simp [hlock] at h
      | none =>
        simp only [hlock] at h
        rcases hval : validate env (t : Ts) (ws.map (located env.mm)) (env.earlier.length + 1) with
          _ | aborted
        · simp [hval] at h
        · cases aborted with
          | false =>
            simp only [hval, Prod.mk.injEq, Except.ok.injEq] at h
            obtain ⟨rfl, rfl, rfl⟩ := h
            exact ⟨committed_prepared hpass.aligned ht haligned hsh hval, rfl⟩
          | true =>
            simp only [hval] at h
            refine abortWrites_prepared ht hsh (fun l hl hts => ?_) h
            have hown := own_mem_logAfter env true (ws.map (located env.mm))
            rw [(consecutive_logAfter env _).eq_of_ts hl hown (WithTop.coe_injective hts)]

end Writes

/-- A call that returns `0` gets past its write-set. -/
theorem commitUpdate_ok {env : Env} {th : Thread} {ws : List WsEntry} {options : Options} {a : Bool}
    (h : (commitUpdate env th (some (submit ws)) options).ret = .ok a) :
    ∃ th' entry p, commitWrites env { th with shouldAbort := false } (some (submit ws))
        (th.shouldAbort || options.abort) = (th', entry, .ok p) ∧
      commitUpdate env th (some (submit ws)) options =
        finish env th' entry options p.1 p.2 := by
  rcases hc : commitWrites env { th with shouldAbort := false } (some (submit ws))
    (th.shouldAbort || options.abort) with ⟨th', entry, e | p⟩
  · rw [commitUpdate_of_writes_error rfl hc] at h
    simp at h
  · exact ⟨th', entry, p, rfl, commitUpdate_of_writes rfl hc⟩

/-- A page of the store is what `my_sivfs_update_page` builds. -/
theorem updatePage_eq {s : Checkpoint.Shared} {cp : Checkpoint.Cp} {n ino pgoff : ℕ}
    {words built : ℕ → ℕ} (hlog : Consecutive 1 s.log) (hcp : Checkpoint.CpOk s cp)
    (hle : cp.cpTs ≤ n) (hlen : n ≤ s.log.length)
    (hpage : IsPage (abs s.log n) ino (pgoff * pageSize) words)
    (h : Checkpoint.updatePage s ⟨(n : Ts), some cp⟩ ino (pgoff * pageSize) = .ok built) :
    ∀ j < 512, words j = built j := by
  have hoff : pgoff * pageSize % pageSize = 0 := Nat.mul_mod_left _ _
  obtain ⟨built', hbuilt', hpage'⟩ := hcp.updatePage hlog hle hlen
    (Checkpoint.updatePage_inRange h hoff) hoff
  obtain rfl := Except.ok.inj (h.symm.trans hbuilt')
  exact fun j hj => (hpage j hj).trans (hpage' j hj).symm

/-- **Updating agrees with building**, if the write-set passes and direct access is not
asked for. -/
theorem agrees_of_allPass {env : Env} {th : Thread} {ws : List WsEntry} {options : Options} {t : ℕ}
    (hready : Ready env th ws options t) (hpass : AllPass env.mm env.iSize ws)
    (hdir : options.directAccess = false) :
    Agrees env (commitUpdate env th (some (submit ws)) options) := by
  intro aborted n hret hn ino pgoff r hr
  obtain ⟨th', entry, p, hwrites, hout⟩ := commitUpdate_ok hret
  have hentry : (commitUpdate env th (some (submit ws)) options).entry = entry := by
    rw [hout, finish_entry]
  have hle := hready.entry_le
  have hlen := hready.masterTs_le
  rw [hentry] at hle hlen ⊢
  have hts : ({ th with shouldAbort := false } : Thread).ts = (t : Ts) := hready.ts
  obtain ⟨⟨S, hsh, hS, hend⟩, hts'⟩ := commitWrites_prepared hpass hts hready.snapshot
    (fun x hx => hready.aligned x (List.mem_append_left _ hx)) hready.resident hwrites
  rw [hout] at hret hn hr ⊢
  obtain ⟨hshown, hmaster⟩ := finish_shown hdir (hts'.trans hready.ts) hready.ts_le hlen hS hsh hret
  obtain rfl : env.masterTs = n := WithTop.coe_injective (hmaster.symm.trans hn)
  have hpage := hshown ino pgoff r hr
  rw [hend _ hle] at hpage
  refine ⟨hpage, fun s cp built hlog hcp hcheckpoint hcpTs hbuilt => ?_⟩
  have hthread : (finish env th' entry options p.1 p.2).thread.toThread =
      ⟨(env.masterTs : Ts), some cp⟩ := by rw [← hn, ← hcheckpoint]
  rw [hthread] at hbuilt
  rw [← hlog] at hpage hlen
  exact updatePage_eq (hlog ▸ consecutive_logAfter env entry) hcp hcpTs hlen hpage hbuilt

end Update
end Sivfs
