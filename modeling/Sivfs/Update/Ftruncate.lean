/-
# Changing the size of a file

`sivfs_ftruncate` (`kern/sivfs_nontxnal_ops.c`), which `sivfs_setattr` calls with the size of
the inode.  It sets the new size, commits zeros to the first `512 * 20000` words of the file,
512 in a transaction, and sets the size back if that fails.

The range that is zeroed does not depend on the sizes, what is committed before a failure
stays committed, and where neither size is `0` the size is set back with `rc` still `0`
("This is wrong if both offset or old_size are non 0!").  `ftruncate_atomic_iff` says when
none of this is seen.

The words are those of the file as far as nobody else writes to it.
-/

import Sivfs.Update.Tagged

namespace Sivfs
namespace Update

/-! ### The function -/

/-- The words of a transaction. -/
def zeroBatch : ℕ := 512

/-- The number of transactions; `zero_range` is `512 * 20000`. -/
def zeroBatches : ℕ := 20000

/-- What a call finds. -/
structure TruncateEnv where
  /-- The result of `sivfs_get_anon_inode`: `nrpages`, and whether `checkpoint_pages` is empty. -/
  anon : Except Errno (ℕ × Bool)
  /-- There is no memory for a word in `sivfs_add_to_writeset`. -/
  full : ℕ → Bool
  /-- What the calls of `sivfs_commit_update` find. -/
  commits : ℕ → Env

/-- The size of the inode, the committed words and the `struct sivfs_state`. -/
structure TruncateState where
  size : ℕ
  store : Store
  thread : Thread

/-- `sivfs_check_nontxnal_op`: `allow_out`. -/
def checkNontxnalOp (anon : Except Errno (ℕ × Bool)) : Except Errno Bool :=
  match anon with
  | .error e => .error e
  | .ok (nrpages, checkpointPagesEmpty) =>
    if 0 < nrpages ∨ ¬checkpointPagesEmpty then .ok false else .ok true

/-- The entry for a word. -/
def zeroEntry (ino i : ℕ) : WsEntry := ⟨ino, i * wordBytes, 0, 0, 0⟩

/-- The inner loop: `n` words from `i` on are added. -/
def addZeros (full : ℕ → Bool) (ino : ℕ) : ℕ → ℕ → List WsEntry → Except Errno (List WsEntry)
  | 0, _, ws => .ok ws
  | n + 1, i, ws =>
    if full i then .error .enomem else addZeros full ino n (i + 1) (ws ++ [zeroEntry ino i])

/-- A turn of the outer loop. -/
def commitBatch (env : TruncateEnv) (ino k : ℕ) (f : TruncateState) :
    TruncateState × Except Exit Unit :=
  match addZeros env.full ino zeroBatch (zeroBatch * k) [] with
  | .error e => (f, .error (.code e))
  | .ok ws =>
    let out := commitUpdate (env.commits k) f.thread (some ⟨ws, false, true⟩) ⟨false, false⟩
    let f := { f with thread := out.thread, store := out.entry.elim f.store f.store.commit }
    match out.ret with
    | .error e => (f, .error e)
    | .ok true => (f, .error (.code .einval))
    | .ok false => (f, .ok ())

/-- The outer loop, with `n` turns to go after `k`. -/
def commitZeros (env : TruncateEnv) (ino : ℕ) :
    ℕ → ℕ → TruncateState → TruncateState × Except Exit Unit
  | 0, _, f => (f, .ok ())
  | n + 1, k, f =>
    match commitBatch env ino k f with
    | (f, .error e) => (f, .error e)
    | (f, .ok ()) => commitZeros env ino n (k + 1) f

/-- `truncate_setsize`. -/
def TruncateState.setSize (f : TruncateState) (size : ℕ) : TruncateState := { f with size := size }

/-- `sivfs_ftruncate`. -/
def ftruncate (env : TruncateEnv) (ino oldSize offset : ℕ) (f : TruncateState) :
    TruncateState × Except Exit Unit :=
  match checkNontxnalOp env.anon with
  | .error e => (f, .error (.code e))
  | .ok false => (f, .error (.code .einval))
  | .ok true =>
    if oldSize = offset then (f, .ok ())
    -- `goto error1` with `rc == 0`
    else if offset ≠ 0 ∧ oldSize ≠ 0 then ((f.setSize offset).setSize oldSize, .ok ())
    else
      match commitZeros env ino zeroBatches 0 (f.setSize offset) with
      | (f, .ok ()) => (f, .ok ())
      | (f, .error (.code e)) => (f.setSize oldSize, .error (.code e))
      | (f, .error .fault) => (f, .error .fault)

/-! ### What a commit leaves -/

/-- The call has committed. -/
def Outcome.published (out : Outcome) : Bool := out.entry.any fun l => !l.aborted

/-- What a commit reports is what its entry says. -/
theorem commitTagged_ok {env : Env} {th th' : Thread} {ws : List WsEntry} {doomed aborted : Bool}
    {entry : Option LogEntry} {commitTs : Ts}
    (h : commitTagged env th ws doomed = (th', entry, .ok (commitTs, aborted))) :
    (entry.any fun l => !l.aborted) = !aborted := by
  have habort : ∀ e ts, abortWrites th ws e ts = (th', entry, .ok (commitTs, aborted)) →
      entry = e ∧ aborted = true := by
    intro e ts h
    unfold abortWrites at h
    rcases hws : invalidateWorkingsetLog ws th.workingset with ⟨pages, err | u⟩
    · simp [hws] at h
    · simp only [hws, Prod.mk.injEq, Except.ok.injEq] at h
      exact ⟨h.2.1.symm, h.2.2.2.symm⟩
  unfold commitTagged commitChanges at h
  split_ifs at h
  · obtain ⟨rfl, rfl⟩ := habort _ _ h
    rfl
  · rcases hlock : env.lock with _ | e
    · rcases hv : validate env th.ts ws (env.earlier.length + 1) with _ | _ | _
      · simp [hlock, hv] at h
      · simp only [hlock, hv, Prod.mk.injEq, Except.ok.injEq] at h
        obtain ⟨-, rfl, -, rfl⟩ := h
        rfl
      · simp only [hlock, hv] at h
        obtain ⟨rfl, rfl⟩ := habort _ _ h
        rfl
    · simp [hlock] at h

/-- The rest of the call does not change that. -/
theorem finish_ret {env : Env} {th : Thread} {entry : Option LogEntry} {options : Options}
    {commitTs : Ts} {aborted a : Bool}
    (h : (finish env th entry options commitTs aborted).ret = .ok a) : a = aborted := by
  unfold finish at h
  split at h
  · simp at h
  · split at h
    · simp at h
    · split at h
      · simp at h
      · exact (Except.ok.inj h).symm

section Tagged

variable {env : Env} {th : Thread} {ws : List WsEntry} {options : Options}

/-- A write-set that is tagged already goes into the log as it is. -/
theorem commitUpdate_tagged_entry {l : LogEntry}
    (h : (commitUpdate env th (some ⟨ws, false, true⟩) options).entry = some l) : l.ws = ws := by
  rcases hc : commitWrites env { th with shouldAbort := false } (some ⟨ws, false, true⟩)
    (th.shouldAbort || options.abort) with ⟨th', entry, e | ⟨commitTs, aborted⟩⟩
  · rw [commitUpdate_of_writes_error rfl hc] at h
    obtain ⟨w', hw, hl⟩ := commitWrites_entry (by rw [hc]; exact h)
    obtain rfl : _ = w' := congrArg Prod.fst hw
    exact hl
  · rw [commitUpdate_of_writes rfl hc, finish_entry] at h
    obtain ⟨w', hw, hl⟩ := commitWrites_entry (by rw [hc]; exact h)
    obtain rfl : _ = w' := congrArg Prod.fst hw
    exact hl

/-- **A call that returns `0` has committed unless it says `aborted`.** -/
theorem commitUpdate_tagged_ok (hws : ws ≠ []) {aborted : Bool}
    (h : (commitUpdate env th (some ⟨ws, false, true⟩) options).ret = .ok aborted) :
    (commitUpdate env th (some ⟨ws, false, true⟩) options).published = !aborted := by
  rcases hc : commitWrites env { th with shouldAbort := false } (some ⟨ws, false, true⟩)
    (th.shouldAbort || options.abort) with ⟨th', entry, e | ⟨commitTs, a⟩⟩
  · rw [commitUpdate_of_writes_error rfl hc] at h
    simp at h
  · rw [commitUpdate_of_writes rfl hc] at h ⊢
    obtain rfl := finish_ret h
    rw [Outcome.published, finish_entry]
    have htagged : commitTagged env { th with shouldAbort := false } ws
        (th.shouldAbort || options.abort) = (th', entry, .ok (commitTs, aborted)) := by
      rw [← hc]
      simp only [commitWrites, if_neg hws]
      rfl
    exact commitTagged_ok htagged

end Tagged

/-! ### Zeros -/

/-- The first `n` words of the file are made zero. -/
def zeroed (st : Store) (ino n : ℕ) : Store := fun i w => if i = ino ∧ w < n then 0 else st i w

/-- The entries of a transaction. -/
def zeros (ino k : ℕ) : List WsEntry := (List.range' (zeroBatch * k) zeroBatch).map (zeroEntry ino)

section Zeros

variable {st : Store} {ino : ℕ}

@[simp] theorem zeroed_zero : zeroed st ino 0 = st := by
  funext i w
  simp [zeroed]

/-- Nothing changes if the words are zero before. -/
theorem zeroed_eq_iff {n : ℕ} : zeroed st ino n = st ↔ ∀ w < n, st ino w = 0 := by
  constructor
  · intro h w hw
    rw [← h, zeroed, if_pos ⟨rfl, hw⟩]
  · intro h
    funext i w
    rw [zeroed]
    split_ifs with hc
    · obtain ⟨rfl, hw⟩ := hc
      exact (h w hw).symm
    · rfl

/-- One word more. -/
theorem zeroed_apply (n : ℕ) :
    (zeroed st ino n).apply (zeroEntry ino n) = zeroed st ino (n + 1) := by
  have hword : n * wordBytes / wordBytes = n := Nat.mul_div_cancel n (by decide)
  funext i w
  simp only [Store.apply, zeroEntry, hword, zeroed]
  grind

/-- A batch of words. -/
theorem zeroed_foldl (n : ℕ) : ∀ a, ((List.range' a n).map (zeroEntry ino)).foldl Store.apply
    (zeroed st ino a) = zeroed st ino (a + n) := by
  induction n with
  | zero =>
    intro a
    rfl
  | succ n ih =>
    intro a
    rw [List.range'_succ, List.map_cons, List.foldl_cons, zeroed_apply, ih]
    congr 1
    omega

/-- **One transaction.** -/
theorem zeroed_commit (k ts : ℕ) : (zeroed st ino (zeroBatch * k)).commit ⟨ts, false, zeros ino k⟩ =
    zeroed st ino (zeroBatch * (k + 1)) := by
  rw [Nat.mul_succ, ← zeroed_foldl]
  simp only [Store.commit]
  rfl

/-- No batch is empty. -/
theorem zeros_ne_nil (k : ℕ) : zeros ino k ≠ [] := by
  simp [zeros, zeroBatch]

end Zeros

/-- The words are added, or there is no memory for one of them. -/
theorem addZeros_eq (full : ℕ → Bool) (ino n : ℕ) : ∀ i ws, addZeros full ino n i ws =
    if (List.range' i n).any full then .error .enomem
    else .ok (ws ++ (List.range' i n).map (zeroEntry ino)) := by
  induction n with
  | zero =>
    intro i ws
    simp [addZeros]
  | succ n ih =>
    intro i ws
    rw [addZeros, List.range'_succ, List.any_cons, ih]
    cases full i with
    | true => rfl
    | false => simp only [Bool.false_eq_true, if_false, Bool.false_or, List.append_assoc,
        List.singleton_append, List.map_cons]

/-! ### The transactions -/

section Batches

variable (env : TruncateEnv) (ino : ℕ) (th : Thread)

/-- The call of `sivfs_commit_update` for a transaction. -/
def TruncateEnv.reply (th : Thread) (k : ℕ) : Outcome :=
  commitUpdate (env.commits k) th (some ⟨zeros ino k, false, true⟩) ⟨false, false⟩

/-- The thread before a transaction. -/
def TruncateEnv.threadAt : ℕ → Thread
  | 0 => th
  | k + 1 => (env.reply ino (TruncateEnv.threadAt k) k).thread

/-- There is no memory for the words of a transaction. -/
def TruncateEnv.noRoom (k : ℕ) : Bool := (List.range' (zeroBatch * k) zeroBatch).any env.full

/-- How a transaction fails. -/
def TruncateEnv.failure (k : ℕ) : Option Exit :=
  if env.noRoom k then some (.code .enomem)
  else
    match (env.reply ino (env.threadAt ino th k) k).ret with
    | .error e => some e
    | .ok true => some (.code .einval)
    | .ok false => none

/-- The words that are zeroed when a transaction fails: a call of `sivfs_commit_update` may
commit and fail later. -/
def TruncateEnv.zeroedAt (k : ℕ) : ℕ :=
  if ¬env.noRoom k ∧ (env.reply ino (env.threadAt ino th k) k).published then zeroBatch * (k + 1)
  else zeroBatch * k

variable {env ino th}

/-- The committed words after a call. -/
theorem reply_store {st : Store} (k : ℕ) (th' : Thread) :
    (env.reply ino th' k).entry.elim (zeroed st ino (zeroBatch * k))
        (zeroed st ino (zeroBatch * k)).commit =
      zeroed st ino
        (if (env.reply ino th' k).published then zeroBatch * (k + 1) else zeroBatch * k) := by
  rcases hentry : (env.reply ino th' k).entry with _ | ⟨ts, aborted, ws⟩
  · simp [Outcome.published, hentry]
  · obtain rfl : ws = zeros ino k := commitUpdate_tagged_entry hentry
    cases aborted with
    | true => simp [Outcome.published, hentry, Store.commit]
    | false =>
      simp only [Outcome.published, hentry, Option.any_some, Option.elim_some,
        Bool.not_false, if_true]
      exact zeroed_commit k ts

/-- **One turn.** -/
theorem commitBatch_eq {st : Store} {k : ℕ} {f : TruncateState}
    (hth : f.thread = env.threadAt ino th k)
    (hst : f.store = zeroed st ino (zeroBatch * k)) :
    match env.failure ino th k with
    | none => commitBatch env ino k f =
        (⟨f.size, zeroed st ino (zeroBatch * (k + 1)), env.threadAt ino th (k + 1)⟩, .ok ())
    | some e => (commitBatch env ino k f).2 = .error e ∧ (commitBatch env ino k f).1.size = f.size ∧
        (commitBatch env ino k f).1.store = zeroed st ino (env.zeroedAt ino th k) := by
  have hstore := @reply_store env ino st k (env.threadAt ino th k)
  rw [← hst] at hstore
  by_cases hroom : env.noRoom k = true
  · have hadd : addZeros env.full ino zeroBatch (zeroBatch * k) [] = .error .enomem :=
      (addZeros_eq _ _ _ _ _).trans (if_pos hroom)
    simp only [TruncateEnv.failure, TruncateEnv.zeroedAt, commitBatch, hadd, if_pos hroom]
    exact ⟨trivial, trivial, by simp [hroom, hst]⟩
  · have hadd : addZeros env.full ino zeroBatch (zeroBatch * k) [] = .ok (zeros ino k) :=
      (addZeros_eq _ _ _ _ _).trans (if_neg hroom)
    have hok := @commitUpdate_tagged_ok (env.commits k) (env.threadAt ino th k) (zeros ino k)
      ⟨false, false⟩ (zeros_ne_nil k)
    have hout : commitUpdate (env.commits k) f.thread (some ⟨zeros ino k, false, true⟩)
        ⟨false, false⟩ = env.reply ino (env.threadAt ino th k) k := by
      rw [hth]
      rfl
    simp only [TruncateEnv.failure, TruncateEnv.zeroedAt, commitBatch, hadd, hout, if_neg hroom]
    have hroom' : env.noRoom k = false := by simpa using hroom
    rcases hret : (env.reply ino (env.threadAt ino th k) k).ret with e | _ | _
    · simp only [hroom']
      exact ⟨trivial, trivial, by simpa using hstore⟩
    · have hpub : (env.reply ino (env.threadAt ino th k) k).published = true := hok hret
      rw [hpub, if_pos rfl] at hstore
      simp only [hstore]
      rfl
    · simp only [hroom']
      exact ⟨trivial, trivial, by simpa using hstore⟩

/-- **The loop** goes through, or stops at the first transaction that fails. -/
theorem commitZeros_cases {st : Store} (n : ℕ) : ∀ {k : ℕ} {f : TruncateState},
    f.thread = env.threadAt ino th k → f.store = zeroed st ino (zeroBatch * k) →
    (commitZeros env ino n k f).1.size = f.size ∧
      ((∀ j, k ≤ j → j < k + n → env.failure ino th j = none) ∧
        (commitZeros env ino n k f).2 = .ok () ∧
        (commitZeros env ino n k f).1.store = zeroed st ino (zeroBatch * (k + n)) ∨
      ∃ m e, (k ≤ m ∧ m < k + n ∧ ∀ j, k ≤ j → j < m → env.failure ino th j = none) ∧
        env.failure ino th m = some e ∧ (commitZeros env ino n k f).2 = .error e ∧
        (commitZeros env ino n k f).1.store = zeroed st ino (env.zeroedAt ino th m)) := by
  induction n with
  | zero =>
    intro k f _ hst
    exact ⟨rfl, .inl ⟨fun j h₁ h₂ => absurd h₂ (by omega), rfl, hst⟩⟩
  | succ n ih =>
    intro k f hth hst
    have hturn := commitBatch_eq hth hst
    rcases hfail : env.failure ino th k with _ | e
    · simp only [hfail] at hturn
      obtain ⟨hsize, hrest⟩ := ih (k := k + 1)
        (f := ⟨f.size, zeroed st ino (zeroBatch * (k + 1)), env.threadAt ino th (k + 1)⟩) rfl rfl
      rw [commitZeros, hturn]
      refine ⟨hsize, ?_⟩
      have hfirst : ∀ j, k ≤ j → (k + 1 ≤ j → env.failure ino th j = none) →
          env.failure ino th j = none := by
        intro j hj h
        rcases Nat.eq_or_lt_of_le hj with rfl | hlt
        · exact hfail
        · exact h hlt
      rw [show k + (n + 1) = k + 1 + n by omega]
      obtain ⟨hnone, hres⟩ | ⟨m, e, ⟨hm, hmn, hnone⟩, hres⟩ := hrest
      · exact .inl ⟨fun j h₁ h₂ => hfirst j h₁ fun h => hnone j h h₂, hres⟩
      · exact .inr ⟨m, e, ⟨by omega, hmn, fun j h₁ h₂ => hfirst j h₁ fun h => hnone j h h₂⟩, hres⟩
    · simp only [hfail] at hturn
      obtain ⟨hret, hsize, hstore⟩ := hturn
      rw [commitZeros]
      rcases hb : commitBatch env ino k f with ⟨g, e' | u⟩
      · rw [hb] at hret hsize hstore
        obtain rfl : e' = e := Except.error.inj hret
        exact ⟨hsize, .inr ⟨k, e', ⟨le_rfl, by omega, fun j h₁ h₂ => absurd h₂ (by omega)⟩, hfail,
          rfl, hstore⟩⟩
      · rw [hb] at hret
        exact absurd hret (by simp)

end Batches

/-! ### Atomicity -/

/-- What a call should leave behind: the new size, and zeros between the sizes; or all as it
was. -/
def Atomic (ino offset : ℕ) (f f' : TruncateState) : Except Exit Unit → Prop
  | .ok () => f'.size = offset ∧ ∀ w,
      (min f.size offset ≤ w * wordBytes → w * wordBytes < max f.size offset →
        f'.store ino w = 0) ∧
      (w * wordBytes < min f.size offset → f'.store ino w = f.store ino w)
  | .error (.code _) => f'.size = f.size ∧ f'.store = f.store
  -- the call does not return
  | .error .fault => True

/-- The call is refused; or the file is emptied or was empty, the zeros reach to the larger of
the sizes or the rest is zero before, and the words that are zeroed before a transaction fails
are zero before. -/
def TruncatesWell (env : TruncateEnv) (ino offset : ℕ) (f : TruncateState) : Prop :=
  checkNontxnalOp env.anon ≠ .ok true ∨
    (f.size = 0 ∨ offset = 0) ∧
      ((∀ j < zeroBatches, env.failure ino f.thread j = none) →
        ∀ w, zeroBatch * zeroBatches ≤ w → w * wordBytes < max f.size offset → f.store ino w = 0) ∧
      ∀ k < zeroBatches, (∀ j < k, env.failure ino f.thread j = none) →
        ∀ e, env.failure ino f.thread k = some (.code e) →
          ∀ w < env.zeroedAt ino f.thread k, f.store ino w = 0

/-- **When `sivfs_ftruncate` is correct and atomic.** -/
theorem ftruncate_atomic_iff (env : TruncateEnv) (ino offset : ℕ) (f : TruncateState)
    (hne : f.size ≠ offset) :
    Atomic ino offset f (ftruncate env ino f.size offset f).1
      (ftruncate env ino f.size offset f).2 ↔
      TruncatesWell env ino offset f := by
  rw [TruncatesWell, ftruncate]
  rcases checkNontxnalOp env.anon with e | _ | _
  · exact iff_of_true ⟨rfl, rfl⟩ (.inl (by simp))
  · exact iff_of_true ⟨rfl, rfl⟩ (.inl (by simp))
  simp only [if_neg hne, ne_eq, not_true, false_or]
  by_cases hboth : offset ≠ 0 ∧ f.size ≠ 0
  · -- the size is the old one, and the call returns 0
    rw [if_pos hboth]
    refine iff_of_false (fun h => hne h.1) fun h => ?_
    exact h.1.elim hboth.2 hboth.1
  · rw [if_neg hboth]
    have hzero : f.size = 0 ∨ offset = 0 := by
      by_contra h
      exact hboth ⟨fun h₀ => h (.inr h₀), fun h₀ => h (.inl h₀)⟩
    have hmin : min f.size offset = 0 := by omega
    have hstart : (f.setSize offset).store = zeroed f.store ino (zeroBatch * 0) := by
      simp [TruncateState.setSize]
    obtain ⟨hsize, hres⟩ :=
      @commitZeros_cases env ino f.thread f.store zeroBatches 0 (f.setSize offset)
      rfl hstart
    rcases hloop : commitZeros env ino zeroBatches 0 (f.setSize offset) with ⟨g, ret⟩
    rw [hloop] at hsize hres
    obtain ⟨hgo, hret, hstore⟩ | ⟨m, e, ⟨-, hm, hgo⟩, hfail, hret, hstore⟩ := hres
    · obtain rfl : ret = .ok () := hret
      have hgo' : ∀ j < zeroBatches, env.failure ino f.thread j = none := fun j hj =>
        hgo j (Nat.zero_le j) (by omega)
      have hstore : g.store = zeroed f.store ino (zeroBatch * zeroBatches) := by simpa using hstore
      constructor
      · rintro ⟨-, h⟩
        refine ⟨hzero, fun _ w hw hlt => ?_,
          fun k hk _ e hfail => absurd hfail (by simp [hgo' k hk])⟩
        have hword : g.store ino w = 0 := (h w).1 (by rw [hmin]; exact Nat.zero_le _) hlt
        rwa [hstore, zeroed, if_neg fun hc => absurd hc.2 (not_lt.2 hw)] at hword
      · rintro ⟨-, h, -⟩
        refine ⟨hsize, fun w => ⟨fun _ hlt => ?_, fun hlt => ?_⟩⟩
        · show g.store ino w = 0
          rw [hstore, zeroed]
          split_ifs with hc
          · rfl
          · exact h hgo' w (not_lt.1 fun hlt => hc ⟨rfl, hlt⟩) hlt
        · rw [hmin] at hlt
          exact absurd hlt (Nat.not_lt_zero _)
    · obtain rfl : ret = .error e := hret
      have hstore : g.store = zeroed f.store ino (env.zeroedAt ino f.thread m) := hstore
      have hm : m < zeroBatches := by omega
      have hall : ¬∀ j < zeroBatches, env.failure ino f.thread j = none := fun h =>
        absurd (h m hm) (by simp [hfail])
      -- only one transaction is the first that fails
      have honly : ∀ k, (∀ j < k, env.failure ino f.thread j = none) →
          ∀ e', env.failure ino f.thread k = some e' → k = m := by
        intro k hk e' he'
        rcases lt_trichotomy k m with hlt | heq | hgt
        · exact absurd (hgo k (Nat.zero_le k) hlt) (by simp [he'])
        · exact heq
        · exact absurd (hk m hgt) (by simp [hfail])
      cases e with
      | code e =>
        constructor
        · rintro ⟨-, h⟩
          have hst : zeroed f.store ino (env.zeroedAt ino f.thread m) = f.store :=
            hstore.symm.trans h
          refine ⟨hzero, fun h => absurd h hall, fun k _ hk e' he' => ?_⟩
          obtain rfl := honly k hk _ he'
          exact zeroed_eq_iff.1 hst
        · rintro ⟨-, -, h⟩
          refine ⟨rfl, hstore.trans (zeroed_eq_iff.2 ?_)⟩
          exact h m hm (fun j hj => hgo j (Nat.zero_le j) hj) e hfail
      | fault =>
        refine iff_of_true trivial ⟨hzero, fun h => absurd h hall, fun k _ hk e' he' => ?_⟩
        obtain rfl := honly k hk _ he'
        exact absurd (hfail.symm.trans he') (by simp)

/-- A file of two words, and a caller with no pages. -/
def twoWords : TruncateState := ⟨16, fun _ _ => 7, begun fun _ _ => none⟩

/-- A signal comes while the first transaction waits for the commit lock. -/
def signalled : TruncateEnv :=
  ⟨.ok (0, true), fun _ => false,
    fun _ => { alone onePage (fun _ _ => 4096) with lock := some .eintr }⟩

/-- The second batch is interrupted. -/
theorem signalled_reply (k : ℕ) (pages : Workingset) :
    signalled.reply 1 (begun pages) k = ⟨begun pages, none, .error (.code .eintr)⟩ := by
  refine commitUpdate_of_writes_error rfl ?_
  simp only [commitWrites, if_neg (zeros_ne_nil k)]
  rfl

/-- Its write-set has room. -/
theorem signalled_noRoom (k : ℕ) : signalled.noRoom k = false := by
  simp [TruncateEnv.noRoom, signalled]

/-- The file keeps its size and its words. -/
theorem ftruncate_atomic_iff_signalled : twoWords.size ≠ 0 ∧
    Atomic 1 0 twoWords (ftruncate signalled 1 twoWords.size 0 twoWords).1
      (ftruncate signalled 1 twoWords.size 0 twoWords).2 := by
  have hfail : signalled.failure 1 twoWords.thread 0 = some (.code .eintr) := by
    rw [TruncateEnv.failure, signalled_noRoom, TruncateEnv.threadAt, twoWords, signalled_reply]
    rfl
  have hzeroed : signalled.zeroedAt 1 twoWords.thread 0 = 0 := by
    rw [TruncateEnv.zeroedAt, signalled_noRoom, TruncateEnv.threadAt, twoWords, signalled_reply]
    rfl
  have hwell : TruncatesWell signalled 1 0 twoWords := by
    refine .inr ⟨.inr rfl, fun h => ?_, fun k _ hk e he w hw => ?_⟩
    · exact absurd (h 0 (Nat.zero_lt_succ _)) (by simp [hfail])
    · rcases Nat.eq_zero_or_pos k with rfl | hpos
      · rw [hzeroed] at hw
        exact absurd hw (Nat.not_lt_zero w)
      · exact absurd (hk 0 hpos) (by simp [hfail])
  have hne : twoWords.size ≠ 0 := by decide
  refine ⟨hne, ?_⟩
  rw [ftruncate_atomic_iff signalled 1 0 twoWords hne]
  exact hwell

/-- From two words to four: the call returns `0`, and the file still has two. -/
theorem not_atomic_nonempty : twoWords.size ≠ 32 ∧
    (ftruncate signalled 1 twoWords.size 32 twoWords).2 = .ok () ∧
    (ftruncate signalled 1 twoWords.size 32 twoWords).1.size = 16 ∧
    ¬Atomic 1 32 twoWords (ftruncate signalled 1 twoWords.size 32 twoWords).1
      (ftruncate signalled 1 twoWords.size 32 twoWords).2 := by
  have hcall : ftruncate signalled 1 twoWords.size 32 twoWords = (twoWords, .ok ()) := by
    have hne : twoWords.size ≠ 32 := by decide
    have hboth : (32 : ℕ) ≠ 0 ∧ twoWords.size ≠ 0 := by decide
    simp only [ftruncate, signalled, checkNontxnalOp, if_neg hne, if_pos hboth]
    rfl
  rw [hcall]
  refine ⟨by decide, rfl, rfl, fun h => ?_⟩
  exact absurd h.1 (by decide)

end Update
end Sivfs
