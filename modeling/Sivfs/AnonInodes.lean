/-
# Anon inodes

The anon inodes of a thread's working set: `sivfs_get_anon_inode`, `sivfs_put_anon_inode`
(`kern/sivfs_workingset.c`), `sivfs_anon_open` (`kern/inode.c`), and the guard of the
operations outside transactions, `sivfs_check_nontxnal_op` (`kern/sivfs_nontxnal_ops.c`).

An anon inode is created by `d_select_inode` before it is opened, with the refcount
`SIVFS_UNREFERENCED`; the first counted reference makes it 1.  The guard gets and puts such
a reference only to look at the pages, which is without effect exactly if the inode has been
opened.

The calls of one thread are steps of a machine whose labels say how each call into the kernel
ends.  `refs` is the history: the counted references that have been handed out and not put.
-/

import Sivfs.Lib.Call
import Sivfs.Lib.KeyTree
import Sivfs.Lib.Machine
import Mathlib.Data.Int.Notation

namespace Sivfs
namespace AnonInodes

open Call

/-- `SIVFS_UNREFERENCED`. -/
def unreferenced : ℤ := -1000

/-- `SIVFS_IINFO_MAX_REFCOUNT`. -/
def iinfoMaxRefcount : ℤ := 100

/-- `SIVFS_CREATE`. -/
def create : ℕ := 2

/-- `SIVFS_SKIP_REFCOUNT`. -/
def skipRefcount : ℕ := 4

def eperm : ℤ := 1
def eexist : ℤ := 17
def einval : ℤ := 22

/-- An anon inode that is in the trees, with its `sivfs_inode_info`. -/
structure AnonInode where
  refcount : ℤ
  /-- `i_mapping->nrpages`. -/
  nrpages : ℕ
  /-- The pages in `checkpoint_pages`. -/
  checkpointPages : List ℕ
  deriving DecidableEq

/-- `struct sivfs_workingset`; an entry of `anonDentries` is the number of the backing inode
whose anon inode is the `d_inode` of the dentry. -/
structure Workingset where
  anonInodes : KeyTree ℕ AnonInode
  anonDentries : KeyTree ℕ ℕ
  deriving DecidableEq

/-- How a call fails. -/
inductive Failure where
  /-- It returns this error code; 0 if it takes an error path without one. -/
  | rc (code : ℤ)
  /-- A pointer without a value is dereferenced. -/
  | badPointer
  deriving DecidableEq

/-- The value of a variable of type `struct dentry*`. -/
inductive DentryPtr where
  | uninitialized
  | null
  | dentry (ino : ℕ)
  deriving DecidableEq

/-! ### The code -/

/-- How the calls of `_sivfs_get_anon_inode` end: their return codes, whether the new inode
has an `sivfs_inode_info`, and whether `sivfs_commit_update` aborts. -/
structure Creation where
  getTaskState : ℤ
  createAnonInode : ℤ
  hasIinfo : Bool
  insertInode : ℤ
  createAnonDentry : ℤ
  insertDentry : ℤ
  commitUpdate : ℤ
  aborted : Bool

/-- Every call succeeds. -/
def Creation.ok : Creation := ⟨0, 0, true, 0, 0, 0, 0, false⟩

/-- A call with the return code `rc`. -/
def call (rc : ℤ) : Call Workingset Failure Unit := require (rc = 0) (.rc rc)

/-- `radix_tree_insert`, if it does not fail with `rc`. -/
def insertAnonInode (rc : ℤ) (ino : ℕ) (inode : AnonInode) : Call Workingset Failure Unit := do
  let ws ← get
  require ((ws.anonInodes.lookup ino).isNone) (.rc (-eexist))
  call rc
  modify fun ws => { ws with anonInodes := ws.anonInodes.insert ino inode }

/-- `radix_tree_insert`, if it does not fail with `rc`. -/
def insertAnonDentry (rc : ℤ) (ino : ℕ) : Call Workingset Failure Unit := do
  let ws ← get
  require ((ws.anonDentries.lookup ino).isNone) (.rc (-eexist))
  call rc
  modify fun ws => { ws with anonDentries := ws.anonDentries.insert ino ino }

/-- `_sivfs_get_anon_inode`: the value that it stores, or the failure after which it stores
none. -/
def getNewAnonInode (env : Creation) (ino flags : ℕ) : Call Workingset Failure DentryPtr := do
  -- Its own `anon_dentry` has no value yet.
  if flags &&& create = 0 then pure .uninitialized
  else do
    call env.getTaskState
    call env.createAnonInode
    require env.hasIinfo (.rc (-einval))
    let ws ← get
    insertAnonInode env.insertInode ino
      ⟨if flags &&& skipRefcount = 0 then 0 else unreferenced, 0, []⟩
    onError (do
      call env.createAnonDentry
      insertAnonDentry env.insertDentry ino
      onError (if ws.anonInodes.isEmpty then do
          call env.commitUpdate
          -- `goto error5` with `rc == 0`.
          require (env.aborted = false) (.rc 0)
        else pure ())
        fun ws => { ws with anonDentries := ws.anonDentries.delete ino })
      fun ws => { ws with anonInodes := ws.anonInodes.delete ino }
    pure (.dentry ino)

/-- The refcount after `sivfs_iinfo_refct_inc`, or the first open of an unreferenced inode;
`none` if there are too many references. -/
def countReference (refcount : ℤ) : Option ℤ :=
  if refcount = unreferenced then some 1
  else if refcount = iinfoMaxRefcount then none
  else if refcount < 0 ∨ iinfoMaxRefcount < refcount then none
  else some (refcount + 1)

/-- The anon inode of `ino` with another refcount. -/
def Workingset.setRefcount (ws : Workingset) (ino : ℕ) (refcount : ℤ) : Workingset :=
  { ws with
    anonInodes := ws.anonInodes.modify ino fun inode => { inode with refcount := refcount } }

/-- The refcount of the anon inode of `ino` goes up by a counted reference. -/
def takeReference (ino : ℕ) (inode : AnonInode) : Call Workingset Failure Unit :=
  match countReference inode.refcount with
  | none => fail (.rc (-einval))
  | some refcount => modify fun ws => ws.setRefcount ino refcount

/-- The `d_inode` of a dentry. -/
def dInode : DentryPtr → Call Workingset Failure AnonInode
  | .dentry ino => do
    let ws ← get
    match ws.anonInodes.lookup ino with
    | some inode => pure inode
    | none => fail .badPointer
  | _ => fail .badPointer

/-- After an error path without an error code the caller goes on, with the NULL of its lookup. -/
def orNull (m : Call Workingset Failure DentryPtr) : Call Workingset Failure DentryPtr := fun ws =>
  match m ws with
  | (.ok dentry, ws') => (.ok dentry, ws')
  | (.error e, ws') => if e = .rc 0 then (.ok .null, ws') else (.error e, ws')

/-- `sivfs_get_anon_inode`: the value of `*dentry_out`. -/
def getAnonInode (env : Creation) (ino flags : ℕ) : Call Workingset Failure DentryPtr := do
  let ws ← get
  match ws.anonDentries.lookup ino with
  | some dentry => do
    if flags &&& skipRefcount = 0 then do
      let inode ← dInode (.dentry dentry)
      takeReference dentry inode
    pure (.dentry dentry)
  | none => orNull (getNewAnonInode env ino flags)

/-- `sivfs_put_anon_inode`. -/
def putAnonInode (ino : ℕ) (ws : Workingset) : Workingset :=
  match ws.anonInodes.lookup ino with
  | none => ws
  | some inode =>
    if inode.refcount = unreferenced ∨ inode.refcount = 1 then
      { anonInodes := ws.anonInodes.delete ino, anonDentries := ws.anonDentries.delete ino }
    else if inode.refcount < 1 then ws
    else ws.setRefcount ino (inode.refcount - 1)

/-- How the calls of `sivfs_anon_open` end, and whether the inode has lost its
`sivfs_inode_info`. -/
structure Opening where
  newFinfo : ℤ
  openDirectAccess : ℤ
  hasState : Bool
  stale : Bool

/-- `sivfs_anon_open` of the anon inode of `ino`: whether a reference was counted. -/
def anonOpen (env : Opening) (ino : ℕ) : Call Workingset Failure Bool := do
  call env.newFinfo
  call env.openDirectAccess
  require env.hasState (.rc (-eperm))
  let ws ← get
  match if env.stale then none else ws.anonInodes.lookup ino with
  -- `goto error2` with `rc == 0`.
  | none => pure false
  | some inode => do
    takeReference ino inode
    pure true

/-- `sivfs_check_nontxnal_op`: the value of `*allow_out`. -/
def checkNontxnalOp (env : Creation) (ino : ℕ) : Call Workingset Failure Bool := do
  let dentry ← getAnonInode env ino 0
  let inode ← dInode dentry
  let allow := !(decide (0 < inode.nrpages) || !inode.checkpointPages.isEmpty)
  modify (putAnonInode ino)
  pure allow

/-! ### The machine -/

/-- The working set and the counted references. -/
structure System where
  ws : Workingset
  refs : ℕ → ℕ

/-- A call.  `pages` is a fault or an eviction. -/
inductive Act where
  | get (env : Creation) (ino flags : ℕ)
  | openAnon (env : Opening) (ino : ℕ)
  | put (ino : ℕ)
  | pages (ino nrpages : ℕ) (checkpointPages : List ℕ)

namespace System

variable (s : System) (ino : ℕ)

/-- One more reference to the anon inode of `ino`. -/
def counted (ws : Workingset) : System := ⟨ws, Function.update s.refs ino (s.refs ino + 1)⟩

/-- A reference is handed out with the dentry. -/
def get (env : Creation) (flags : ℕ) : System :=
  (getAnonInode env ino flags).run
    (fun dentry ws => if flags &&& skipRefcount = 0 ∧ dentry = .dentry ino then s.counted ino ws
      else ⟨ws, s.refs⟩)
    (fun _ ws => ⟨ws, s.refs⟩) s.ws

/-- A file is opened through its anon inode. -/
def openAnon (env : Opening) : System :=
  (anonOpen env ino).run (fun counted ws => if counted then s.counted ino ws else ⟨ws, s.refs⟩)
    (fun _ ws => ⟨ws, s.refs⟩) s.ws

/-- The references to an inode that is freed are gone. -/
def put : System :=
  let ws := putAnonInode ino s.ws
  ⟨ws, Function.update s.refs ino
    (if (ws.anonInodes.lookup ino).isNone then 0 else s.refs ino - 1)⟩

end System

/-- One call. -/
def step (s : System) : Act → System
  | .get env ino flags => s.get ino env flags
  | .openAnon env ino => s.openAnon ino env
  | .put ino => s.put ino
  | .pages ino nrpages checkpointPages => { s with ws := { s.ws with
      anonInodes := s.ws.anonInodes.modify ino fun inode =>
        { inode with nrpages := nrpages, checkpointPages := checkpointPages } } }

/-- An empty working set. -/
def initial : System := ⟨⟨[], []⟩, fun _ => 0⟩

/-- The calls of a thread, in any order. -/
def calls : Machine System Act where
  init s := s = initial
  step s a := some (step s a)

variable {s : System} {ws ws' : Workingset} {ino k flags : ℕ} {inode : AnonInode}
  {env : Creation}

/-! ### What the calls do -/

namespace Workingset

/-- The refcount is what it is set to. -/
theorem setRefcount_self {refcount : ℤ} : (ws.setRefcount ino refcount).anonInodes.lookup ino =
    (ws.anonInodes.lookup ino).map fun inode => { inode with refcount := refcount } := by
  rw [setRefcount, KeyTree.lookup_modify_self]

/-- The other anon inodes keep theirs. -/
theorem setRefcount_of_ne {refcount : ℤ} (h : k ≠ ino) :
    (ws.setRefcount ino refcount).anonInodes.lookup k = ws.anonInodes.lookup k := by
  rw [setRefcount, KeyTree.lookup_modify_of_ne _ h]

/-- Every anon inode has its dentry. -/
def Synced (ws : Workingset) : Prop := ∀ ino, ws.anonDentries.lookup ino =
  (ws.anonInodes.lookup ino).map fun _ => ino

/-- A thread has resident pages of the file. -/
def resident (ws : Workingset) (ino : ℕ) : Bool :=
  (ws.anonInodes.lookup ino).any fun inode =>
    decide (0 < inode.nrpages) || !inode.checkpointPages.isEmpty

end Workingset

open Workingset

/-- The last reference frees the anon inode, and so does a put of one that has none. -/
theorem putAnonInode_of_freed (hl : ws.anonInodes.lookup ino = some inode)
    (h : inode.refcount = unreferenced ∨ inode.refcount = 1) : putAnonInode ino ws =
      { anonInodes := ws.anonInodes.delete ino, anonDentries := ws.anonDentries.delete ino } := by
  rw [putAnonInode, hl]
  exact if_pos h

/-- Any other put takes one off. -/
theorem putAnonInode_of_kept (hl : ws.anonInodes.lookup ino = some inode)
    (h : 1 < inode.refcount) : putAnonInode ino ws = ws.setRefcount ino (inode.refcount - 1) := by
  have hno : ¬(inode.refcount = unreferenced ∨ inode.refcount = 1) := by
    rw [unreferenced]
    omega
  rw [putAnonInode, hl]
  dsimp only
  rw [if_neg hno, if_neg (by omega)]

/-- A reference that is put without being counted. -/
theorem putAnonInode_of_zero (hl : ws.anonInodes.lookup ino = some inode)
    (h : inode.refcount = 0) : putAnonInode ino ws = ws := by
  rw [putAnonInode, hl]
  simp [h, unreferenced]

/-- A put of nothing does nothing. -/
theorem putAnonInode_of_none (hl : ws.anonInodes.lookup ino = none) : putAnonInode ino ws = ws := by
  rw [putAnonInode, hl]

/-- An error of 0 gives the null pointer. -/
theorem wp_orNull {m : Call Workingset Failure DentryPtr} {Q : DentryPtr → Workingset → Prop}
    {E : Failure → Workingset → Prop} : (orNull m).wp Q E ws ↔
      m.wp Q (fun e ws' => if e = .rc 0 then Q .null ws' else E e ws') ws := by
  rw [wp, wp, orNull]
  rcases m ws with ⟨e | dentry, ws'⟩
  · by_cases he : e = .rc 0 <;> simp [he]
  · rfl

/-- An anon inode that is there gets one more reference, if it can. -/
theorem getAnonInode_of_some (h : ws.Synced) (hl : ws.anonInodes.lookup ino = some inode) :
    getAnonInode env ino flags ws =
      if flags &&& skipRefcount = 0 then
        match countReference inode.refcount with
        | none => (.error (.rc (-einval)), ws)
        | some refcount => (.ok (.dentry ino), ws.setRefcount ino refcount)
      else (.ok (.dentry ino), ws) := by
  have hd : ws.anonDentries.lookup ino = some ino := by rw [h ino, hl]; rfl
  by_cases hskip : flags &&& skipRefcount = 0
  · cases hc : countReference inode.refcount <;>
      simp [getAnonInode, bind_apply, Call.get, hd, hskip, dInode, hl, takeReference, hc, fail,
        Call.modify]
  · simp [getAnonInode, bind_apply, Call.get, hd, hskip]

/-- Without an anon inode, a call that may not create one has no value to return. -/
theorem getAnonInode_of_none (h : ws.Synced) (hl : ws.anonInodes.lookup ino = none)
    (hflags : flags &&& create = 0) :
    getAnonInode env ino flags ws = (.ok .uninitialized, ws) := by
  have hd : ws.anonDentries.lookup ino = none := by rw [h ino, hl]; rfl
  have hget : (get : Call Workingset Failure Workingset) ws = (.ok ws, ws) := rfl
  rw [getAnonInode, bind_apply, hget]
  simp only [hd, getNewAnonInode, if_pos hflags, orNull]
  rfl

/-- The working set with a new anon inode. -/
def Workingset.create (ws : Workingset) (ino flags : ℕ) : Workingset where
  anonInodes := ws.anonInodes.insert ino
    ⟨if flags &&& skipRefcount = 0 then 0 else unreferenced, 0, []⟩
  anonDentries := ws.anonDentries.insert ino ino

/-- **A creation is undone if it fails.** -/
theorem wp_getNewAnonInode (h : ws.Synced) (hl : ws.anonInodes.lookup ino = none)
    (hflags : flags &&& create ≠ 0) : (getNewAnonInode env ino flags).wp
      (fun dentry ws' => dentry = .dentry ino ∧ ws' = ws.create ino flags) (fun _ ws' => ws' = ws)
      ws := by
  have hd : ws.anonDentries.lookup ino = none := by rw [h ino, hl]; rfl
  have hinodes (inode : AnonInode) : (ws.anonInodes.insert ino inode).delete ino = ws.anonInodes :=
    KeyTree.delete_insert ws.anonInodes hl
  have hdentries : (ws.anonDentries.insert ino ino).delete ino = ws.anonDentries :=
    KeyTree.delete_insert ws.anonDentries hd
  rw [getNewAnonInode, if_neg hflags]
  simp only [call, insertAnonInode, insertAnonDentry, wp_bind, wp_require, wp_get, wp_modify,
    wp_onError, hl, hd, hinodes, Option.isNone_none, not_true_eq_false, true_imp_iff,
    implies_true, and_true]
  intro _ _ _ _ _ _
  by_cases hempty : ws.anonInodes.isEmpty = true
  · simp only [if_pos hempty, wp_bind, wp_require, wp_pure, hinodes, hdentries,
      implies_true, and_true]
    exact fun _ _ => ⟨trivial, rfl⟩
  · rw [if_neg hempty]
    exact ⟨rfl, rfl⟩

/-- **What `sivfs_get_anon_inode` does**: nothing, one more reference, or a new anon inode. -/
theorem wp_getAnonInode (h : ws.Synced) : (getAnonInode env ino flags).wp
    (fun dentry ws' => ws' = ws ∧ (dentry = .dentry ino → flags &&& skipRefcount ≠ 0) ∨
      dentry = .dentry ino ∧ (flags &&& skipRefcount = 0 ∧ (∃ inode refcount,
        ws.anonInodes.lookup ino = some inode ∧ countReference inode.refcount = some refcount ∧
          ws' = ws.setRefcount ino refcount) ∨
        ws.anonInodes.lookup ino = none ∧ ws' = ws.create ino flags))
    (fun _ ws' => ws' = ws) ws := by
  cases hl : ws.anonInodes.lookup ino with
  | some inode =>
    rw [wp, getAnonInode_of_some h hl]
    split_ifs with hskip
    · cases hc : countReference inode.refcount with
      | none => rfl
      | some refcount => exact .inr ⟨rfl, .inl ⟨hskip, inode, refcount, rfl, hc, rfl⟩⟩
    · exact .inl ⟨rfl, fun _ => hskip⟩
  | none =>
    by_cases hflags : flags &&& create = 0
    · rw [wp, getAnonInode_of_none h hl hflags]
      exact .inl ⟨rfl, fun hno => absurd hno (by simp)⟩
    · have hd : ws.anonDentries.lookup ino = none := by rw [h ino, hl]; rfl
      simp only [getAnonInode, wp_bind, wp_get, hd, wp_orNull]
      refine wp_mono (wp_getNewAnonInode h hl hflags)
        (fun dentry ws' hq => .inr ⟨hq.1, .inr ⟨trivial, hq.2⟩⟩) fun e ws' hws => ?_
      split_ifs
      · exact .inl ⟨hws, fun hno => absurd hno (by simp)⟩
      · exact hws

/-! ### The references -/

/-- The refcount of an anon inode with `refs` counted references.  One that was created with
a counted reference is behind by it. -/
def Counted (refcount : ℤ) (refs : ℕ) : Prop :=
  refcount = unreferenced ∧ refs = 0 ∨ 0 ≤ refcount ∧ refcount ≤ refs ∧ refs ≤ refcount + 1

/-- **The invariant of the calls.** -/
structure Inv (s : System) : Prop where
  synced : s.ws.Synced
  absent : ∀ ino, s.ws.anonInodes.lookup ino = none → s.refs ino = 0
  counted : ∀ ino inode, s.ws.anonInodes.lookup ino = some inode →
    Counted inode.refcount (s.refs ino)

/-- The first reference is the first one counted; later ones are added up to the maximum. -/
theorem countReference_eq_some {refcount refcount' : ℤ}
    (h : countReference refcount = some refcount') : refcount = unreferenced ∧ refcount' = 1 ∨
      0 ≤ refcount ∧ refcount < iinfoMaxRefcount ∧ refcount' = refcount + 1 := by
  rw [countReference] at h
  split_ifs at h with hun hmax hbad
  · exact .inl ⟨hun, (Option.some.inj h).symm⟩
  · obtain ⟨hpos, hle⟩ := not_or.1 hbad
    exact .inr ⟨by omega, by omega, (Option.some.inj h).symm⟩

/-- A reference more is counted as one more. -/
theorem Counted.succ {refcount refcount' : ℤ} {refs : ℕ} (h : Counted refcount refs)
    (hc : countReference refcount = some refcount') : Counted refcount' (refs + 1) := by
  rcases countReference_eq_some hc with ⟨hun, rfl⟩ | ⟨hpos, -, rfl⟩
  · have hrefs : refs = 0 := by
      rcases h with ⟨-, hrefs⟩ | ⟨hpos, -⟩
      · exact hrefs
      · rw [hun] at hpos
        exact absurd hpos (by decide)
    exact .inr ⟨by omega, by omega, by omega⟩
  · obtain ⟨-, hle, hge⟩ := h.resolve_left fun hno => by
      rw [hno.1] at hpos
      exact absurd hpos (by decide)
    exact .inr ⟨by omega, by omega, by omega⟩

namespace Workingset.Synced

variable (h : ws.Synced)

include h

/-- A refcount leaves the two trees in step. -/
theorem setRefcount {refcount : ℤ} : (ws.setRefcount ino refcount).Synced := fun k => by
  refine (h k).trans ?_
  by_cases hk : k = ino
  · rw [hk, setRefcount_self, Option.map_map]
    rfl
  · rw [setRefcount_of_ne hk]

/-- A new anon inode leaves the two trees in step. -/
theorem create : (ws.create ino flags).Synced := fun k => by
  rw [Workingset.create]
  by_cases hk : k = ino
  · simp [hk]
  · simp only [KeyTree.lookup_insert_of_ne _ hk]
    exact h k

/-- So does one that goes. -/
theorem delete :
    (⟨ws.anonInodes.delete ino, ws.anonDentries.delete ino⟩ : Workingset).Synced := fun k => by
  by_cases hk : k = ino
  · simp [hk]
  · simp only [KeyTree.lookup_delete_of_ne _ hk]
    exact h k

end Workingset.Synced

namespace Inv

theorem of_initial : Inv initial :=
  ⟨fun _ => rfl, fun _ _ => rfl, fun _ _ hno => nomatch hno⟩

/-- A call about the anon inode of `ino`. -/
theorem change (h : Inv s) (hsynced : ws'.Synced) {refs : ℕ}
    (hother : ∀ k, k ≠ ino → ws'.anonInodes.lookup k = s.ws.anonInodes.lookup k)
    (hnone : ws'.anonInodes.lookup ino = none → refs = 0)
    (hcounted : ∀ inode, ws'.anonInodes.lookup ino = some inode → Counted inode.refcount refs) :
    Inv ⟨ws', Function.update s.refs ino refs⟩ := by
  refine ⟨hsynced, fun k hk => ?_, fun k inode hk => ?_⟩
  · by_cases hki : k = ino
    · subst hki
      simp only [Function.update_self]
      exact hnone hk
    · simp only [Function.update_of_ne hki]
      exact h.absent k ((hother k hki).symm.trans hk)
  · by_cases hki : k = ino
    · subst hki
      simp only [Function.update_self]
      exact hcounted inode hk
    · simp only [Function.update_of_ne hki]
      exact h.counted k inode ((hother k hki).symm.trans hk)

/-- A counted reference is handed out. -/
theorem takeReference (h : Inv s) (hl : s.ws.anonInodes.lookup ino = some inode) {refcount : ℤ}
    (hc : countReference inode.refcount = some refcount) :
    Inv (s.counted ino (s.ws.setRefcount ino refcount)) := by
  have hself : (s.ws.setRefcount ino refcount).anonInodes.lookup ino =
      some { inode with refcount := refcount } := by
    rw [setRefcount_self, hl]
    rfl
  refine h.change h.synced.setRefcount (fun k hk => setRefcount_of_ne hk) (fun hno => ?_)
    fun inode' hinode' => ?_
  · rw [hself] at hno
    cases hno
  · obtain rfl := Option.some.inj (hself.symm.trans hinode')
    exact (h.counted ino inode hl).succ hc

/-- **A new anon inode** has the references that its creator asks for. -/
theorem create (h : Inv s) (hl : s.ws.anonInodes.lookup ino = none) :
    Inv ⟨s.ws.create ino flags, Function.update s.refs ino
      (if flags &&& skipRefcount = 0 then s.refs ino + 1 else s.refs ino)⟩ := by
  have hself : (s.ws.create ino flags).anonInodes.lookup ino =
      some ⟨if flags &&& skipRefcount = 0 then 0 else unreferenced, 0, []⟩ :=
    KeyTree.lookup_insert_self _
  refine h.change h.synced.create (fun k hk => KeyTree.lookup_insert_of_ne _ hk) (fun hno => ?_)
    fun inode' hinode' => ?_
  · rw [hself] at hno
    cases hno
  · obtain rfl := Option.some.inj (hself.symm.trans hinode')
    rw [h.absent ino hl]
    split_ifs
    · exact .inr (by decide)
    · exact .inl ⟨rfl, rfl⟩

/-- **`sivfs_get_anon_inode`** keeps the counts, however it ends. -/
theorem get (h : Inv s) : Inv (s.get ino env flags) := by
  refine Call.run_of_wp (wp_getAnonInode h.synced) (fun dentry ws' hq => ?_) fun e ws' hws => ?_
  · rcases hq with ⟨rfl, hskip⟩ | ⟨rfl, ⟨hskip, inode, refcount, hl, hc, rfl⟩ | ⟨hl, rfl⟩⟩
    · rw [if_neg fun hno => hskip hno.2 hno.1]
      exact h
    · rw [if_pos ⟨hskip, rfl⟩]
      exact h.takeReference hl hc
    · have hcreate : Inv ⟨s.ws.create ino flags, Function.update s.refs ino
          (if flags &&& skipRefcount = 0 then s.refs ino + 1 else s.refs ino)⟩ := h.create hl
      by_cases hskip : flags &&& skipRefcount = 0
      · rw [if_pos hskip] at hcreate
        rw [if_pos ⟨hskip, rfl⟩]
        exact hcreate
      · rw [if_neg hskip, Function.update_eq_self] at hcreate
        rw [if_neg fun hno => hskip hno.1]
        exact hcreate
  · subst hws
    exact h

/-- So does an open. -/
theorem openAnon (h : Inv s) {env : Opening} : Inv (s.openAnon ino env) := by
  have hopen : (anonOpen env ino).wp (fun counted ws' => counted = false ∧ ws' = s.ws ∨
      counted = true ∧ ∃ inode refcount, s.ws.anonInodes.lookup ino = some inode ∧
        countReference inode.refcount = some refcount ∧ ws' = s.ws.setRefcount ino refcount)
      (fun _ ws' => ws' = s.ws) s.ws := by
    simp only [anonOpen, call, wp_bind, wp_require, wp_get]
    refine ⟨fun _ => ⟨fun _ => ⟨fun _ => ?_, fun _ => trivial⟩, fun _ => trivial⟩, fun _ => trivial⟩
    cases hl : if env.stale then none else s.ws.anonInodes.lookup ino with
    | none => exact .inl ⟨rfl, rfl⟩
    | some inode =>
      have hlookup : s.ws.anonInodes.lookup ino = some inode := by
        split_ifs at hl
        exact hl
      simp only [AnonInodes.takeReference, wp_bind]
      cases hc : countReference inode.refcount with
      | none => rfl
      | some refcount => exact .inr ⟨rfl, inode, refcount, hlookup, hc, rfl⟩
  refine Call.run_of_wp hopen (fun counted ws' hq => ?_) fun e ws' hws => ?_
  · rcases hq with ⟨rfl, rfl⟩ | ⟨rfl, inode, refcount, hl, hc, rfl⟩
    · exact h
    · exact h.takeReference hl hc
  · subst hws
    exact h

/-- So does `sivfs_put_anon_inode`. -/
theorem put (h : Inv s) : Inv (s.put ino) := by
  rw [System.put]
  cases hl : s.ws.anonInodes.lookup ino with
  | none =>
    rw [putAnonInode_of_none hl, hl]
    refine h.change h.synced (fun _ _ => rfl) (fun _ => rfl) fun inode hno => ?_
    rw [hl] at hno
    cases hno
  | some inode =>
    have hcounted := h.counted ino inode hl
    by_cases hfreed : inode.refcount = unreferenced ∨ inode.refcount = 1
    · rw [putAnonInode_of_freed hl hfreed]
      simp only [KeyTree.lookup_delete_self]
      refine h.change h.synced.delete (fun k hk => KeyTree.lookup_delete_of_ne _ hk) (fun _ => rfl)
        fun inode' hno => ?_
      simp only [KeyTree.lookup_delete_self] at hno
      cases hno
    · have hrange : 0 ≤ inode.refcount ∧ inode.refcount ≤ s.refs ino ∧
          s.refs ino ≤ inode.refcount + 1 := hcounted.resolve_left fun hno => hfreed (.inl hno.1)
      by_cases hzero : inode.refcount = 0
      · rw [putAnonInode_of_zero hl hzero, hl]
        refine h.change h.synced (fun _ _ => rfl) (fun hno => nomatch hl.symm.trans hno)
          fun inode' hinode' => ?_
        obtain rfl := Option.some.inj (hl.symm.trans hinode')
        exact .inr (by simp only [Option.isNone_some, Bool.false_eq_true, if_false]; omega)
      · have hgt : 1 < inode.refcount := by
          have hone : inode.refcount ≠ 1 := fun hone => hfreed (.inr hone)
          omega
        have hself : (s.ws.setRefcount ino (inode.refcount - 1)).anonInodes.lookup ino =
            some { inode with refcount := inode.refcount - 1 } := by
          rw [setRefcount_self, hl]
          rfl
        rw [putAnonInode_of_kept hl hgt, hself]
        refine h.change h.synced.setRefcount (fun k hk => setRefcount_of_ne hk)
          (fun hno => nomatch hself.symm.trans hno) fun inode' hinode' => ?_
        obtain rfl := Option.some.inj (hself.symm.trans hinode')
        exact .inr (by simp only [Option.isNone_some, Bool.false_eq_true, if_false]; omega)

/-- Pages are not references. -/
theorem pages (h : Inv s) {nrpages : ℕ} {checkpointPages : List ℕ} :
    Inv (step s (.pages ino nrpages checkpointPages)) := by
  set f : AnonInode → AnonInode := fun inode =>
    { inode with nrpages := nrpages, checkpointPages := checkpointPages }
  have hself : (s.ws.anonInodes.modify ino f).lookup ino = (s.ws.anonInodes.lookup ino).map f :=
    KeyTree.lookup_modify_self _
  change Inv ⟨{ s.ws with anonInodes := s.ws.anonInodes.modify ino f }, s.refs⟩
  rw [← Function.update_eq_self ino s.refs]
  refine h.change (fun k => ?_) (fun k hk => KeyTree.lookup_modify_of_ne _ hk) (fun hnone => ?_)
    fun inode hinode => ?_
  · refine (h.synced k).trans ?_
    by_cases hk : k = ino
    · rw [hk]
      simp only [hself, Option.map_map]
      rfl
    · simp only [KeyTree.lookup_modify_of_ne _ hk]
  · simp only [hself, Option.map_eq_none_iff] at hnone
    exact h.absent ino hnone
  · simp only [hself] at hinode
    obtain ⟨inode', hl, rfl⟩ := Option.map_eq_some_iff.1 hinode
    exact h.counted ino inode' hl

/-- **The invariant holds in every run.** -/
theorem of_reachable (hs : calls.Reachable s) : Inv s := by
  refine hs.invariant ?_ fun s a s' _ h hstep => ?_
  · rintro _ rfl
    exact of_initial
  · obtain rfl := Option.some.inj hstep
    cases a with
    | get env ino flags => exact h.get
    | openAnon env ino => exact h.openAnon
    | put ino => exact h.put
    | pages ino nrpages checkpointPages => exact h.pages

end Inv

/-! ### Main result -/

/-- **The guard leaves the working set as it found it**: it uses no pointer without a value,
answers whether there are resident pages of the file, and the same anon inodes are there with
the same refcounts. -/
def GuardOk (ws : Workingset) (ino : ℕ) : Prop :=
  ∀ env, ∃ ws', checkNontxnalOp env ino ws = (.ok !ws.resident ino, ws') ∧
    (∀ k, ws'.anonInodes.lookup k = ws.anonInodes.lookup k) ∧
    ∀ k, ws'.anonDentries.lookup k = ws.anonDentries.lookup k

/-- A call of `sivfs_put_anon_inode` frees the anon inode. -/
def FreedByPut (ws : Workingset) (ino : ℕ) : Prop :=
  (ws.anonInodes.lookup ino).isSome ∧ ((putAnonInode ino ws).anonInodes.lookup ino).isNone

/-- Where there is no anon inode, the guard uses what the lookup left. -/
theorem checkNontxnalOp_of_none (h : ws.Synced) (hl : ws.anonInodes.lookup ino = none) :
    checkNontxnalOp env ino ws = (.error .badPointer, ws) := by
  rw [checkNontxnalOp, bind_apply, getAnonInode_of_none h hl rfl]
  rfl

/-- **The guard counts a reference, looks at the pages and puts the reference.** -/
theorem checkNontxnalOp_of_some (h : ws.Synced) (hl : ws.anonInodes.lookup ino = some inode) :
    checkNontxnalOp env ino ws = match countReference inode.refcount with
      | none => (.error (.rc (-einval)), ws)
      | some refcount =>
        (.ok !ws.resident ino, putAnonInode ino (ws.setRefcount ino refcount)) := by
  rw [checkNontxnalOp, bind_apply, getAnonInode_of_some h hl, if_pos (by decide)]
  cases hc : countReference inode.refcount with
  | none => rfl
  | some refcount =>
    have hself : (ws.setRefcount ino refcount).anonInodes.lookup ino =
        some { inode with refcount := refcount } := by
      rw [setRefcount_self, hl]
      rfl
    simp [bind_apply, dInode, Call.get, hself, Call.modify, resident, hl]

/-- When the guard does its work. -/
theorem guardOk_iff (h : Inv s) : GuardOk s.ws ino ↔ ∃ inode,
    s.ws.anonInodes.lookup ino = some inode ∧ 1 ≤ inode.refcount ∧
      inode.refcount < iinfoMaxRefcount := by
  constructor
  · intro hguard
    obtain ⟨ws', hcheck, hinodes, -⟩ := hguard .ok
    cases hl : s.ws.anonInodes.lookup ino with
    | none =>
      rw [checkNontxnalOp_of_none h.synced hl] at hcheck
      cases hcheck
    | some inode =>
      refine ⟨inode, rfl, ?_⟩
      rw [checkNontxnalOp_of_some h.synced hl] at hcheck
      cases hc : countReference inode.refcount with
      | none =>
        rw [hc] at hcheck
        cases hcheck
      | some refcount =>
        rw [hc] at hcheck
        obtain rfl := (Prod.mk.inj hcheck).2
        have hself : (s.ws.setRefcount ino refcount).anonInodes.lookup ino =
            some { inode with refcount := refcount } := by
          rw [setRefcount_self, hl]
          rfl
        -- A refcount that was not counted yet is 1 now, and the put frees the inode.
        have hone : refcount ≠ 1 := by
          rintro rfl
          have hfreed := hinodes ino
          rw [putAnonInode_of_freed hself (.inr rfl), hl] at hfreed
          simp at hfreed
        rcases countReference_eq_some hc with ⟨-, rfl⟩ | ⟨hpos, hlt, rfl⟩
        · exact absurd rfl hone
        · exact ⟨by omega, hlt⟩
  · rintro ⟨inode, hl, hpos, hlt⟩ env
    have hc : countReference inode.refcount = some (inode.refcount + 1) := by
      rw [countReference, if_neg (by rw [unreferenced]; omega), if_neg (by omega),
        if_neg (by omega)]
    have hself : (s.ws.setRefcount ino (inode.refcount + 1)).anonInodes.lookup ino =
        some { inode with refcount := inode.refcount + 1 } := by
      rw [setRefcount_self, hl]
      rfl
    refine ⟨_, by rw [checkNontxnalOp_of_some h.synced hl, hc], fun k => ?_, fun k => ?_⟩
    · rw [putAnonInode_of_kept hself (by dsimp only; omega)]
      by_cases hk : k = ino
      · rw [hk, setRefcount_self, hself, hl]
        simp
      · rw [setRefcount_of_ne hk, setRefcount_of_ne hk]
    · rw [putAnonInode_of_kept hself (by dsimp only; omega)]
      rfl

/-- When a put frees. -/
theorem freedByPut_iff (h : Inv s) (hl : s.ws.anonInodes.lookup ino = some inode) :
    FreedByPut s.ws ino ↔ inode.refcount = unreferenced ∨ inode.refcount = 1 := by
  rw [FreedByPut, hl]
  refine (and_iff_right rfl).trans ?_
  by_cases hfreed : inode.refcount = unreferenced ∨ inode.refcount = 1
  · rw [putAnonInode_of_freed hl hfreed]
    exact iff_of_true (by simp) hfreed
  · refine iff_of_false ?_ hfreed
    have hrange := (h.counted ino inode hl).resolve_left fun hno => hfreed (.inl hno.1)
    by_cases hzero : inode.refcount = 0
    · rw [putAnonInode_of_zero hl hzero, hl]
      exact Bool.false_ne_true
    · have hone : inode.refcount ≠ 1 := fun hone => hfreed (.inr hone)
      rw [putAnonInode_of_kept hl (by omega), setRefcount_self, hl]
      exact Bool.false_ne_true

/-- **When the references balance.**  After any calls of a thread, the guard leaves the
working set as it found it exactly if the anon inode is there with a counted reference and
one more can be counted; and a put frees the inode exactly with its last counted reference,
except for an inode that nobody has opened and for one whose refcount is behind its
references. -/
theorem guard_and_put_iff (hs : calls.Reachable s) (ino : ℕ) :
    (GuardOk s.ws ino ↔ ∃ inode, s.ws.anonInodes.lookup ino = some inode ∧ 1 ≤ inode.refcount ∧
      inode.refcount < iinfoMaxRefcount) ∧
    ((FreedByPut s.ws ino ↔ s.refs ino = 1) ↔ ∀ inode, s.ws.anonInodes.lookup ino = some inode →
      inode.refcount ≠ unreferenced ∧ (inode.refcount ≤ 1 → inode.refcount = s.refs ino)) := by
  have h := Inv.of_reachable hs
  refine ⟨guardOk_iff h, ?_⟩
  cases hl : s.ws.anonInodes.lookup ino with
  | none =>
    have hrefs := h.absent ino hl
    refine iff_of_true (iff_of_false (fun hno => ?_) (by omega)) fun _ hno => nomatch hno
    rw [FreedByPut, hl] at hno
    exact absurd hno.1 Bool.false_ne_true
  | some inode =>
    have hcounted := h.counted ino inode hl
    rw [freedByPut_iff h hl]
    simp only [Option.some.injEq, forall_eq']
    rw [Counted] at hcounted
    rw [unreferenced] at hcounted ⊢
    omega

/-- The anon inode of 3 is created and opened. -/
def opened : List Act := [.get .ok 3 (create ||| skipRefcount), .openAnon ⟨0, 0, true, false⟩ 3]

theorem guard_and_put_iff_opened : ∃ s, s = opened.foldl step initial ∧ s.refs 3 = 1 ∧
    (GuardOk s.ws 3 ↔ ∃ inode, s.ws.anonInodes.lookup 3 = some inode ∧ 1 ≤ inode.refcount ∧
      inode.refcount < iinfoMaxRefcount) ∧
    ((FreedByPut s.ws 3 ↔ s.refs 3 = 1) ↔ ∀ inode, s.ws.anonInodes.lookup 3 = some inode →
      inode.refcount ≠ unreferenced ∧ (inode.refcount ≤ 1 → inode.refcount = s.refs 3)) :=
  ⟨_, rfl, by decide, guard_and_put_iff (.step (.openAnon ⟨0, 0, true, false⟩ 3)
    (.step (.get .ok 3 (create ||| skipRefcount)) (.init rfl) trivial rfl) trivial rfl) 3⟩

/-- Without an anon inode the guard uses a pointer that has no value. -/
theorem not_guardOk_initial : ¬∀ s ino, calls.Reachable s →
    (∀ inode, s.ws.anonInodes.lookup ino = some inode → inode.refcount = unreferenced ∨
      1 ≤ inode.refcount ∧ inode.refcount < iinfoMaxRefcount) → GuardOk s.ws ino := by
  intro hall
  obtain ⟨ws', hcheck, -⟩ := hall initial 3 (.init rfl) (fun _ hno => nomatch hno) .ok
  have hbad : checkNontxnalOp .ok 3 initial.ws = (.error .badPointer, initial.ws) := by decide
  rw [hbad] at hcheck
  cases hcheck

end AnonInodes
end Sivfs
