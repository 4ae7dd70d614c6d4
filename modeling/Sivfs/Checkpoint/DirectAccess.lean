/-
# Direct access

A thread in direct access writes to the pages of its checkpoint in place.  On a fault
`sivfs_fault_checkpoint` (`kern/inode.c`) looks the page up in the checkpoint and maps it; if
there is none, or a zero page, it patches the tree with `sivfs_prepare_direct_access_page`
and has the fault taken again.

| step | pages of checkpoints that the thread has mapped |
| --- | --- |
| `fault` | the page that the lookup finds, writable if the fault is a write |
| `read` | the same outside of direct access, never writable |
| `mkwrite` | writable in direct access, with no lookup; else it is unmapped, to be copied |
| `directAccess` | all stay, also on entering (`SIVFS_NO_INVALIDATE_CPS`) |
| `checkout` | none if direct access is left, else all but those that the log writes to |
| `pause` | none |

The machine has besides these the commits, the attempts to make a checkpoint and the stores to
writable pages.  Pages are never given back here, and the workingset, whose pages are private
to a thread, is left out.
-/

import Sivfs.Checkpoint.Stores

open PathCopy

namespace Sivfs
namespace Checkpoint

/-! ### The machine -/

namespace Direct

/-- A page of a checkpoint that a thread has mapped. -/
structure Mapping where
  fileIno : ℕ
  fileOffset : ℕ
  page : Ref
  writable : Bool
  deriving DecidableEq

/-- What a thread has checked out. -/
structure Thread where
  ts : Ts
  /-- `checkpoint_ts` of `state->checkpoint`. -/
  checkpoint : Option ℕ
  directAccess : Bool
  /-- The pages of checkpoints that are mapped, as in `checkpoint_pages`. -/
  mapped : List Mapping

/-- The commits, the pages, the checkpoints and the threads. -/
structure State (ι : Type*) where
  log : List LogEntry
  masterTs : ℕ
  heap : Heap
  /-- `cp_root` of the checkpoint of a time; `none` also before it is published. -/
  root : ℕ → Option Ref
  /-- `latest_checkpoint.ts`. -/
  latest : ℕ
  threads : ι → Thread

/-- What happens. -/
inductive Act (ι : Type*) where
  /-- A commit, aborted or not, whose write-set the kernel has tagged. -/
  | commit (aborted : Bool) (ws : List WsEntry)
  | makeCheckpoint (faults : MakeFaults)
  /-- `sivfs_ioctl_update` without direct access; whether the log entries that it is to apply
  are there. -/
  | checkout (i : ι) (logged : Bool)
  /-- The same with `SIVFS_DIRECT_ACCESS`; whether a commit is under way. -/
  | directAccess (i : ι) (outstanding : Bool)
  /-- `sivfs_ioctl_txn_pause`. -/
  | pause (i : ι)
  /-- A fault in direct access, for writing or for reading. -/
  | fault (i : ι) (write : Bool) (faults : Faults) (fileIno fileOffset : ℕ)
  /-- A fault for reading without direct access, where the workingset has no page. -/
  | read (i : ι) (fileIno fileOffset : ℕ)
  /-- A write to a page that is mapped read-only. -/
  | mkwrite (i : ι) (m : Mapping)
  /-- A store to a writable page. -/
  | store (i : ι) (m : Mapping) (word value : ℕ)

section Machine

variable {ι : Type*} [DecidableEq ι]

/-- The latest checkpoint, with the log. -/
def State.shared (s : State ι) : Shared := ⟨s.log, s.masterTs, s.heap, ⟨s.root s.latest, s.latest⟩⟩

/-- Thread `i` has become `th`. -/
def State.setThread (s : State ι) (i : ι) (th : Thread) : State ι :=
  { s with threads := Function.update s.threads i th }

/-- `sivfs_make_checkpoint`. -/
def State.makeCheckpoint (s : State ι) (faults : MakeFaults) : State ι :=
  match Checkpoint.makeCheckpoint faults s.shared with
  | (sh, .ok true) => { s with
      heap := sh.heap
      root := Function.update s.root sh.latest.cpTs sh.latest.root
      latest := sh.latest.cpTs }
  | (sh, _) => { s with heap := sh.heap }

/-- `_sivfs_apply_log_entry_workingset` evicts the page (`SIVFS_EVICT_CHECKPOINT`). -/
def Mapping.evictedBy (m : Mapping) (l : LogEntry) : Bool :=
  !l.aborted && l.ws.any fun ent =>
    ent.ino = m.fileIno && ent.fileOffset / pageSize = m.fileOffset / pageSize

/-- `sivfs_apply_logs_workingset`, after `start` up to `stop`, as far as checkpoint pages go. -/
def applyLogsWorkingset (log : List LogEntry) (start : Ts) (stop : ℕ) (mapped : List Mapping) :
    List Mapping :=
  mapped.filter fun m => log.all fun l => !(start < (l.ts : Ts) && l.ts ≤ stop && m.evictedBy l)

/-- The end of `my_sivfs_commit_update` without direct access: on leaving direct access all
pages are unmapped, and then `sivfs_update` applies the log.  It keeps `ts` if entries of the
log are missing. -/
def Thread.checkout (th : Thread) (log : List LogEntry) (latest masterTs : ℕ) (logged : Bool) :
    Thread where
  ts := if logged then (masterTs : Ts) else th.ts
  checkpoint := some latest
  directAccess := false
  mapped :=
    if th.directAccess then []
    else if logged then applyLogsWorkingset log th.ts masterTs th.mapped
    else th.mapped

/-- The same with `sivfs_update_direct_access`, which fails unless the checkpoint is up to
date.  Pages of checkpoints stay mapped. -/
def Thread.enter (th : Thread) (latest masterTs : ℕ) (outstanding : Bool) : Thread :=
  if latest = masterTs ∧ ¬outstanding then
    { th with ts := (masterTs : Ts), checkpoint := some latest, directAccess := true }
  else { th with checkpoint := some latest }

/-- `sivfs_prepare_direct_access_page` on the checkpoint of time `t`. -/
def State.prepare (s : State ι) (faults : Faults) (t fileIno fileOffset : ℕ) : State ι :=
  let b := (prepareDirectAccessPage faults s.heap (s.root t) t fileIno fileOffset).1
  { s with heap := b.heap, root := Function.update s.root t b.root }

/-- `sivfs_lock_cp_page` for thread `i`, with the checkpoint; `none` if the fault is to be served
in another way, or fails. -/
def State.lockCpPage (s : State ι) (i : ι) (fileIno fileOffset : ℕ) : Option (ℕ × Option Ref) :=
  match (s.threads i).ts, (s.threads i).checkpoint with
  | (ts : ℕ), some t =>
    match findFirstWrite s.shared t ts fileIno fileOffset (fileOffset + pageSize) with
    | .error _ => none
    | .ok first =>
      if first ≠ invalidTs then none
      else
        match checkpointIterInit fileIno fileOffset with
        | .error _ => none
        | .ok offsets => some (t, follow s.heap.child (s.root t) offsets)
  | _, _ => none

/-- A page is mapped. -/
def State.map (s : State ι) (i : ι) (m : Mapping) : State ι :=
  s.setThread i { s.threads i with mapped := m :: (s.threads i).mapped }

/-- `sivfs_fault_checkpoint` in direct access. -/
def State.fault (s : State ι) (i : ι) (write : Bool) (faults : Faults) (fileIno fileOffset : ℕ) :
    State ι :=
  match s.lockCpPage i fileIno fileOffset with
  | some (_, some (.page id)) => s.map i ⟨fileIno, fileOffset, .page id, write⟩
  | some (t, _) => s.prepare faults t fileIno fileOffset
  | none => s

/-- The same for reading without direct access. -/
def State.read (s : State ι) (i : ι) (fileIno fileOffset : ℕ) : State ι :=
  match s.lockCpPage i fileIno fileOffset with
  | some (_, some page) => s.map i ⟨fileIno, fileOffset, page, false⟩
  | _ => s

/-- `sivfs_mkwrite`. -/
def Thread.mkwrite (th : Thread) (m : Mapping) : Thread :=
  { th with mapped :=
      if th.directAccess then { m with writable := true } :: th.mapped.erase m
      else th.mapped.erase m }

/-- A store to a leaf.  The zero page is one for the whole machine and has no words here. -/
def State.storeWord (s : State ι) (page : Ref) (word value : ℕ) : Option (State ι) :=
  match page with
  | .page id => some { s with heap := s.heap.modify id (.storeWord word value) }
  | .zero _ => none

/-- One step. -/
def step (s : State ι) : Act ι → Option (State ι)
  | .commit aborted ws =>
    if ∀ ent ∈ ws, ent.fileOffset % wordBytes = 0 then
      some { s with
        log := s.log ++ [⟨s.masterTs + 1, aborted, ws⟩]
        masterTs := s.masterTs + 1 }
    else none
  | .makeCheckpoint faults => some (s.makeCheckpoint faults)
  | .checkout i logged =>
    some (s.setThread i ((s.threads i).checkout s.log s.latest s.masterTs logged))
  | .directAccess i outstanding =>
    some (s.setThread i ((s.threads i).enter s.latest s.masterTs outstanding))
  | .pause i =>
    some (s.setThread i { s.threads i with ts := invalidTs, checkpoint := none, mapped := [] })
  | .fault i write faults fileIno fileOffset =>
    if (s.threads i).directAccess ∧ fileOffset % pageSize = 0 then
      some (s.fault i write faults fileIno fileOffset)
    else none
  | .read i fileIno fileOffset =>
    if ¬(s.threads i).directAccess ∧ fileOffset % pageSize = 0 then
      some (s.read i fileIno fileOffset)
    else none
  | .mkwrite i m =>
    if m ∈ (s.threads i).mapped ∧ ¬m.writable then
      some (s.setThread i ((s.threads i).mkwrite m))
    else none
  | .store i m word value =>
    if m ∈ (s.threads i).mapped ∧ m.writable ∧ word < 512 then s.storeWord m.page word value
    else none

/-- After mounting. -/
def Init (s : State ι) : Prop :=
  (s.log = [] ∧ s.masterTs = 0 ∧ s.heap = ⟨0, fun _ => blankPage⟩ ∧ s.root = fun _ => none) ∧
    s.latest = 0 ∧ ∀ i, s.threads i = ⟨invalidTs, none, false, []⟩

/-- Direct access, for the threads `ι`. -/
def machine (ι : Type*) [DecidableEq ι] : Machine (State ι) (Act ι) where
  init := Init
  step := step

end Machine

/-! ### The trees of all checkpoints -/

/-- Every checkpoint has a tree over the pages. -/
structure TreesOk (h : Heap) (root : ℕ → Option Ref) : Prop where
  heap : HeapOk h
  root_ok : ∀ t, RootOk h t (root t)
  zero : ∀ l, root 0 ≠ some (.zero l)
  initial : InitialOk h

section Trees

variable {h h' : Heap} {root : ℕ → Option Ref}

/-- A checkpoint gets another root. -/
theorem TreesOk.update (ht : TreesOk h root) (hg : Grows h h') (hok : HeapOk h')
    (hinit : InitialOk h') {t : ℕ} {r : Option Ref} (hr : RootOk h' t r)
    (hzero : t = 0 → ∀ l, r ≠ some (.zero l)) : TreesOk h' (Function.update root t r) := by
  refine ⟨hok, fun t' => ?_, fun l => ?_, hinit⟩
  · rcases eq_or_ne t' t with rfl | hne
    · rwa [Function.update_self]
    · rw [Function.update_of_ne hne]
      exact (ht.root_ok t').grows hg
  · rcases eq_or_ne 0 t with rfl | hne
    · rw [Function.update_self]
      exact hzero rfl l
    · rw [Function.update_of_ne hne]
      exact ht.zero l

/-- The pages become more, and the roots stay. -/
theorem TreesOk.grows (ht : TreesOk h root) (hg : Grows h h') (hok : HeapOk h')
    (hinit : InitialOk h') : TreesOk h' root :=
  ⟨hok, fun t => (ht.root_ok t).grows hg, ht.zero, hinit⟩

/-- New pages are not of time 0. -/
theorem TreesOk.made_initial (ht : TreesOk h root) (hm : Made h h') : InitialOk h' :=
  ht.initial.grows hm.frozen.grows
    (fun id hid _ k => congrArg (PageMem.ents · k) (hm.frozen.mem id hid)) hm.fresh

/-- An attempt that makes no checkpoint. -/
theorem TreesOk.made (ht : TreesOk h root) (hm : Made h h') : TreesOk h' root :=
  ht.grows hm.frozen.grows hm.ok (ht.made_initial hm)

/-- A store to a leaf. -/
theorem TreesOk.storeWord (ht : TreesOk h root) {id : ℕ} (hl : (h.page id).level = 0)
    (word value : ℕ) : TreesOk (h.modify id (.storeWord word value)) root := by
  have hg : Grows h (h.modify id (.storeWord word value)) := storeWord_grows word value
  refine ht.grows hg (ht.heap.storeWord word value hl) (ht.initial.grows hg (fun j _ _ k => ?_) ?_)
  · rw [storeWord_child word value ht.heap hl]
  · exact fun j hj hlt => absurd hlt (not_lt.2 hj)

/-- **`sivfs_prepare_direct_access_page`** changes what no checkpoint reads. -/
theorem TreesOk.prepare (ht : TreesOk h root) (faults : Faults) (t ino off : ℕ) :
    Patched t ⟨h, root t, []⟩ (prepareDirectAccessPage faults h (root t) t ino off).1 ∧
      TreesOk (prepareDirectAccessPage faults h (root t) t ino off).1.heap
        (Function.update root t (prepareDirectAccessPage faults h (root t) t ino off).1.root) := by
  rcases eq_or_ne t 0 with rfl | hne
  · obtain ⟨hp, -, hinit, hzero, -⟩ :=
      prepare_shared faults ino off ht.heap (ht.root_ok 0) ht.initial ht.zero
    exact ⟨hp, ht.update hp.grows hp.ok hinit hp.root_ok fun _ => hzero⟩
  · obtain ⟨hp, -, -⟩ := prepare_private faults ino off hne ht.heap (ht.root_ok t)
    refine ⟨hp, ht.update hp.grows hp.ok (ht.initial.grows hp.grows (fun id hid hts k => ?_) ?_)
      hp.root_ok fun h => absurd h hne⟩
    · exact hp.others (.page id) k hid (hts.trans_ne (Ne.symm hne))
    · intro id hid hlt
      exact (hp.fresh id hid hlt).trans_ne hne

/-- What every checkpoint reads after it. -/
theorem TreesOk.prepare_read (ht : TreesOk h root) (faults : Faults) (t ino off : ℕ)
    (o ino' off' : ℕ) :
    readCheckpoint (prepareDirectAccessPage faults h (root t) t ino off).1.heap
        (Function.update root t (prepareDirectAccessPage faults h (root t) t ino off).1.root o)
        ino' off' = readCheckpoint h (root o) ino' off' := by
  obtain ⟨hp, -⟩ := ht.prepare faults t ino off
  have hcont : ∀ ρ, (prepareDirectAccessPage faults h (root t) t ino off).1.heap.contents
      (Function.update root t (prepareDirectAccessPage faults h (root t) t ino off).1.root o) ρ =
        h.contents (root o) ρ := by
    intro ρ
    rcases eq_or_ne o t with rfl | hne
    · rw [Function.update_self]
      exact hp.root_contents ρ
    · rw [Function.update_of_ne hne]
      exact hp.contents _ ρ fun c hc => (ht.root_ok o c hc).1
  simp only [readCheckpoint, hcont]

end Trees

/-! ### The invariant -/

section Runs

variable {ι : Type*} [DecidableEq ι] {s s' : State ι}

/-- What holds in every state. -/
structure Inv (s : State ι) : Prop where
  log : Consecutive 1 s.log
  masterTs : s.masterTs = s.log.length
  trees : TreesOk s.heap s.root
  latest_le : s.latest ≤ s.masterTs
  checkpoint_le : ∀ i t, (s.threads i).checkpoint = some t → t ≤ s.latest
  mapped : ∀ i, ∀ m ∈ (s.threads i).mapped, Valid s.heap.next m.page ∧ s.heap.level m.page = 0
  /-- Only direct access makes pages writable. -/
  writable : ∀ i, ∀ m ∈ (s.threads i).mapped, m.writable → (s.threads i).directAccess

omit [DecidableEq ι] in
/-- After mounting. -/
theorem Init.inv (h : Init s) : Inv s := by
  obtain ⟨⟨hlog, hmaster, hheap, hroot⟩, hlatest, hthr⟩ := h
  refine ⟨?_, ?_, ⟨?_, fun t => ?_, fun l => ?_, fun id hid => ?_⟩, ?_, fun i t ht => ?_,
    fun i m hm => ?_, fun i m hm => ?_⟩
  · rw [hlog]
    trivial
  · rw [hlog, hmaster]
    rfl
  · rw [hheap]
    exact heapOk_empty
  · rw [hroot]
    exact fun r hr => absurd hr (by simp)
  · rw [hroot]
    simp
  · rw [hheap] at hid
    exact absurd hid (Nat.not_lt_zero id)
  · rw [hlatest]
    exact Nat.zero_le _
  · simp [hthr] at ht
  · simp [hthr] at hm
  · simp [hthr] at hm

/-- A thread moves. -/
theorem Inv.setThread (h : Inv s) (i : ι) {th : Thread}
    (hcp : ∀ t, th.checkpoint = some t → t ≤ s.latest)
    (hmapped : ∀ m ∈ th.mapped, Valid s.heap.next m.page ∧ s.heap.level m.page = 0)
    (hwritable : ∀ m ∈ th.mapped, m.writable → th.directAccess) : Inv (s.setThread i th) := by
  refine ⟨h.log, h.masterTs, h.trees, h.latest_le, fun j t ht => ?_, fun j m hm => ?_,
    fun j m hm => ?_⟩
  · rcases eq_or_ne j i with rfl | hji
    · simp only [State.setThread, Function.update_self] at ht
      exact hcp t ht
    · simp only [State.setThread, Function.update_of_ne hji] at ht
      exact h.checkpoint_le j t ht
  · rcases eq_or_ne j i with rfl | hji
    · simp only [State.setThread, Function.update_self] at hm
      exact hmapped m hm
    · simp only [State.setThread, Function.update_of_ne hji] at hm
      exact h.mapped j m hm
  · rcases eq_or_ne j i with rfl | hji
    · simp only [State.setThread, Function.update_self] at hm ⊢
      exact hwritable m hm
    · simp only [State.setThread, Function.update_of_ne hji] at hm ⊢
      exact h.writable j m hm

omit [DecidableEq ι] in
/-- The page is what the path in the thread's checkpoint leads to. -/
theorem lockCpPage_eq {i : ι} {ino off t : ℕ} {page : Option Ref}
    (h : s.lockCpPage i ino off = some (t, page)) : (s.threads i).checkpoint = some t ∧
      follow s.heap.child (s.root t) (pathOf ino off) = page := by
  unfold State.lockCpPage at h
  split at h
  case h_1 ts t' _ hcp =>
    split at h
    · cases h
    · split_ifs at h with hfirst
      split at h
      · cases h
      case h_2 offsets hinit =>
        rw [checkpointIterInit_eq] at hinit
        split_ifs at hinit
        obtain rfl := Except.ok.inj hinit
        obtain ⟨rfl, rfl⟩ := Prod.mk.inj (Option.some.inj h)
        exact ⟨hcp, rfl⟩
  case h_2 => cases h

/-- **What a fault does**: nothing, a page that the checkpoint has is mapped, or the tree is
patched. -/
theorem fault_cases (s : State ι) (i : ι) (write : Bool) (faults : Faults) (ino off : ℕ) :
    s.fault i write faults ino off = s ∨ ∃ t, (s.threads i).checkpoint = some t ∧
      ((∃ id, follow s.heap.child (s.root t) (pathOf ino off) = some (.page id) ∧
        s.fault i write faults ino off = s.map i ⟨ino, off, .page id, write⟩) ∨
      s.fault i write faults ino off = s.prepare faults t ino off) := by
  unfold State.fault
  split
  case h_1 t id hlock =>
    obtain ⟨hcp, hf⟩ := lockCpPage_eq hlock
    exact .inr ⟨t, hcp, .inl ⟨id, hf, rfl⟩⟩
  case h_2 t _ _ hlock => exact .inr ⟨t, (lockCpPage_eq hlock).1, .inr rfl⟩
  case h_3 => exact .inl rfl

/-- A read maps the page that is there. -/
theorem read_cases (s : State ι) (i : ι) (ino off : ℕ) : s.read i ino off = s ∨
    ∃ t page, follow s.heap.child (s.root t) (pathOf ino off) = some page ∧
      s.read i ino off = s.map i ⟨ino, off, page, false⟩ := by
  unfold State.read
  split
  case h_1 t page hlock => exact .inr ⟨t, page, (lockCpPage_eq hlock).2, rfl⟩
  case h_2 => exact .inl rfl

omit [DecidableEq ι] in
/-- A page at the end of a path is a leaf. -/
theorem Inv.leaf (h : Inv s) {t ino off : ℕ} {page : Ref}
    (hf : follow s.heap.child (s.root t) (pathOf ino off) = some page) :
    Valid s.heap.next page ∧ s.heap.level page = 0 := by
  refine ⟨follow_mem h.trees.heap.closed (fun r hr => (h.trees.root_ok t r hr).1) _ _ hf, ?_⟩
  rcases hr : s.root t with _ | r
  · simp [hr] at hf
  · rw [hr] at hf
    have hlevel : s.heap.level page + 6 = s.heap.level r := h.trees.heap.toHeapWf.level_follow _ hf
    have := (h.trees.root_ok t r hr).2.1
    omega

/-- A leaf is mapped. -/
theorem Inv.map (h : Inv s) (i : ι) {t ino off : ℕ} {page : Ref} {write : Bool}
    (hf : follow s.heap.child (s.root t) (pathOf ino off) = some page)
    (hwrite : write = true → (s.threads i).directAccess) :
    Inv (s.map i ⟨ino, off, page, write⟩) := by
  refine h.setThread i (h.checkpoint_le i) (fun m hm => ?_) fun m hm => ?_
  · rcases List.mem_cons.1 hm with rfl | hm
    · exact h.leaf hf
    · exact h.mapped i m hm
  · rcases List.mem_cons.1 hm with rfl | hm
    · exact hwrite
    · exact h.writable i m hm

omit [DecidableEq ι] in
/-- The pages become more. -/
theorem Inv.grows (h : Inv s) {heap : Heap} {root : ℕ → Option Ref} (hg : Grows s.heap heap)
    (ht : TreesOk heap root) : Inv { s with heap := heap, root := root } := by
  refine ⟨h.log, h.masterTs, ht, h.latest_le, h.checkpoint_le, fun i m hm => ?_, h.writable⟩
  obtain ⟨hv, hl⟩ := h.mapped i m hm
  exact ⟨hv.mono hg.next_le, (hg.level_eq m.page hv).trans hl⟩

omit [DecidableEq ι] in
/-- A checkpoint is made of new pages. -/
theorem Inv.makeCheckpoint_grows (h : Inv s) (faults : MakeFaults) :
    Grows s.heap (s.makeCheckpoint faults).heap ∧
      (s.makeCheckpoint faults).threads = s.threads := by
  obtain ⟨hmade, -⟩ := makeCheckpoint_made (s := s.shared) h.log h.masterTs h.trees.heap
    (h.trees.root_ok s.latest) h.latest_le faults
  unfold State.makeCheckpoint
  rcases hres : Checkpoint.makeCheckpoint faults s.shared with ⟨sh, e | _ | _⟩
  all_goals
    rw [hres] at hmade
    exact ⟨hmade.frozen.grows, rfl⟩

omit [DecidableEq ι] in
/-- A new checkpoint is made of new pages. -/
theorem Inv.makeCheckpoint (h : Inv s) (faults : MakeFaults) : Inv (s.makeCheckpoint faults) := by
  obtain ⟨hmade, hpub⟩ := makeCheckpoint_made (s := s.shared) h.log h.masterTs h.trees.heap
    (h.trees.root_ok s.latest) h.latest_le faults
  unfold State.makeCheckpoint
  rcases hres : Checkpoint.makeCheckpoint faults s.shared with ⟨sh, e | made⟩
  · rw [hres] at hmade
    exact h.grows hmade.frozen.grows (h.trees.made hmade)
  · rw [hres] at hmade hpub
    cases made with
    | false => exact h.grows hmade.frozen.grows (h.trees.made hmade)
    | true =>
      obtain ⟨hlt, hts, hroot⟩ := hpub rfl
      have hlt' : s.latest < s.masterTs := hlt
      have hts' : sh.latest.cpTs = s.masterTs := hts
      have htrees : TreesOk sh.heap (Function.update s.root sh.latest.cpTs sh.latest.root) := by
        rw [hts']
        exact h.trees.update hmade.frozen.grows hmade.ok (h.trees.made_initial hmade) hroot
          (fun h₀ : s.masterTs = 0 => by omega)
      have hi := h.grows hmade.frozen.grows htrees
      refine ⟨h.log, h.masterTs, htrees, hts'.le, fun i t ht => ?_, hi.mapped, h.writable⟩
      show t ≤ sh.latest.cpTs
      have := h.checkpoint_le i t ht
      omega

/-- Without direct access, pages stay mapped or are evicted. -/
theorem Thread.checkout_mapped (th : Thread) (log : List LogEntry) (latest masterTs : ℕ)
    (logged : Bool) : ∀ m ∈ (th.checkout log latest masterTs logged).mapped,
      th.directAccess = false ∧ m ∈ th.mapped := by
  intro m hm
  simp only [Thread.checkout] at hm
  split_ifs at hm with hdirect
  · cases hm
  · exact ⟨by simpa using hdirect, List.mem_of_mem_filter hm⟩
  · exact ⟨by simpa using hdirect, hm⟩

/-- `sivfs_mkwrite` makes writable what is mapped, and maps nothing. -/
theorem Thread.mkwrite_mapped (th : Thread) {m m' : Mapping} (h : m' ∈ (th.mkwrite m).mapped) :
    (th.directAccess = true ∧ m' = { m with writable := true }) ∨ m' ∈ th.mapped := by
  unfold Thread.mkwrite at h
  split_ifs at h with hdirect
  · rcases List.mem_cons.1 h with rfl | h
    · exact .inl ⟨hdirect, rfl⟩
    · exact .inr (List.mem_of_mem_erase h)
  · exact .inr (List.mem_of_mem_erase h)

omit [DecidableEq ι] in
/-- A store goes to a page, not to zeros. -/
theorem storeWord_some {page : Ref} {word value : ℕ} (h : s.storeWord page word value = some s') :
    ∃ id, page = .page id ∧ s' = { s with heap := s.heap.modify id (.storeWord word value) } := by
  cases page with
  | zero l => cases h
  | page id => exact ⟨id, rfl, (Option.some.inj h).symm⟩

/-- **Every step keeps the invariant.** -/
theorem Inv.step (h : Inv s) {a : Act ι} (hstep : step s a = some s') : Inv s' := by
  cases a with
  | commit aborted ws =>
    simp only [Direct.step] at hstep
    split_ifs at hstep
    obtain rfl := Option.some.inj hstep
    have hlen := h.masterTs
    have hle := h.latest_le
    refine ⟨h.log.append ?_, ?_, h.trees, ?_, h.checkpoint_le, h.mapped, h.writable⟩
    · show s.masterTs + 1 = 1 + s.log.length
      omega
    · show s.masterTs + 1 = (s.log ++ [_]).length
      rw [List.length_append, List.length_singleton]
      omega
    · show s.latest ≤ s.masterTs + 1
      omega
  | makeCheckpoint faults =>
    obtain rfl := Option.some.inj hstep
    exact h.makeCheckpoint faults
  | checkout i logged =>
    obtain rfl := Option.some.inj hstep
    have hsub := (s.threads i).checkout_mapped s.log s.latest s.masterTs logged
    refine h.setThread i (fun t ht => (Option.some.inj ht).ge)
      (fun m hm => h.mapped i m (hsub m hm).2)
      fun m hm hw => ?_
    exact absurd (h.writable i m (hsub m hm).2 hw) (by simp [(hsub m hm).1])
  | directAccess i outstanding =>
    obtain rfl := Option.some.inj hstep
    refine h.setThread i (fun t ht => ?_) (fun m hm => h.mapped i m ?_) fun m hm hw => ?_
    · unfold Thread.enter at ht
      split_ifs at ht <;> exact (Option.some.inj ht).ge
    · unfold Thread.enter at hm
      split_ifs at hm <;> exact hm
    · unfold Thread.enter at hm ⊢
      split_ifs at hm ⊢
      · rfl
      · exact h.writable i m hm hw
  | pause i =>
    obtain rfl := Option.some.inj hstep
    exact h.setThread i (by simp) (by simp) (by simp)
  | fault i write faults ino off =>
    simp only [Direct.step] at hstep
    split_ifs at hstep with hc
    obtain rfl := Option.some.inj hstep
    obtain heq | ⟨t, -, ⟨id, hf, heq⟩ | heq⟩ := fault_cases s i write faults ino off
    · rwa [heq]
    · rw [heq]
      exact h.map i hf fun _ => hc.1
    · rw [heq]
      obtain ⟨hp, ht⟩ := h.trees.prepare faults t ino off
      exact h.grows hp.grows ht
  | read i ino off =>
    simp only [Direct.step] at hstep
    split_ifs at hstep
    obtain rfl := Option.some.inj hstep
    obtain heq | ⟨t, page, hf, heq⟩ := read_cases s i ino off
    · rwa [heq]
    · rw [heq]
      exact h.map i hf (by simp)
  | mkwrite i m =>
    simp only [Direct.step] at hstep
    split_ifs at hstep with hc
    obtain rfl := Option.some.inj hstep
    refine h.setThread i (h.checkpoint_le i) (fun m' hm' => ?_) fun m' hm' hw => ?_
    · rcases (s.threads i).mkwrite_mapped hm' with ⟨-, rfl⟩ | hm'
      · exact h.mapped i m hc.1
      · exact h.mapped i m' hm'
    · rcases (s.threads i).mkwrite_mapped hm' with ⟨hdirect, -⟩ | hm'
      · exact hdirect
      · exact h.writable i m' hm' hw
  | store i m word value =>
    simp only [Direct.step] at hstep
    split_ifs at hstep with hc
    obtain ⟨id, hid, rfl⟩ := storeWord_some hstep
    have hl := (h.mapped i m hc.1).2
    rw [hid] at hl
    exact h.grows (storeWord_grows word value) (h.trees.storeWord hl word value)

/-- **It holds in every state.** -/
theorem reachable_inv (h : (machine ι).Reachable s) : Inv s :=
  h.invariant (I := fun s => Inv s) (fun _ hs => Init.inv hs) fun _ _ _ _ hi hstep => hi.step hstep

/-! ### Preparing a page -/

/-- A page that is prepared is the checkpoint's own, with all that leads to it; nothing is read
differently in any checkpoint, and the shared zero tables keep their entries. -/
def PreparesPrivate (s : State ι) (t ino off : ℕ) : Prop :=
  ∀ faults b stores,
    prepareDirectAccessPage faults s.heap (s.root t) t ino off = (b, stores, .ok ()) →
      Private b.heap t b.root (pathOf ino off) ∧
        (∀ o ino' off', readCheckpoint b.heap (Function.update s.root t b.root o) ino' off' =
          readCheckpoint s.heap (s.root o) ino' off') ∧ ZerosKept stores

/-- **Preparing a page makes it private in every checkpoint but that of time `0`**, whose pages
cannot be told from the zero pages. -/
theorem preparesPrivate_iff (h : (machine ι).Reachable s) (t : ℕ) {ino off : ℕ}
    (hin : InRange ino off) : PreparesPrivate s t ino off ↔ t ≠ 0 := by
  have ht := (reachable_inv h).trees
  constructor
  · rintro hprep rfl
    rcases hres : prepareDirectAccessPage noFaults s.heap (s.root 0) 0 ino off with ⟨b, stores, res⟩
    obtain ⟨-, -, -, -, hzero⟩ :=
      prepare_shared noFaults ino off ht.heap (ht.root_ok 0) ht.initial ht.zero
    have hok : (prepareDirectAccessPage noFaults s.heap (s.root 0) 0 ino off).2.2 = .ok () :=
      prepare_ok ino off hin
    have hzero := hzero hok
    rw [hres] at hok hzero
    obtain rfl : res = .ok () := hok
    obtain ⟨id, hid, -⟩ := (hprep noFaults b stores hres).1 3 (by simp)
    exact absurd (hid.symm.trans hzero) (by simp)
  · intro hne faults b stores hres
    obtain ⟨-, hkept, hpriv⟩ := prepare_private faults ino off hne ht.heap (ht.root_ok t)
    have hread := ht.prepare_read faults t ino off
    rw [hres] at hkept hpriv hread
    exact ⟨hpriv rfl, hread, hkept⟩

end Runs

/-- After mounting. -/
def mounted (ι : Type*) : State ι where
  log := []
  masterTs := 0
  heap := ⟨0, fun _ => blankPage⟩
  root := fun _ => none
  latest := 0
  threads := fun _ => ⟨invalidTs, none, false, []⟩

/-- Right after mounting. -/
theorem mounted_reachable (ι : Type*) [DecidableEq ι] : (machine ι).Reachable (mounted ι) :=
  .init ⟨⟨rfl, rfl, rfl, rfl⟩, rfl, fun _ => rfl⟩

/-- A word is written and a checkpoint is made, where another page is prepared. -/
theorem preparesPrivate_iff_oneCommit : ∃ s, (machine Unit).Reachable s ∧ s.latest = 1 ∧
    InRange 1 4096 ∧ (PreparesPrivate s 1 1 4096 ↔ 1 ≠ 0) := by
  have h : ((machine Unit).run (fun _ _ => true) (mounted Unit)
      [.commit false [⟨1, 8, 0, 0, 7⟩], .makeCheckpoint ⟨none, noFaults, none, none⟩]).map
        State.latest = some 1 := by decide +kernel
  obtain ⟨s, hs, hlatest⟩ := Option.map_eq_some_iff.1 h
  have hreach : (machine Unit).Reachable s :=
    Machine.ReachableWith.run (fun _ _ _ => trivial) (mounted_reachable Unit) hs
  exact ⟨s, hreach, hlatest, by decide, preparesPrivate_iff hreach 1 (by decide)⟩

/-- Right after mounting, a page is prepared, and the leaf is the zero page. -/
theorem not_preparesPrivate_mounted : (machine Unit).Reachable (mounted Unit) ∧ InRange 1 0 ∧
    ¬PreparesPrivate (mounted Unit) 0 1 0 := by
  refine ⟨mounted_reachable Unit, by decide, fun h => ?_⟩
  obtain ⟨id, hid, -⟩ := (h noFaults _ _ rfl).1 6 (by decide)
  have hleaf : follow (prepareDirectAccessPage noFaults (mounted Unit).heap none 0 1 0).1.heap.child
      (prepareDirectAccessPage noFaults (mounted Unit).heap none 0 1 0).1.root
      ((pathOf 1 0).take 6) = some (.zero 0) := by decide +kernel
  exact absurd (hid.symm.trans hleaf) (by simp)

end Direct
end Checkpoint
end Sivfs
