/-
# Who holds the locks of the table

What a call changes, for all three algorithms.  Reads, validations and exceptions change
only the caller's own bookkeeping (`Quiet`); besides that a read or a write may take one
free lock (`Accessed`), and a write stores a word and its undo entry.  The call that ends a
transaction gives back the locks and empties the lists (`ended`).

`Owned` is the meaning of `lock_ownership`: thread ids are distinct, and a lock holds the
id of a thread exactly if it is in the `locks_held` of this thread.
-/

import Sivfs.Locktable.Calls

namespace Sivfs
namespace Locktable

open Call History UndoLog

variable {ι : Type} [DecidableEq ι] {cfg : Config} {s s' : Shared ι} {i j : ι} {l address value : ℕ}

namespace Shared

variable {f : Thread → Thread}

@[simp] theorem setThread_mem : (s.setThread i f).mem = s.mem := rfl
@[simp] theorem setThread_lockOwnership : (s.setThread i f).lockOwnership = s.lockOwnership := rfl
@[simp] theorem setThread_ts : (s.setThread i f).ts = s.ts := rfl
@[simp] theorem setThread_globalTs : (s.setThread i f).globalTs = s.globalTs := rfl
@[simp] theorem setThread_lastThrId : (s.setThread i f).lastThrId = s.lastThrId := rfl

/-- The thread is what it is set to. -/
@[simp] theorem setThread_self : (s.setThread i f).thread i = f (s.thread i) :=
  Function.update_self ..

/-- Other threads are what they were. -/
theorem setThread_of_ne (h : j ≠ i) : (s.setThread i f).thread j = s.thread j :=
  Function.update_of_ne h ..

/-- Two changes of one thread are one. -/
theorem setThread_setThread {g : Thread → Thread} :
    (s.setThread i f).setThread i g = s.setThread i (g ∘ f) := by
  simp [setThread]

/-- A thread that has been seen before keeps its id. -/
theorem getState_of_ne (h : (s.thread i).thrId ≠ 0) : s.getState i = s := if_neg h

/-- A new id concerns the thread that gets it. -/
theorem getState_of_other (h : j ≠ i) : (s.getState i).thread j = s.thread j := by
  rw [getState]
  split_ifs
  · exact setThread_of_ne (s := s) (f := fun _ => newThread s.lastThrId) h
  · rfl

/-- A call of `locktable_commit_update` starts with `locktable_get_state`. -/
theorem commitUpdate_getState (h : ((s.getState i).thread i).thrId ≠ 0) :
    s.locktableCommitUpdate cfg i = (s.getState i).locktableCommitUpdate cfg i := by
  rw [locktableCommitUpdate, locktableCommitUpdate, getState_of_ne h]

@[simp] theorem getState_mem : (s.getState i).mem = s.mem := by
  rw [getState]
  split_ifs <;> rfl

@[simp] theorem getState_lockOwnership : (s.getState i).lockOwnership = s.lockOwnership := by
  rw [getState]
  split_ifs <;> rfl

end Shared

/-! ### Validation -/

/-- The loop over the read set sets `aborted` if an entry is not valid any more. -/
theorem foldl_validateEntry (entries : List ReadEntry) :
    entries.foldl (fun s entry => s.validateEntry i entry) s =
      s.setThread i fun t =>
        { t with aborted := t.aborted || entries.any fun entry => !s.readValid i entry } := by
  induction entries generalizing s with
  | nil => simp [Shared.setThread]
  | cons entry entries ih =>
    rw [List.foldl_cons, ih, Shared.validateEntry]
    by_cases hv : s.readValid i entry = true
    · simp [hv]
    · have hv' : s.readValid i entry = false := Bool.eq_false_iff.2 hv
      simp only [hv', Bool.false_eq_true, if_false, Shared.setThread_setThread, List.any_cons,
        Bool.not_false, Bool.true_or, Bool.or_true]
      rfl

/-- A validation sets `aborted` if an entry of the read set is no longer valid. -/
theorem validateReadset_eq : s.validateReadset i =
    s.setThread i fun t =>
      { t with aborted := t.aborted || t.readset.any fun entry => !s.readValid i entry } := by
  rw [Shared.validateReadset, foldl_validateEntry]
  simp [Shared.setThread]

/-! ### Reads and writes -/

/-- Only the read set, `readset_validated_ts` and `aborted` of thread `i` differ. -/
structure Quiet (i : ι) (s s' : Shared ι) : Prop where
  mem : s'.mem = s.mem
  lockOwnership : s'.lockOwnership = s.lockOwnership
  lastThrId : s'.lastThrId = s.lastThrId
  others : ∀ j, j ≠ i → s'.thread j = s.thread j
  inTxn : (s'.thread i).inTxn = (s.thread i).inTxn
  thrId : (s'.thread i).thrId = (s.thread i).thrId
  locksHeld : (s'.thread i).locksHeld = (s.thread i).locksHeld
  writeset : (s'.thread i).writeset = (s.thread i).writeset

omit [DecidableEq ι] in
/-- Nothing has happened. -/
theorem Quiet.refl (s : Shared ι) : Quiet i s s :=
  ⟨rfl, rfl, rfl, fun _ _ => rfl, rfl, rfl, rfl, rfl⟩

/-- A change of the thread's read set, timestamps or flags goes unnoticed. -/
theorem Quiet.setThread {s₀ : Shared ι} {f : Thread → Thread} (h : Quiet i s₀ s)
    (hf : ∀ t, (f t).inTxn = t.inTxn ∧ (f t).thrId = t.thrId ∧ (f t).locksHeld = t.locksHeld ∧
      (f t).writeset = t.writeset) : Quiet i s₀ (s.setThread i f) where
  mem := h.mem
  lockOwnership := h.lockOwnership
  lastThrId := h.lastThrId
  others j hj := (Shared.setThread_of_ne hj).trans (h.others j hj)
  inTxn := by simp [(hf _).1, h.inTxn]
  thrId := by simp [(hf _).2.1, h.thrId]
  locksHeld := by simp [(hf _).2.2.1, h.locksHeld]
  writeset := by simp [(hf _).2.2.2, h.writeset]

section Keeps

variable {s₀ : Shared ι}

/-- A validation goes unnoticed by the others. -/
theorem keeps_locktableValidate : Keeps (Quiet i s₀) (locktableValidate cfg i) := by
  refine keeps_ite (keeps_pure _) (keeps_bind (keeps_modify fun s h => ?_) fun _ =>
    keeps_bind keeps_get fun _ => keeps_require _ _)
  rw [validateReadset_eq]
  exact h.setThread fun _ => ⟨rfl, rfl, rfl, rfl⟩

/-- So does a new entry of the read set, with the validation it may bring. -/
theorem keeps_locktableAddReadSetEntry {lockid ts : ℕ} :
    Keeps (Quiet i s₀) (locktableAddReadSetEntry cfg i lockid ts) := by
  refine keeps_bind keeps_get fun s => ?_
  have hpush : Keeps (Quiet i s₀) (modify fun s => s.setThread i fun t =>
      { t with readset := t.readset ++ [⟨lockid, ts⟩] } : Call (Shared ι) Exn Unit) :=
    keeps_modify fun _ h => h.setThread fun _ => ⟨rfl, rfl, rfl, rfl⟩
  split_ifs
  · exact keeps_bind keeps_locktableValidate fun _ => keeps_bind
      (keeps_modify fun _ h => h.setThread fun _ => ⟨rfl, rfl, rfl, rfl⟩) fun _ => hpush
  · exact hpush

end Keeps

/-- The same as a precondition. -/
theorem wp_locktableAddReadSetEntry {lockid ts : ℕ} :
    (locktableAddReadSetEntry cfg i lockid ts).wp (fun _ => Quiet i s) (fun _ => Quiet i s) s :=
  keeps_iff.1 keeps_locktableAddReadSetEntry s (.refl s)

/-- Thread `i` gets the lock `l`. -/
def Shared.take (s : Shared ι) (i : ι) (l : ℕ) : Shared ι :=
  { s with lockOwnership := Function.update s.lockOwnership l (s.thread i).thrId }.setThread i
    fun t => { t with locksHeld := t.locksHeld ++ [l] }

@[simp] theorem Shared.take_mem : (s.take i l).mem = s.mem := rfl

@[simp] theorem Shared.take_self : (s.take i l).thread i =
    { s.thread i with locksHeld := (s.thread i).locksHeld ++ [l] } := Shared.setThread_self

/-- Other threads hold what they held. -/
theorem Shared.take_of_ne (h : j ≠ i) : (s.take i l).thread j = s.thread j :=
  Shared.setThread_of_ne h

/-- The entry of the table says who took the lock. -/
theorem Shared.take_lockOwnership (l' : ℕ) : (s.take i l).lockOwnership l' =
    if l' = l then (s.thread i).thrId else s.lockOwnership l' :=
  Function.update_apply ..

/-- Thread `i` gives back the lock `l` and is left with `rest`. -/
def Shared.release (s : Shared ι) (i : ι) (l : ℕ) (rest : List ℕ) : Shared ι :=
  { s with lockOwnership := Function.update s.lockOwnership l 0 }.setThread i
    fun t => { t with locksHeld := rest }

@[simp] theorem Shared.release_self {rest : List ℕ} : (s.release i l rest).thread i =
    { s.thread i with locksHeld := rest } := Shared.setThread_self

/-- Other threads hold what they held. -/
theorem Shared.release_of_ne {rest : List ℕ} (h : j ≠ i) :
    (s.release i l rest).thread j = s.thread j :=
  Shared.setThread_of_ne h

/-- The entry of the table is free again. -/
theorem Shared.release_lockOwnership {rest : List ℕ} (l' : ℕ) :
    (s.release i l rest).lockOwnership l' = if l' = l then 0 else s.lockOwnership l' :=
  Function.update_apply ..

/-- Thread `i` has taken the lock `l`, which was free, or no lock. -/
def Accessed (i : ι) (l : ℕ) (s s' : Shared ι) : Prop :=
  Quiet i s s' ∨ s.lockOwnership l = 0 ∧ Quiet i (s.take i l) s'

/-- A thread keeps its id through an access. -/
theorem Accessed.thrId (h : Accessed i l s s') : (s'.thread i).thrId = (s.thread i).thrId := by
  rcases h with hq | ⟨-, hq⟩
  · exact hq.thrId
  · rw [hq.thrId, Shared.take_self]

/-- The lock is taken before the word is stored. -/
theorem Accessed.mem (h : Accessed i l s s') : s'.mem = s.mem := by
  rcases h with hq | ⟨-, hq⟩
  · exact hq.mem
  · rw [hq.mem, Shared.take_mem]

/-- No undo entry has been made yet. -/
theorem Accessed.writeset (h : Accessed i l s s') (j : ι) :
    (s'.thread j).writeset = (s.thread j).writeset := by
  by_cases hj : j = i
  · rcases h with hq | ⟨-, hq⟩
    · rw [hj, hq.writeset]
    · rw [hj, hq.writeset, Shared.take_self]
  · rcases h with hq | ⟨-, hq⟩
    · rw [hq.others j hj]
    · rw [hq.others j hj, Shared.take_of_ne hj]

/-- Other threads are as they were. -/
theorem Accessed.others (h : Accessed i l s s') (hj : j ≠ i) : s'.thread j = s.thread j := by
  rcases h with hq | ⟨-, hq⟩
  · exact hq.others j hj
  · rw [hq.others j hj, Shared.take_of_ne hj]

/-- **An access takes the lock if it is free.**  It returns if and only if it owns the
lock; when it throws, it may have taken the lock all the same. -/
theorem wp_locktableAccess : (locktableAccess cfg i address).wp
    (fun _ s' => Accessed i (cfg.addrToLock address) s s' ∧
      s'.lockOwnership (cfg.addrToLock address) = (s.thread i).thrId)
    (fun _ s' => Accessed i (cfg.addrToLock address) s s') s := by
  rw [locktableAccess, wp_bind, wp_get]
  split_ifs with hfree hown
  · simp only [wp_bind, wp_modify]
    refine wp_mono (wp_locktableAddReadSetEntry (s := s.take i (cfg.addrToLock address)))
      (fun _ s' h => ⟨.inr ⟨hfree, h⟩, ?_⟩) fun _ s' h => .inr ⟨hfree, h⟩
    rw [h.lockOwnership, Shared.take_lockOwnership, if_pos rfl]
  · exact ⟨.inl (.refl s), hown⟩
  · exact .inl ((Quiet.refl s).setThread fun _ => ⟨rfl, rfl, rfl, rfl⟩)

/-- The undo entry and the store of a write. -/
def Shared.store (s : Shared ι) (i : ι) (address value : ℕ) : Shared ι :=
  { s.setThread i fun t => { t with writeset := t.writeset ++ [(address, s.mem address)] } with
    mem := Function.update s.mem address value }

/-- Other threads are as they were. -/
theorem Shared.store_of_ne (h : j ≠ i) : (s.store i address value).thread j = s.thread j :=
  Function.update_of_ne h ..

/-- **A write takes the lock, records what was there and stores**, or throws. -/
theorem wp_locktableWrite : (locktableWrite cfg i address value).wp
    (fun _ s' => ∃ s₁, Accessed i (cfg.addrToLock address) (s.getState i) s₁ ∧
      s₁.lockOwnership (cfg.addrToLock address) = ((s.getState i).thread i).thrId ∧
      s' = s₁.store i address value)
    (fun _ s' => Accessed i (cfg.addrToLock address) (s.getState i) s') s := by
  rw [locktableWrite, wp_bind, wp_modify]
  refine wp_seq wp_locktableAccess fun _ s₁ h => ?_
  simp only [wp_bind, wp_modify]
  exact ⟨s₁, h.1, h.2, rfl⟩

/-- **A read with `LOCKTABLE_LOCKTABLE`** takes the lock and loads the word, or throws. -/
theorem wp_locktableRead_locking (halg : cfg.alg = .locktable) :
    (locktableRead cfg i address).wp
      (fun v s' => Accessed i (cfg.addrToLock address) (s.getState i) s' ∧
        s'.lockOwnership (cfg.addrToLock address) = ((s.getState i).thread i).thrId ∧
        v = s'.mem address)
      (fun _ s' => Accessed i (cfg.addrToLock address) (s.getState i) s') s := by
  rw [locktableRead, wp_bind, wp_modify, if_pos halg]
  refine wp_seq wp_locktableAccess fun _ s₁ h => ?_
  exact ⟨h.1, h.2, rfl⟩

/-- A read takes at most the lock of its word. -/
theorem wp_locktableRead : (locktableRead cfg i address).wp
    (fun _ s' => Accessed i (cfg.addrToLock address) (s.getState i) s')
    (fun _ s' => Accessed i (cfg.addrToLock address) (s.getState i) s') s := by
  by_cases halg : cfg.alg = .locktable
  · exact wp_mono (wp_locktableRead_locking halg) (fun _ _ h => h.1) fun _ _ h => h
  · rw [locktableRead, wp_bind, wp_modify, if_neg halg, wp_bind, wp_get]
    split_ifs
    · exact .inl ((Quiet.refl _).setThread fun _ => ⟨rfl, rfl, rfl, rfl⟩)
    · exact wp_bind.2
        (wp_mono wp_locktableAddReadSetEntry (fun _ _ h => .inl h) fun _ _ h => .inl h)

/-! ### The end of a transaction -/

/-- What the call that ends a transaction of thread `i` leaves. -/
structure Ended (i : ι) (aborted : Bool) (s s' : Shared ι) : Prop where
  mem : s'.mem = if aborted then rollback (s.thread i).writeset s.mem else s.mem
  lockOwnership : ∀ l, s'.lockOwnership l =
    if l ∈ (s.thread i).locksHeld then 0 else s.lockOwnership l
  lastThrId : s'.lastThrId = s.lastThrId
  others : ∀ j, j ≠ i → s'.thread j = s.thread j
  inTxn : (s'.thread i).inTxn = true
  thrId : (s'.thread i).thrId = (s.thread i).thrId
  locksHeld : (s'.thread i).locksHeld = []
  readset : (s'.thread i).readset = []
  writeset : (s'.thread i).writeset = []
  aborted : (s'.thread i).aborted = false

omit [DecidableEq ι] in
/-- The loop over `locks_held` frees the locks of the list. -/
theorem foldl_unlockTableEntry (locks : List ℕ) :
    (locks.foldl (fun s lockid => s.unlockTableEntry cfg i lockid) s).mem = s.mem ∧
      (locks.foldl (fun s lockid => s.unlockTableEntry cfg i lockid) s).lastThrId = s.lastThrId ∧
      (locks.foldl (fun s lockid => s.unlockTableEntry cfg i lockid) s).thread = s.thread ∧
      ∀ l, (locks.foldl (fun s lockid => s.unlockTableEntry cfg i lockid) s).lockOwnership l =
        if l ∈ locks then 0 else s.lockOwnership l := by
  induction locks generalizing s with
  | nil => exact ⟨rfl, rfl, rfl, fun l => (if_neg List.not_mem_nil).symm⟩
  | cons lockid locks ih =>
    obtain ⟨hmem, hlast, hthread, howner⟩ := ih (s := s.unlockTableEntry cfg i lockid)
    refine ⟨hmem, hlast, hthread, fun l => (howner l).trans ?_⟩
    rcases eq_or_ne l lockid with rfl | hne
    · simp [Shared.unlockTableEntry]
    · simp [Shared.unlockTableEntry, hne]

/-- The validation before a commit sets `aborted` if a read is not valid any more. -/
theorem validatePickTs_spec : Quiet i s (s.validatePickTs cfg i) ∧
    ((s.validatePickTs cfg i).thread i).readset = [] ∧
    (((s.validatePickTs cfg i).thread i).aborted = true ↔ (s.thread i).aborted = true ∨
      cfg.alg ≠ .locktable ∧ ∃ entry ∈ (s.thread i).readset, s.readValid i entry = false) := by
  have hvalidate : Quiet i s (s.commitValidate cfg i) ∧
      (((s.commitValidate cfg i).thread i).aborted = true ↔ (s.thread i).aborted = true ∨
        cfg.alg ≠ .locktable ∧ ∃ entry ∈ (s.thread i).readset, s.readValid i entry = false) := by
    rw [Shared.commitValidate, validateReadset_eq]
    split_ifs with halg
    · exact ⟨.refl s, by simp [halg]⟩
    · exact ⟨(Quiet.refl s).setThread fun _ => ⟨rfl, rfl, rfl, rfl⟩, by simp [halg]⟩
  have hpick (t : Shared ι) (h : Quiet i s t) :
      Quiet i s (t.pickTs cfg i) ∧ ((t.pickTs cfg i).thread i).aborted = (t.thread i).aborted := by
    rw [Shared.pickTs]
    cases cfg.alg with
    | locktable => exact ⟨h, rfl⟩
    | tinystm =>
      have hset : Quiet i s (t.setThread i fun u => { u with commitTs := t.globalTs + 1 }) :=
        h.setThread fun _ => ⟨rfl, rfl, rfl, rfl⟩
      exact ⟨⟨hset.mem, hset.lockOwnership, hset.lastThrId, hset.others, hset.inTxn, hset.thrId,
        hset.locksHeld, hset.writeset⟩, by simp [Shared.setThread]⟩
    | silo => exact ⟨h.setThread fun _ => ⟨rfl, rfl, rfl, rfl⟩, by simp [Shared.setThread]⟩
  obtain ⟨hq, habort⟩ := hpick _ hvalidate.1
  refine ⟨hq.setThread fun _ => ⟨rfl, rfl, rfl, rfl⟩, by simp [Shared.validatePickTs], ?_⟩
  rw [Shared.validatePickTs, Shared.setThread_self]
  exact habort ▸ hvalidate.2

/-- Starting a transaction changes `readset_validated_ts` only. -/
theorem Ended.startTxn {aborted : Bool} (h : Ended i aborted s s') :
    Ended i aborted s (s'.startTxn cfg i) := by
  rw [Shared.startTxn]
  split_ifs
  · exact ⟨h.mem, h.lockOwnership, h.lastThrId,
      fun j hj => (Shared.setThread_of_ne hj).trans (h.others j hj), by simp [h.inTxn],
      by simp [h.thrId], by simp [h.locksHeld], by simp [h.readset], by simp [h.writeset],
      by simp [h.aborted]⟩
  · exact h

/-- **The call that ends a transaction** takes back the writes if it aborts, gives back
every lock and empties the lists.  It aborts if `aborted` is set or a read is not valid any
more. -/
theorem ended (hid : (s.thread i).thrId ≠ 0) (hin : (s.thread i).inTxn = true) :
    Ended i (s.locktableCommitUpdate cfg i).1 s (s.locktableCommitUpdate cfg i).2 ∧
      ((s.locktableCommitUpdate cfg i).1 = true ↔ (s.thread i).aborted = true ∨
        cfg.alg ≠ .locktable ∧ ∃ entry ∈ (s.thread i).readset, s.readValid i entry = false) := by
  obtain ⟨hq, hreadset, habort⟩ := validatePickTs_spec (s := s) (i := i)
  rw [Shared.locktableCommitUpdate, Shared.getState_of_ne hid]
  simp only [hin, if_true]
  refine ⟨Ended.startTxn ?_, habort⟩
  generalize s.validatePickTs cfg i = s₁ at hq hreadset
  -- what `undoOrKeep` leaves
  have hundo : ((s₁.undoOrKeep i).mem =
      if (s₁.thread i).aborted then rollback (s.thread i).writeset s.mem else s.mem) ∧
      (s₁.undoOrKeep i).lockOwnership = s.lockOwnership ∧
      (s₁.undoOrKeep i).lastThrId = s.lastThrId ∧
      (∀ j, j ≠ i → (s₁.undoOrKeep i).thread j = s.thread j) ∧
      (s₁.undoOrKeep i).thread i = { s₁.thread i with writeset := [], aborted := false } := by
    rw [Shared.undoOrKeep]
    split_ifs with ha
    · refine ⟨by simp [Shared.applyUndoEntries, hq.writeset, hq.mem], hq.lockOwnership,
        hq.lastThrId, fun j hj => ?_, by simp [Shared.applyUndoEntries, Shared.setThread]⟩
      rw [Shared.setThread_of_ne hj, Shared.applyUndoEntries, Shared.setThread_of_ne hj]
      exact hq.others j hj
    · refine ⟨hq.mem, hq.lockOwnership, hq.lastThrId,
        fun j hj => (Shared.setThread_of_ne hj).trans (hq.others j hj), ?_⟩
      simp [Bool.eq_false_iff.2 ha]
  obtain ⟨hmem, howner, hlast, hothers, hthread⟩ := hundo
  obtain ⟨hmem', hlast', hthread', howner'⟩ := foldl_unlockTableEntry (i := i)
    (s := s₁.undoOrKeep i) ((s₁.undoOrKeep i).thread i).locksHeld
  have hlocks : ((s₁.undoOrKeep i).thread i).locksHeld = (s.thread i).locksHeld := by
    rw [hthread, ← hq.locksHeld]
  refine ⟨hmem'.trans hmem, fun l => ?_, hlast'.trans hlast, fun j hj => ?_, ?_, ?_, ?_, ?_, ?_, ?_⟩
  · exact (howner' l).trans (by rw [hlocks, howner])
  · rw [Shared.unlockAll, Shared.setThread_of_ne hj, hthread']
    exact hothers j hj
  all_goals rw [Shared.unlockAll, Shared.setThread_self, hthread', hthread]
  · exact hq.inTxn.trans hin
  · exact hq.thrId
  · exact hreadset

/-- The call that opens the first transaction of a thread. -/
theorem opened (hid : (s.thread i).thrId ≠ 0) (hin : (s.thread i).inTxn = false) :
    (s.locktableCommitUpdate cfg i).1 = false ∧
      ∃ validatedTs, (s.locktableCommitUpdate cfg i).2 = s.setThread i fun t =>
        { t with inTxn := true, readsetValidatedTs := validatedTs } := by
  rw [Shared.locktableCommitUpdate, Shared.getState_of_ne hid]
  simp only [hin, Bool.false_eq_true, if_false, Shared.startTxn, true_and]
  split_ifs
  · exact ⟨s.globalTs, by rw [Shared.setThread_setThread]; rfl⟩
  · exact ⟨(s.thread i).readsetValidatedTs, by simp [Shared.setThread]⟩

/-- `locktable_abort` clears the flag that `locktable_commit_update` looks at. -/
theorem System.abort_shared (s : System ι) : (s.abort i).shared =
    (s.shared.getState i).setThread i fun t => { t with aborted := false } := rfl

/-! ### Owners -/

/-- **What `lock_ownership` means.** -/
structure Owned (s : Shared ι) : Prop where
  /-- 0 is not a valid thread id. -/
  pos : 0 < s.lastThrId
  id_lt : ∀ i, (s.thread i).thrId < s.lastThrId
  id_inj : ∀ i j, (s.thread i).thrId = (s.thread j).thrId → (s.thread i).thrId ≠ 0 → i = j
  /-- A thread without a state has called nothing yet. -/
  fresh : ∀ i, (s.thread i).thrId = 0 → s.thread i = newThread 0
  held : ∀ i l, l ∈ (s.thread i).locksHeld ↔
    (s.thread i).thrId ≠ 0 ∧ s.lockOwnership l = (s.thread i).thrId
  owner : ∀ l, s.lockOwnership l ≠ 0 → ∃ i, l ∈ (s.thread i).locksHeld

namespace Owned

omit [DecidableEq ι] in
/-- At the start nobody has a state, and every lock is free. -/
theorem of_start (howner : ∀ l, s.lockOwnership l = 0) (hlast : s.lastThrId = 1)
    (hthread : ∀ i, s.thread i = newThread 0) : Owned s where
  pos := by omega
  id_lt i := by
    rw [hthread, hlast]
    exact Nat.one_pos
  id_inj i _ _ hi := by
    rw [hthread] at hi
    exact absurd rfl hi
  fresh i _ := hthread i
  held i l := by
    rw [hthread]
    simp [newThread]
  owner l hl := absurd (howner l) hl

omit [DecidableEq ι] in
/-- A lock has one holder. -/
theorem holder_eq (h : Owned s) (hi : l ∈ (s.thread i).locksHeld)
    (hj : l ∈ (s.thread j).locksHeld) :
    i = j := by
  obtain ⟨hid, hi⟩ := (h.held i l).1 hi
  exact h.id_inj i j (hi.symm.trans ((h.held j l).1 hj).2) hid

omit [DecidableEq ι] in
/-- What the table says is free, nobody holds. -/
theorem not_held_of_free (h : Owned s) (hl : s.lockOwnership l = 0) :
    l ∉ (s.thread i).locksHeld := fun hi =>
  ((h.held i l).1 hi).1 (((h.held i l).1 hi).2.symm.trans hl)

omit [DecidableEq ι] in
/-- What else there is in the states does not matter. -/
theorem congr (h : Owned s) (hlast : s'.lastThrId = s.lastThrId)
    (howner : s'.lockOwnership = s.lockOwnership)
    (hthrId : ∀ j, (s'.thread j).thrId = (s.thread j).thrId)
    (hlocks : ∀ j, (s'.thread j).locksHeld = (s.thread j).locksHeld)
    (hfresh : ∀ j, (s.thread j).thrId = 0 → s'.thread j = s.thread j) : Owned s' where
  pos := hlast ▸ h.pos
  id_lt j := by
    rw [hthrId, hlast]
    exact h.id_lt j
  id_inj j k := by
    rw [hthrId, hthrId]
    exact h.id_inj j k
  fresh j hj := by
    rw [hthrId] at hj
    rw [hfresh j hj, h.fresh j hj]
  held j l := by
    rw [hthrId, hlocks, howner]
    exact h.held j l
  owner l := by
    simp only [hlocks, howner]
    exact h.owner l

/-- A thread that has a state changes it, but neither its id nor its locks. -/
theorem setThread (h : Owned s) (hid : (s.thread i).thrId ≠ 0) {f : Thread → Thread}
    (hthrId : (f (s.thread i)).thrId = (s.thread i).thrId)
    (hlocks : (f (s.thread i)).locksHeld = (s.thread i).locksHeld) : Owned (s.setThread i f) := by
  refine h.congr rfl rfl (fun j => ?_) (fun j => ?_) fun j hj => ?_
  · rcases eq_or_ne j i with rfl | hji
    · simpa using hthrId
    · rw [Shared.setThread_of_ne hji]
  · rcases eq_or_ne j i with rfl | hji
    · simpa using hlocks
    · rw [Shared.setThread_of_ne hji]
  · refine Shared.setThread_of_ne ?_
    rintro rfl
    exact hid hj

/-- A thread that calls has an id. -/
theorem getState_thrId (h : Owned s) : ((s.getState i).thread i).thrId ≠ 0 := by
  rw [Shared.getState]
  split_ifs with hid
  · simpa [Shared.setThread, newThread] using Nat.pos_iff_ne_zero.1 h.pos
  · exact hid

/-- A new state holds what the thread held without it, which is nothing. -/
theorem getState_thread (h : Owned s) (j : ι) :
    ((s.getState i).thread j).locksHeld = (s.thread j).locksHeld ∧
      ((s.getState i).thread j).writeset = (s.thread j).writeset ∧
      ((s.getState i).thread j).inTxn = (s.thread j).inTxn := by
  rw [Shared.getState]
  split_ifs with hid
  · rcases eq_or_ne j i with rfl | hj
    · simp [h.fresh _ hid, Shared.setThread, newThread]
    · simp [Shared.setThread, Function.update_of_ne hj]
  · exact ⟨rfl, rfl, rfl⟩

/-- A new thread id is larger than all others. -/
theorem getState (h : Owned s) : Owned (s.getState i) := by
  by_cases hid : (s.thread i).thrId = 0
  · have hlocks (j : ι) := (h.getState_thread (i := i) j).1
    have hlast : (s.getState i).lastThrId = s.lastThrId + 1 := by simp [Shared.getState, hid]
    have howner : (s.getState i).lockOwnership = s.lockOwnership := by simp [Shared.getState, hid]
    have hself : (s.getState i).thread i = newThread s.lastThrId := by
      simp [Shared.getState, hid, Shared.setThread]
    have hother (j : ι) (hj : j ≠ i) : (s.getState i).thread j = s.thread j := by
      simp [Shared.getState, hid, Shared.setThread, Function.update_of_ne hj]
    have hnew (j : ι) : (s.thread j).thrId ≠ s.lastThrId := Nat.ne_of_lt (h.id_lt j)
    have hselfId : ((s.getState i).thread i).thrId = s.lastThrId := by rw [hself, newThread]
    refine ⟨by omega, fun j => ?_, fun j k hjk hj => ?_, fun j hj => ?_, fun j l => ?_,
      fun l hl => ?_⟩
    · rcases eq_or_ne j i with rfl | hji
      · rw [hselfId, hlast]
        exact Nat.lt_succ_self _
      · rw [hother j hji, hlast]
        exact Nat.lt_succ_of_lt (h.id_lt j)
    · by_cases hji : j = i <;> by_cases hki : k = i
      · exact hji.trans hki.symm
      · rw [hji, hselfId, hother k hki] at hjk
        exact absurd hjk.symm (hnew k)
      · rw [hki, hselfId, hother j hji] at hjk
        exact absurd hjk (hnew j)
      · rw [hother j hji, hother k hki] at hjk
        exact h.id_inj j k hjk (hother j hji ▸ hj)
    · rcases eq_or_ne j i with rfl | hji
      · exact absurd (hselfId ▸ hj) (Nat.pos_iff_ne_zero.1 h.pos)
      · rw [hother j hji] at hj ⊢
        exact h.fresh j hj
    · rw [hlocks j, howner]
      rcases eq_or_ne j i with rfl | hji
      · rw [h.fresh j hid, hselfId]
        refine iff_of_false List.not_mem_nil fun hl => ?_
        -- no lock holds an id that has not been given yet
        obtain ⟨k, hk⟩ := h.owner l (hl.2 ▸ hl.1)
        exact hnew k (((h.held k l).1 hk).2.symm.trans hl.2)
      · rw [hother j hji]
        exact h.held j l
    · obtain ⟨k, hk⟩ := h.owner l (howner ▸ hl)
      exact ⟨k, (hlocks k).symm ▸ hk⟩
  · rwa [Shared.getState_of_ne hid]

omit [DecidableEq ι] in
/-- What goes unnoticed leaves the owners as they are. -/
theorem quiet (h : Owned s) (hid : (s.thread i).thrId ≠ 0) (hq : Quiet i s s') : Owned s' := by
  refine h.congr hq.lastThrId hq.lockOwnership (fun j => ?_) (fun j => ?_) fun j hj => ?_
  · by_cases hji : j = i
    · rw [hji, hq.thrId]
    · rw [hq.others j hji]
  · by_cases hji : j = i
    · rw [hji, hq.locksHeld]
    · rw [hq.others j hji]
  · refine hq.others j ?_
    rintro rfl
    exact hid hj

/-- A free lock goes to a thread. -/
theorem take (h : Owned s) (hid : (s.thread i).thrId ≠ 0) (hfree : s.lockOwnership l = 0) :
    Owned (s.take i l) := by
  have hself : ((s.take i l).thread i).locksHeld = (s.thread i).locksHeld ++ [l] := by
    rw [Shared.take_self]
  have hother (j : ι) (hj : j ≠ i) : (s.take i l).thread j = s.thread j := Shared.take_of_ne hj
  have hthrId (j : ι) : ((s.take i l).thread j).thrId = (s.thread j).thrId := by
    by_cases hj : j = i
    · rw [hj, Shared.take_self]
    · rw [hother j hj]
  have howner (l' : ℕ) := Shared.take_lockOwnership (s := s) (i := i) (l := l) l'
  refine ⟨h.pos, fun j => hthrId j ▸ h.id_lt j, fun j k => ?_, fun j hj => ?_, fun j l' => ?_,
    fun l' hl' => ?_⟩
  · rw [hthrId, hthrId]
    exact h.id_inj j k
  · rw [hthrId] at hj
    rw [hother j fun hji => hid (hji ▸ hj)]
    exact h.fresh j hj
  · rw [hthrId, howner]
    by_cases hji : j = i
    · rw [hji, hself, List.mem_append, List.mem_singleton, h.held i l']
      by_cases hl : l' = l
      · simp [hl, hid]
      · simp [hl]
    · rw [hother j hji, h.held j l']
      by_cases hl : l' = l
      · rw [if_pos hl, hl, hfree]
        exact iff_of_false (fun hj => hj.1 hj.2.symm) fun hj => hji (h.id_inj i j hj.2 hid).symm
      · rw [if_neg hl]
  · by_cases hl : l' = l
    · exact ⟨i, by simp [hl]⟩
    · rw [howner, if_neg hl] at hl'
      obtain ⟨k, hk⟩ := h.owner l' hl'
      refine ⟨k, ?_⟩
      by_cases hki : k = i
      · rw [hki, hself]
        exact List.mem_append_left _ (hki ▸ hk)
      · rwa [hother k hki]

/-- The first lock of a thread is given back. -/
theorem release (h : Owned s) {rest : List ℕ} (hid : (s.thread i).thrId ≠ 0)
    (hlocks : (s.thread i).locksHeld = l :: rest) (hnodup : (l :: rest).Nodup) :
    Owned (s.release i l rest) := by
  have hself : ((s.release i l rest).thread i).locksHeld = rest := by rw [Shared.release_self]
  have hother (j : ι) (hj : j ≠ i) : (s.release i l rest).thread j = s.thread j :=
    Shared.release_of_ne hj
  have hthrId (j : ι) : ((s.release i l rest).thread j).thrId = (s.thread j).thrId := by
    by_cases hj : j = i
    · rw [hj, Shared.release_self]
    · rw [hother j hj]
  have howner (l' : ℕ) : (s.release i l rest).lockOwnership l' =
      if l' = l then 0 else s.lockOwnership l' := Shared.release_lockOwnership l'
  have hl : l ∈ (s.thread i).locksHeld := hlocks ▸ List.mem_cons_self ..
  refine ⟨h.pos, fun j => hthrId j ▸ h.id_lt j, fun j k => ?_, fun j hj => ?_, fun j l' => ?_,
    fun l' hl' => ?_⟩
  · rw [hthrId, hthrId]
    exact h.id_inj j k
  · rw [hthrId] at hj
    rw [hother j fun hji => hid (hji ▸ hj)]
    exact h.fresh j hj
  · rw [hthrId, howner]
    by_cases hl' : l' = l
    · rw [if_pos hl']
      refine iff_of_false (fun hmem => ?_) fun hno => hno.1 hno.2.symm
      by_cases hj : j = i
      · rw [hj, hself, hl'] at hmem
        exact (List.nodup_cons.1 hnodup).1 hmem
      · rw [hother j hj, hl'] at hmem
        exact hj (h.holder_eq hmem hl)
    · rw [if_neg hl', ← h.held j l']
      by_cases hj : j = i
      · rw [hj, hself, hlocks]
        exact (List.mem_cons.trans (or_iff_right hl')).symm
      · rw [hother j hj]
  · rw [howner] at hl'
    have hne : l' ≠ l := by
      rintro rfl
      exact hl' (if_pos rfl)
    rw [if_neg hne] at hl'
    obtain ⟨j, hj⟩ := h.owner l' hl'
    refine ⟨j, ?_⟩
    by_cases hji : j = i
    · rw [hji, hself]
      rw [hji, hlocks] at hj
      exact (List.mem_cons.1 hj).resolve_left hne
    · rwa [hother j hji]

/-- An access makes the thread an owner, or leaves it one. -/
theorem accessed (h : Owned s) (hid : (s.thread i).thrId ≠ 0) (ha : Accessed i l s s') :
    Owned s' := by
  rcases ha with hq | ⟨hfree, hq⟩
  · exact h.quiet hid hq
  · exact (h.take hid hfree).quiet (by simpa using hid) hq

omit [DecidableEq ι] in
/-- A thread in a transaction has a state. -/
theorem thrId_of_inTxn (h : Owned s) (hin : (s.thread i).inTxn = true) :
    (s.thread i).thrId ≠ 0 := by
  intro hid
  rw [h.fresh i hid, newThread] at hin
  cases hin

/-- A store changes no owner. -/
theorem store (h : Owned s) (hid : (s.thread i).thrId ≠ 0) : Owned (s.store i address value) :=
  (h.setThread (f := fun t => { t with writeset := t.writeset ++ [(address, s.mem address)] }) hid
    rfl rfl).congr rfl rfl (fun _ => rfl) (fun _ => rfl) fun _ _ => rfl

omit [DecidableEq ι] in
/-- The locks of a transaction that ends are free. -/
theorem ended {aborted : Bool} (h : Owned s) (hid : (s.thread i).thrId ≠ 0)
    (he : Ended i aborted s s') : Owned s' := by
  have hthrId (j : ι) : (s'.thread j).thrId = (s.thread j).thrId := by
    by_cases hj : j = i
    · rw [hj, he.thrId]
    · rw [he.others j hj]
  refine ⟨he.lastThrId ▸ h.pos, fun j => ?_, fun j k => ?_, fun j hj => ?_, fun j l => ?_,
    fun l hl => ?_⟩
  · rw [hthrId, he.lastThrId]
    exact h.id_lt j
  · rw [hthrId, hthrId]
    exact h.id_inj j k
  · rw [hthrId] at hj
    rw [he.others j fun hji => hid (hji ▸ hj)]
    exact h.fresh j hj
  · rw [hthrId, he.lockOwnership]
    by_cases hji : j = i
    · rw [hji, he.locksHeld]
      refine iff_of_false List.not_mem_nil fun hl => ?_
      split_ifs at hl with hmem
      · exact hl.1 hl.2.symm
      · exact hmem ((h.held i l).2 hl)
    · rw [he.others j hji]
      split_ifs with hmem
      · exact iff_of_false (fun hj => hji (h.holder_eq hj hmem)) fun hj => hj.1 hj.2.symm
      · exact h.held j l
  · rw [he.lockOwnership] at hl
    split_ifs at hl with hmem
    · exact absurd rfl hl
    · obtain ⟨k, hk⟩ := h.owner l hl
      refine ⟨k, ?_⟩
      rw [he.others k fun hki => hmem (hki ▸ hk)]
      exact hk

end Owned

end Locktable
end Sivfs
