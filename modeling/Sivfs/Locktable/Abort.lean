/-
# Explicit aborts

`locktable_abort` clears `aborted` before it throws, and `locktable_commit_update` takes the
writes of a transaction back only if `aborted` is set.  A transaction that calls
`locktable_abort` is therefore rolled back exactly if the validation in
`locktable_commit_update` sets the flag again (`abort_rollsBack_iff`): never with
`LOCKTABLE_LOCKTABLE`, which validates nothing, and with the other two if and only if a word
that it read has changed or is being changed.

What the words held before is recorded in `System.pre`, straight from memory.  The undo
entries agree with it (`Recorded`), for all three algorithms.
-/

import Sivfs.Locktable.Locks

namespace Sivfs
namespace Locktable

open Call History UndoLog

variable {ι : Type} [DecidableEq ι] {cfg : Config} {s s' : System ι} {i j : ι} {address value : ℕ}

/-! ### The undo entries -/

/-- The oldest undo entry of a word is what the word held before the transaction. -/
structure Recorded (s : System ι) : Prop where
  owned : Owned s.shared
  pre : ∀ i a, (s.shared.thread i).writeset.lookup a = s.pre i a

namespace Recorded

omit [DecidableEq ι] in
/-- Nothing is written and nothing is to be undone. -/
theorem of_init (h : Init s) : Recorded s := by
  obtain ⟨howner, hlast, hthread, -, -, hpre, -⟩ := h
  exact ⟨.of_start howner hlast hthread, fun i a => by rw [hthread, hpre]; rfl⟩

/-- A new id changes no word. -/
theorem getState (h : Recorded s) : Recorded { s with shared := s.shared.getState i } :=
  ⟨h.owned.getState, fun j a => by rw [(h.owned.getState_thread j).2.1, h.pre j a]⟩

/-- An access of one thread leaves the undo entries of all as they are. -/
theorem accessed (h : Recorded s) {l : ℕ} {s' : Shared ι}
    (ha : Accessed i l (s.shared.getState i) s') : Recorded { s with shared := s' } :=
  ⟨h.owned.getState.accessed h.owned.getState_thrId ha, fun j a => by
    rw [ha.writeset j, (h.owned.getState_thread j).2.1, h.pre j a]⟩

/-- A read makes no undo entry. -/
theorem read (h : Recorded s) : Recorded (s.read cfg i address) :=
  run_of_wp wp_locktableRead
    (fun _ _ ha => ⟨(h.accessed ha).owned, (h.accessed ha).pre⟩) fun _ _ ha => h.accessed ha

/-- A write records the word on both sides. -/
theorem write (h : Recorded s) : Recorded (s.write cfg i address value) := by
  refine run_of_wp wp_locktableWrite (fun _ s' hw => ?_) fun _ _ ha => h.accessed ha
  obtain ⟨s₁, ha, -, rfl⟩ := hw
  have h' := h.accessed ha
  refine ⟨h'.owned.store (ha.thrId ▸ h.owned.getState_thrId), fun j a => ?_⟩
  by_cases hj : j = i
  · have hmem : s₁.mem address = s.shared.mem address := by rw [ha.mem, Shared.getState_mem]
    simp only [hj, Function.update_self, Shared.store, Shared.setThread_self, lookup_snoc, hmem]
    rw [h'.pre i a, Function.update_apply]
    by_cases haddr : a = address
    · simp [haddr]
    · simp [haddr]
  · simp only [Function.update_of_ne hj, Shared.store, Shared.setThread_of_ne hj]
    exact h'.pre j a

/-- A thread may change its flags and timestamps. -/
theorem setThread (h : Recorded s) (hid : (s.shared.thread i).thrId ≠ 0) {f : Thread → Thread}
    (hf : ∀ t, (f t).thrId = t.thrId ∧ (f t).locksHeld = t.locksHeld ∧
      (f t).writeset = t.writeset) :
    Recorded { s with shared := s.shared.setThread i f } := by
  refine ⟨h.owned.setThread hid (hf _).1 (hf _).2.1, fun j a => ?_⟩
  by_cases hj : j = i
  · simp only [hj, Shared.setThread_self, (hf _).2.2]
    exact h.pre i a
  · rw [Shared.setThread_of_ne hj]
    exact h.pre j a

/-- Behind a commit call the thread has no undo entries, and no words to restore. -/
theorem commitUpdate (h : Recorded s) : Recorded (s.commitUpdate cfg i) := by
  rw [System.commitUpdate]
  by_cases hin : (s.shared.thread i).inTxn = true
  · have hid := h.owned.thrId_of_inTxn hin
    obtain ⟨he, -⟩ := ended hid hin
    simp only [hin, if_true]
    refine ⟨h.owned.ended hid he, fun j a => ?_⟩
    by_cases hj : j = i
    · simp only [hj, Function.update_self, he.writeset]
      rfl
    · simp only [Function.update_of_ne hj, he.others j hj]
      exact h.pre j a
  · have hin' : ((s.shared.getState i).thread i).inTxn = false := by
      rw [(h.owned.getState_thread i).2.2]
      exact Bool.eq_false_iff.2 hin
    obtain ⟨-, validatedTs, ho⟩ := opened h.owned.getState_thrId hin'
    rw [if_neg hin, Shared.commitUpdate_getState h.owned.getState_thrId, ho]
    exact h.getState.setThread h.owned.getState_thrId fun _ => ⟨rfl, rfl, rfl⟩

/-- `abort` only sets flags. -/
theorem abort (h : Recorded s) : Recorded (s.abort i) :=
  h.getState.setThread (f := fun t => { t with aborted := false }) h.owned.getState_thrId
    fun _ => ⟨rfl, rfl, rfl⟩

/-- One lemma for each call. -/
theorem step (h : Recorded s) (a : Act ι) : Recorded (step cfg s a) := by
  cases a with
  | read i address => exact h.read
  | write i address value => exact h.write
  | commitUpdate i => exact h.commitUpdate
  | abort i => exact h.abort

/-- **The undo entries are those of the words before the transaction**, in every state reached. -/
theorem of_reachable (hs : (calls cfg ι).Reachable s) : Recorded s := by
  refine hs.invariant (fun t (ht : Init t) => of_init ht) fun s a s' _ h hstep => ?_
  obtain rfl := Option.some.inj hstep
  exact h.step a

end Recorded

/-! ### Calls of other threads -/

/-- **A call changes the state of its own thread only.** -/
theorem step_thread (h : Recorded s) {a : Act ι} (ha : a.thread ≠ i) :
    (step cfg s a).shared.thread i = s.shared.thread i := by
  have hget : (s.shared.getState a.thread).thread i = s.shared.thread i :=
    Shared.getState_of_other ha.symm
  have hset (f : Thread → Thread) :
      ((s.shared.getState a.thread).setThread a.thread f).thread i = s.shared.thread i :=
    (Shared.setThread_of_ne ha.symm).trans hget
  have haccessed {l : ℕ} {t : Shared ι}
      (hacc : Accessed a.thread l (s.shared.getState a.thread) t) :
      t.thread i = s.shared.thread i := (hacc.others ha.symm).trans hget
  cases a with
  | read j address =>
    exact run_of_wp (P := fun t : System ι => t.shared.thread i = _) wp_locktableRead
      (fun _ _ hacc => haccessed hacc) fun _ _ hacc => haccessed hacc
  | write j address value =>
    refine run_of_wp (P := fun t : System ι => t.shared.thread i = _) wp_locktableWrite
      (fun _ _ hw => ?_) fun _ _ hacc => haccessed hacc
    obtain ⟨s₁, hacc, -, rfl⟩ := hw
    exact (Shared.store_of_ne ha.symm).trans (haccessed hacc)
  | commitUpdate j =>
    rw [step, System.commitUpdate]
    by_cases hin : (s.shared.thread j).inTxn = true
    · simp only [hin, if_true]
      exact (ended (h.owned.thrId_of_inTxn hin) hin).1.others i ha.symm
    · have hin' : ((s.shared.getState j).thread j).inTxn = false := by
        rw [(h.owned.getState_thread j).2.2]
        exact Bool.eq_false_iff.2 hin
      obtain ⟨-, validatedTs, ho⟩ := opened h.owned.getState_thrId hin'
      rw [if_neg hin, Shared.commitUpdate_getState h.owned.getState_thrId, ho]
      exact hset fun t => { t with inTxn := true, readsetValidatedTs := validatedTs }
  | abort j => exact hset fun t => { t with aborted := false }

/-- While only other threads call, the state of a thread stays. -/
theorem runs_thread (h : Recorded s)
    (hother : (calls cfg ι).RunsWith (fun _ a => a.thread ≠ i) s s') :
    Recorded s' ∧ s'.shared.thread i = s.shared.thread i := by
  induction hother with
  | refl => exact ⟨h, rfl⟩
  | step a _ ha hstep ih =>
    obtain rfl := Option.some.inj hstep
    exact ⟨ih.1.step a, (step_thread ih.1 ha).trans ih.2⟩

/-! ### Main result -/

/-- **The transaction of thread `i` is rolled back** by its call of `locktable_commit_update`:
the call reports it, every word that it wrote holds what it held before, its lists are
empty, and every lock that it held is free. -/
structure RolledBack (cfg : Config) (s : System ι) (i : ι) : Prop where
  aborted : (s.shared.locktableCommitUpdate cfg i).1 = true
  words : ∀ a v, s.pre i a = some v → (s.shared.locktableCommitUpdate cfg i).2.mem a = v
  writeset : ((s.shared.locktableCommitUpdate cfg i).2.thread i).writeset = []
  readset : ((s.shared.locktableCommitUpdate cfg i).2.thread i).readset = []
  locksHeld : ((s.shared.locktableCommitUpdate cfg i).2.thread i).locksHeld = []
  released : ∀ l, s.shared.lockOwnership l = (s.shared.thread i).thrId →
    (s.shared.locktableCommitUpdate cfg i).2.lockOwnership l = 0

/-- A call of `locktable_commit_update` in a transaction rolls it back exactly if it reports
that. -/
theorem rolledBack_iff (h : Recorded s) (hin : (s.shared.thread i).inTxn = true) :
    RolledBack cfg s i ↔ (s.shared.locktableCommitUpdate cfg i).1 = true := by
  refine ⟨fun hr => hr.aborted, fun hab => ?_⟩
  have hid := h.owned.thrId_of_inTxn hin
  obtain ⟨he, -⟩ := ended hid hin
  refine ⟨hab, fun a v hv => ?_, he.writeset, he.readset, he.locksHeld, fun l hl => ?_⟩
  · rw [he.mem, hab, if_pos rfl, rollback_apply, h.pre i a, hv]
    rfl
  · rw [he.lockOwnership, if_pos (((h.owned.held i l).2 ⟨hid, hl⟩))]

/-- **An explicit abort rolls back exactly if the validation fails.**  A transaction of
thread `i` calls `locktable_abort` in a state that any calls of any threads lead to, other
threads go on, and then it calls `locktable_commit_update`. -/
theorem abort_rollsBack_iff (hs : (calls cfg ι).Reachable s)
    (hin : (s.shared.thread i).inTxn = true)
    (hother : (calls cfg ι).RunsWith (fun _ a => a.thread ≠ i) (s.abort i) s') :
    RolledBack cfg s' i ↔ cfg.alg ≠ .locktable ∧
      ∃ entry ∈ (s'.shared.thread i).readset, s'.shared.readValid i entry = false := by
  have h := Recorded.of_reachable hs
  have hid := h.owned.thrId_of_inTxn hin
  obtain ⟨h', hthread⟩ := runs_thread h.abort hother
  have hcleared : s'.shared.thread i = { s.shared.thread i with aborted := false } := by
    rw [hthread, System.abort_shared, Shared.setThread_self, Shared.getState_of_ne hid]
  have hin' : (s'.shared.thread i).inTxn = true := by rw [hcleared, hin]
  rw [rolledBack_iff h' hin', (ended (h'.owned.thrId_of_inTxn hin') hin').2, hcleared]
  simp

/-- TinySTM with the table of the source. -/
def tinystmConfig : Config := ⟨.tinystm, locktableAddrToLock 1024⟩

/-- Thread 0 reads at 0 and writes at 64, then thread 1 commits a write at 0. -/
def readOverwritten : System ℕ :=
  [.commitUpdate 0, .read 0 0, .write 0 64 7, .commitUpdate 1, .write 1 0 5, .commitUpdate 1].foldl
    (step tinystmConfig) (initial fun _ => 0)

theorem abort_rollsBack_overwritten : RolledBack tinystmConfig (readOverwritten.abort 0) 0 ↔
    tinystmConfig.alg ≠ .locktable ∧
      ∃ entry ∈ ((readOverwritten.abort 0).shared.thread 0).readset,
        (readOverwritten.abort 0).shared.readValid 0 entry = false :=
  abort_rollsBack_iff
    (.step (.commitUpdate 1) (.step (.write 1 0 5) (.step (.commitUpdate 1) (.step (.write 0 64 7)
      (.step (.read 0 0) (.step (.commitUpdate 0) (.init (init_initial fun _ => 0)) trivial rfl)
      trivial rfl) trivial rfl) trivial rfl) trivial rfl) trivial rfl) (by decide) .refl

/-- The locking algorithm commits a transaction that calls `locktable_abort`: the 7 written
at 0 stays. -/
theorem not_rollsBack_locking : ¬∀ s s' : System ℕ, ∀ i,
    (calls ⟨.locktable, locktableAddrToLock 1024⟩ ℕ).Reachable s →
      (s.shared.thread i).inTxn = true →
      (calls ⟨.locktable, locktableAddrToLock 1024⟩ ℕ).RunsWith (fun _ a => a.thread ≠ i)
        (s.abort i) s' →
      RolledBack ⟨.locktable, locktableAddrToLock 1024⟩ s' i := by
  intro h
  have hr := h _ _ 0 (.step (.write 0 0 7) (.step (.commitUpdate 0)
    (.init (init_initial fun _ => 0)) trivial rfl) trivial rfl) (by decide) .refl
  exact absurd (hr.words 0 0 (by decide)) (by decide)

end Locktable
end Sivfs
