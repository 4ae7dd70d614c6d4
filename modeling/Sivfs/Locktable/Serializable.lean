/-
# The locking algorithm is serializable

With `LOCKTABLE_LOCKTABLE` every access takes the lock of its word, and the locks are given
back when the transaction ends: two-phase locking.  Writes go to memory at once, so what
stands for the committed state is memory with the writes of running transactions taken
back, and the invariant says, for every transaction by itself (`TxnInv`), that on the words
of its locks

* its undo entries take memory back to the committed state, and
* its accesses, replayed from the committed state, read what they read and give memory.

Nothing else is said about these words, and nothing about them is said for another thread,
so a step of one thread leaves the others' part alone (`TxnInv.congr`).  A commit makes the
replayed state the committed one; an abort keeps it.
-/

import Sivfs.Locktable.Locks

namespace Sivfs
namespace Locktable

open Call History UndoLog

variable {ι : Type} [DecidableEq ι] {cfg : Config} {i j : ι} {l address value : ℕ}

/-! ### One transaction -/

/-- **What a running transaction is to the committed state `base`**, on the words of the
locks it holds. -/
structure TxnInv (cfg : Config) (base mem : ℕ → ℕ) (locks : List ℕ) (writeset : List (ℕ × ℕ))
    (txn : List (Access ℕ ℕ)) : Prop where
  locked : ∀ x ∈ txn, cfg.addrToLock x.addr ∈ locks
  writes : ∀ a, a ∈ writeset.map Prod.fst ↔ Writes txn a
  undo : ∀ a, cfg.addrToLock a ∈ locks → rollback writeset mem a = base a
  reads : Reads base txn
  replay : ∀ a, cfg.addrToLock a ∈ locks → replay base txn a = mem a

namespace TxnInv

variable {base base' mem mem' : ℕ → ℕ} {locks : List ℕ} {writeset : List (ℕ × ℕ)}
  {txn : List (Access ℕ ℕ)}

/-- A transaction begins with nothing locked and nothing written. -/
theorem nil : TxnInv cfg base mem [] [] [] :=
  ⟨fun _ h => absurd h List.not_mem_nil, fun _ => by simp, fun _ h => absurd h List.not_mem_nil,
    reads_nil, fun _ h => absurd h List.not_mem_nil⟩

/-- **Words of other locks do not matter.** -/
theorem congr (h : TxnInv cfg base mem locks writeset txn)
    (hbase : ∀ a, cfg.addrToLock a ∈ locks → base' a = base a)
    (hmem : ∀ a, cfg.addrToLock a ∈ locks → mem' a = mem a) :
    TxnInv cfg base' mem' locks writeset txn where
  locked := h.locked
  writes := h.writes
  undo a ha := by rw [rollback_congr fun _ => hmem a ha, h.undo a ha, hbase a ha]
  reads := (reads_congr fun x hx => hbase _ (h.locked x hx)).2 h.reads
  replay a ha := by rw [replay_congr (hbase a ha), h.replay a ha, hmem a ha]

/-- A word that is written is a word of a lock that is held. -/
theorem lock_of_mem (h : TxnInv cfg base mem locks writeset txn) {a : ℕ}
    (ha : a ∈ writeset.map Prod.fst) : cfg.addrToLock a ∈ locks := by
  obtain ⟨v, hv⟩ := (h.writes a).1 ha
  exact h.locked _ hv

/-- Taking the writes back changes words of the locks only. -/
theorem rollback_outside (h : TxnInv cfg base mem locks writeset txn) {a : ℕ}
    (ha : cfg.addrToLock a ∉ locks) : rollback writeset mem a = mem a :=
  rollback_of_not_mem fun hm => ha (h.lock_of_mem hm)

/-- Words that are not locked are what they were when the transaction began. -/
theorem replay_outside (h : TxnInv cfg base mem locks writeset txn) {a : ℕ}
    (ha : cfg.addrToLock a ∉ locks) : History.replay base txn a = base a :=
  replay_of_not_writes fun hw => ha (h.lock_of_mem ((h.writes a).2 hw))

/-- The lock `l` is taken; its words are as committed. -/
theorem take (h : TxnInv cfg base mem locks writeset txn) (hl : l ∉ locks)
    (hmem : ∀ a, cfg.addrToLock a = l → mem a = base a) :
    TxnInv cfg base mem (locks ++ [l]) writeset txn := by
  refine ⟨fun x hx => List.mem_append_left _ (h.locked x hx), h.writes, fun a ha => ?_, h.reads,
    fun a ha => ?_⟩
  · rcases List.mem_append.1 ha with ha | ha
    · exact h.undo a ha
    · obtain rfl := List.mem_singleton.1 ha
      rw [h.rollback_outside hl, hmem a rfl]
  · rcases List.mem_append.1 ha with ha | ha
    · exact h.replay a ha
    · obtain rfl := List.mem_singleton.1 ha
      rw [h.replay_outside hl, hmem a rfl]

/-- A read of a word that is locked finds what the transaction left there. -/
theorem read (h : TxnInv cfg base mem locks writeset txn) (ha : cfg.addrToLock address ∈ locks) :
    TxnInv cfg base mem locks writeset (txn ++ [.read address (mem address)]) := by
  refine ⟨fun x hx => ?_, fun a => by rw [writes_read, h.writes a], h.undo, ?_, fun a ha => ?_⟩
  · rcases List.mem_append.1 hx with hx | hx
    · exact h.locked x hx
    · rwa [List.mem_singleton.1 hx]
  · rw [reads_read]
    exact ⟨h.reads, h.replay address ha⟩
  · rw [replay_read, h.replay a ha]

/-- A write makes an undo entry first, so that the words to go back to stay the same. -/
theorem write (h : TxnInv cfg base mem locks writeset txn) (ha : cfg.addrToLock address ∈ locks) :
    TxnInv cfg base (Function.update mem address value) locks
      (writeset ++ [(address, mem address)]) (txn ++ [.write address value]) := by
  refine ⟨fun x hx => ?_, fun a => ?_, fun a ha => ?_, by rw [reads_write]; exact h.reads,
    fun a ha => ?_⟩
  · rcases List.mem_append.1 hx with hx | hx
    · exact h.locked x hx
    · rwa [List.mem_singleton.1 hx]
  · rw [writes_write, List.map_append, List.mem_append, h.writes a]
    simp [eq_comm]
  · rw [rollback_push, h.undo a ha]
  · rw [replay_write, Function.update_apply, Function.update_apply, h.replay a ha]

end TxnInv

/-! ### The invariant -/

/-- The committed state: the committed transactions, run one after the other. -/
def System.base (s : System ι) : ℕ → ℕ := replayAll s.start s.committed

/-- The invariant of `LOCKTABLE_LOCKTABLE`. -/
structure Inv (cfg : Config) (s : System ι) : Prop where
  owned : Owned s.shared
  serial : Serial s.start s.committed
  /-- The words of free locks are as committed. -/
  free : ∀ a, s.shared.lockOwnership (cfg.addrToLock a) = 0 → s.shared.mem a = s.base a
  txn : ∀ i, TxnInv cfg s.base s.shared.mem (s.shared.thread i).locksHeld
    (s.shared.thread i).writeset (s.txn i)

namespace Inv

variable {s : System ι} {s' : Shared ι}

omit [DecidableEq ι] in
/-- It holds before any call. -/
theorem of_init (h : Init s) : Inv cfg s := by
  obtain ⟨howner, hlast, hthread, hmem, htxn, -, hcommitted⟩ := h
  have hbase : s.base = s.start := by rw [System.base, hcommitted]; rfl
  refine ⟨.of_start howner hlast hthread, by rw [hcommitted]; trivial,
    fun a _ => by rw [hmem, hbase], fun i => ?_⟩
  rw [hthread, htxn]
  exact TxnInv.nil

/-- A new id changes nothing else. -/
theorem getState (h : Inv cfg s) : Inv cfg { s with shared := s.shared.getState i } := by
  refine ⟨h.owned.getState, h.serial, fun a ha => ?_, fun j => ?_⟩
  · rw [Shared.getState_lockOwnership] at ha
    rw [Shared.getState_mem]
    exact h.free a ha
  · obtain ⟨hlocks, hwriteset, -⟩ := h.owned.getState_thread (i := i) j
    rw [hlocks, hwriteset, Shared.getState_mem]
    exact h.txn j

/-- What goes unnoticed changes nothing. -/
theorem quiet (h : Inv cfg s) (hid : (s.shared.thread i).thrId ≠ 0) (hq : Quiet i s.shared s') :
    Inv cfg { s with shared := s' } := by
  refine ⟨h.owned.quiet hid hq, h.serial, fun a ha => ?_, fun j => ?_⟩
  · rw [hq.lockOwnership] at ha
    rw [hq.mem]
    exact h.free a ha
  · rw [hq.mem]
    by_cases hj : j = i
    · rw [hj, hq.locksHeld, hq.writeset]
      exact h.txn i
    · rw [hq.others j hj]
      exact h.txn j

/-- What a thread does to its own flags and timestamps does not matter. -/
theorem setThread (h : Inv cfg s) (hid : (s.shared.thread i).thrId ≠ 0) {f : Thread → Thread}
    (hf : ∀ t, (f t).thrId = t.thrId ∧ (f t).locksHeld = t.locksHeld ∧
      (f t).writeset = t.writeset) :
    Inv cfg { s with shared := s.shared.setThread i f } := by
  refine ⟨h.owned.setThread hid (hf _).1 (hf _).2.1, h.serial, h.free, fun j => ?_⟩
  by_cases hj : j = i
  · simp only [hj, Shared.setThread_self, (hf _).2.1, (hf _).2.2]
    exact h.txn i
  · rw [Shared.setThread_of_ne hj]
    exact h.txn j

/-- A free lock may be taken: its words are those of the committed state. -/
theorem take (h : Inv cfg s) (hid : (s.shared.thread i).thrId ≠ 0)
    (hfree : s.shared.lockOwnership l = 0) : Inv cfg { s with shared := s.shared.take i l } := by
  refine ⟨h.owned.take hid hfree, h.serial, fun a ha => h.free a ?_, fun j => ?_⟩
  · rw [Shared.take_lockOwnership] at ha
    split_ifs at ha with hl
    · exact absurd ha hid
    · exact ha
  · by_cases hj : j = i
    · rw [hj, Shared.take_self]
      exact (h.txn i).take (h.owned.not_held_of_free hfree) fun a ha => h.free a (ha ▸ hfree)
    · rw [Shared.take_of_ne hj]
      exact h.txn j

/-- An access keeps the invariant, whether it returns or throws. -/
theorem accessed (h : Inv cfg s) (ha : Accessed i l (s.shared.getState i) s') :
    Inv cfg { s with shared := s' } := by
  have hid := h.owned.getState_thrId (i := i)
  rcases ha with hq | ⟨hfree, hq⟩
  · exact h.getState.quiet hid hq
  · exact (h.getState.take hid hfree).quiet (by simpa using hid) hq

/-- A lock that answers with the id of thread `i` is held by it. -/
theorem held_of_owner (h : Inv cfg s) (ha : Accessed i l (s.shared.getState i) s')
    (hown : s'.lockOwnership l = ((s.shared.getState i).thread i).thrId) :
    l ∈ (s'.thread i).locksHeld := by
  refine ((h.accessed ha).owned.held i l).2 ?_
  rw [ha.thrId]
  exact ⟨h.owned.getState_thrId, hown⟩

/-- A read goes on the history. -/
theorem read (halg : cfg.alg = .locktable) (h : Inv cfg s) : Inv cfg (s.read cfg i address) := by
  refine run_of_wp (wp_locktableRead_locking halg) (fun v s' hv => ?_) fun _ s' ha => h.accessed ha
  obtain ⟨ha, hown, rfl⟩ := hv
  have h' := h.accessed ha
  refine ⟨h'.owned, h'.serial, h'.free, fun j => ?_⟩
  by_cases hj : j = i
  · simp only [hj, Function.update_self]
    exact (h'.txn i).read (h.held_of_owner ha hown)
  · simp only [Function.update_of_ne hj]
    exact h'.txn j

/-- A write stores under the lock of its word, which no other thread holds. -/
theorem write (h : Inv cfg s) : Inv cfg (s.write cfg i address value) := by
  refine run_of_wp wp_locktableWrite (fun _ s' hw => ?_) fun _ s' ha => h.accessed ha
  obtain ⟨s₁, ha, hown, rfl⟩ := hw
  have h' := h.accessed ha
  have hheld := h.held_of_owner ha hown
  have hid : (s₁.thread i).thrId ≠ 0 := ha.thrId ▸ h.owned.getState_thrId
  refine ⟨h'.owned.store hid, h'.serial, fun a hfree => ?_, fun j => ?_⟩
  · have hne : a ≠ address := by
      rintro rfl
      exact h'.owned.not_held_of_free hfree hheld
    exact (Function.update_of_ne hne ..).trans (h'.free a hfree)
  · by_cases hj : j = i
    · simp only [hj, Function.update_self, Shared.store, Shared.setThread_self]
      exact (h'.txn i).write hheld
    · simp only [Function.update_of_ne hj, Shared.store, Shared.setThread_of_ne hj]
      refine (h'.txn j).congr (fun _ _ => rfl) fun a ha' => Function.update_of_ne ?_ ..
      rintro rfl
      exact hj (h'.owned.holder_eq ha' hheld)

/-- What a transaction leaves that ends: memory and the committed state `base'` both change
on the words of its locks only, and agree there. -/
theorem finish {mem' base' : ℕ → ℕ} {start : ℕ → ℕ} {txn : ι → List (Access ℕ ℕ)}
    {pre : ι → ℕ → Option ℕ} {committed : List (List (Access ℕ ℕ))} {aborted : Bool} (h : Inv cfg s)
    (hid : (s.shared.thread i).thrId ≠ 0) (he : Ended i aborted s.shared s') (hmem : s'.mem = mem')
    (hbase : replayAll start committed = base') (hserial : Serial start committed)
    (hself : txn i = []) (hothers : ∀ j, j ≠ i → txn j = s.txn j)
    (hin : ∀ a, cfg.addrToLock a ∈ (s.shared.thread i).locksHeld → mem' a = base' a)
    (hout : ∀ a, cfg.addrToLock a ∉ (s.shared.thread i).locksHeld →
      mem' a = s.shared.mem a ∧ base' a = s.base a) :
    Inv cfg ⟨s', start, txn, pre, committed⟩ := by
  refine ⟨h.owned.ended hid he, hserial, fun a hfree => ?_, fun j => ?_⟩
  · rw [System.base, hbase, hmem]
    by_cases ha : cfg.addrToLock a ∈ (s.shared.thread i).locksHeld
    · exact hin a ha
    · rw [he.lockOwnership, if_neg ha] at hfree
      rw [(hout a ha).1, (hout a ha).2, h.free a hfree]
  · simp only [System.base, hbase, hmem]
    by_cases hj : j = i
    · rw [hj, hself, he.locksHeld, he.writeset]
      exact TxnInv.nil
    · rw [hothers j hj, he.others j hj]
      have hne (a : ℕ) (ha : cfg.addrToLock a ∈ (s.shared.thread j).locksHeld) :
          cfg.addrToLock a ∉ (s.shared.thread i).locksHeld :=
        fun hi => hj (h.owned.holder_eq ha hi)
      exact (h.txn j).congr (fun a ha => (hout a (hne a ha)).2) fun a ha => (hout a (hne a ha)).1

/-- **A commit** makes the words of the transaction those of the committed state, and then gives
the locks back. -/
theorem commitUpdate (h : Inv cfg s) : Inv cfg (s.commitUpdate cfg i) := by
  rw [System.commitUpdate]
  by_cases hin : (s.shared.thread i).inTxn = true
  · have hid := h.owned.thrId_of_inTxn hin
    obtain ⟨he, -⟩ := ended hid hin
    simp only [hin, if_true]
    generalize (s.shared.locktableCommitUpdate cfg i).2 = s' at he ⊢
    cases hab : (s.shared.locktableCommitUpdate cfg i).1 with
    | true =>
      rw [hab] at he
      exact h.finish hid he he.mem rfl h.serial (Function.update_self ..)
        (fun j hj => Function.update_of_ne hj ..) (h.txn i).undo
        fun a ha => ⟨(h.txn i).rollback_outside ha, rfl⟩
    | false =>
      rw [hab] at he
      refine h.finish hid he he.mem (replayAll_snoc _) (serial_snoc.2 ⟨h.serial, (h.txn i).reads⟩)
        (Function.update_self ..) (fun j hj => Function.update_of_ne hj ..)
        (fun a ha => ((h.txn i).replay a ha).symm) fun a ha => ⟨rfl, (h.txn i).replay_outside ha⟩
  · have hin' : ((s.shared.getState i).thread i).inTxn = false := by
      rw [(h.owned.getState_thread i).2.2]
      exact Bool.eq_false_iff.2 hin
    obtain ⟨-, validatedTs, ho⟩ := opened h.owned.getState_thrId hin'
    rw [if_neg hin, Shared.commitUpdate_getState h.owned.getState_thrId, ho]
    exact h.getState.setThread h.owned.getState_thrId fun _ => ⟨rfl, rfl, rfl⟩

/-- `abort` gives nothing back before the undo entries are applied. -/
theorem abort (h : Inv cfg s) : Inv cfg (s.abort i) :=
  h.getState.setThread (f := fun t => { t with aborted := false }) h.owned.getState_thrId
    fun _ => ⟨rfl, rfl, rfl⟩

/-- **The invariant holds in every run.** -/
theorem of_reachable (halg : cfg.alg = .locktable) {s : System ι}
    (hs : (calls cfg ι).Reachable s) : Inv cfg s := by
  refine hs.invariant (fun _ h => .of_init h) fun s a s' _ h hstep => ?_
  obtain rfl := Option.some.inj hstep
  cases a with
  | read i address => exact h.read halg
  | write i address value => exact h.write
  | commitUpdate i => exact h.commitUpdate
  | abort i => exact h.abort

end Inv

/-! ### Main result -/

/-- No thread calls `locktable_abort`. -/
def NoAbort (_ : System ι) : Act ι → Prop
  | .abort _ => False
  | _ => True

/-- **The committed transactions are equivalent to a serial run** in the order of their
commit calls: each reads what it read, and memory is what the run leaves, except for words
that a running transaction has written. -/
def System.Serializable (s : System ι) : Prop :=
  Serial s.start s.committed ∧
    ∀ a, (∀ i, ¬Writes (s.txn i) a) → s.shared.mem a = replayAll s.start s.committed a

/-- What a thread's commit call leaves: the thread owns no lock, and if the call reports an
abort, the words that the transaction wrote are as the committed transactions left them. -/
def System.CommitCallClean (cfg : Config) (s : System ι) (i : ι) : Prop :=
  (∀ l, (s.shared.locktableCommitUpdate cfg i).2.lockOwnership l ≠
      ((s.shared.locktableCommitUpdate cfg i).2.thread i).thrId) ∧
    ((s.shared.locktableCommitUpdate cfg i).1 = true → ∀ a, Writes (s.txn i) a →
      (s.shared.locktableCommitUpdate cfg i).2.mem a = replayAll s.start s.committed a)

omit [DecidableEq ι] in
/-- The committed transactions, in the order of their commits, are a serial history. -/
theorem Inv.equivalent_serial {s : System ι} (h : Inv cfg s) : s.Serializable := by
  refine ⟨h.serial, fun a ha => ?_⟩
  by_cases hfree : s.shared.lockOwnership (cfg.addrToLock a) = 0
  · exact h.free a hfree
  · obtain ⟨i, hi⟩ := h.owned.owner _ hfree
    rw [← (h.txn i).replay a hi, replay_of_not_writes (ha i)]
    rfl

/-- **Two-phase locking is serializable.**  In every state that any number of threads reach
by reads, writes and commit calls in any order, whatever addresses share a lock, the
committed transactions are equivalent to a serial run in the order of their commit calls;
and a call that ends a transaction leaves no word of it behind if it aborts, and no lock. -/
theorem serializable (halg : cfg.alg = .locktable) {s : System ι}
    (hs : (calls cfg ι).ReachableWith NoAbort s) :
    s.Serializable ∧ ∀ i, (s.shared.thread i).inTxn = true → s.CommitCallClean cfg i := by
  have h := Inv.of_reachable halg hs.reachable
  refine ⟨h.equivalent_serial, fun i hin => ?_⟩
  have hid := h.owned.thrId_of_inTxn hin
  obtain ⟨he, -⟩ := ended hid hin
  refine ⟨fun l hl => ?_, fun hab a ha => ?_⟩
  · have hheld := ((h.owned.ended hid he).held i l).2 ⟨he.thrId ▸ hid, hl⟩
    rw [he.locksHeld] at hheld
    exact absurd hheld List.not_mem_nil
  · rw [he.mem, hab, if_pos rfl]
    obtain ⟨v, hv⟩ := ha
    exact (h.txn i).undo a ((h.txn i).locked _ hv)

/-- The locking algorithm with the table of the source. -/
def lockingConfig : Config := ⟨.locktable, locktableAddrToLock 1024⟩

/-- Thread 0 writes at 0 and commits, thread 1 reads at 8, whose lock is the same. -/
def twoThreads : List (Act ℕ) :=
  [.commitUpdate 0, .commitUpdate 1, .write 0 0 7, .commitUpdate 0, .read 1 8]

theorem serializable_twoThreads : ∃ s : System ℕ,
    s = twoThreads.foldl (step lockingConfig) (initial fun _ => 0) ∧
      s.committed = [[.write 0 7]] ∧
      s.Serializable ∧ ∀ i, (s.shared.thread i).inTxn = true → s.CommitCallClean lockingConfig i :=
  ⟨_, rfl, rfl, serializable rfl <|
    .step (.read 1 8) (.step (.commitUpdate 0) (.step (.write 0 0 7) (.step (.commitUpdate 1)
      (.step (.commitUpdate 0) (.init (init_initial fun _ => 0)) trivial rfl) trivial rfl)
      trivial rfl) trivial rfl) trivial rfl⟩

/-- The first call of `locktable_commit_update` of a thread ends nothing: a thread that wrote
before still owns the lock after it. -/
theorem not_serializable_firstCall : ¬∀ s : System ℕ,
    (calls lockingConfig ℕ).ReachableWith NoAbort s →
      s.Serializable ∧ ∀ i, s.CommitCallClean lockingConfig i := by
  intro h
  have hwrite : (calls lockingConfig ℕ).ReachableWith NoAbort _ :=
    .step (.write 0 0 7) (.init (init_initial fun _ => 0)) trivial rfl
  exact ((h _ hwrite).2 0).1 0 (by decide)

end Locktable
end Sivfs
