/-
# The optimistic algorithms are serializable

With `LOCKTABLE_TINYSTM` and `LOCKTABLE_SILO` a read takes no lock.  It notes the lock of its
word and the timestamp of that lock, and the commit call looks whether the timestamps are
still the same and no other thread holds the lock.

What makes this enough is that the timestamp of a lock goes up whenever the lock is given
back: from the global clock with `LOCKTABLE_TINYSTM`, and to more than every timestamp that
was noted, the locks of writes included, with `LOCKTABLE_SILO`.  So of the reads of a running
transaction those whose timestamps are current get what the committed transactions left
(`OptTxn.reads`), and a commit call that does not abort finds them all current.

The words that are written are locked, and for them the argument is that of
`Sivfs.Locktable.Serializable`.
-/

import Sivfs.Locktable.Serializable
import Mathlib.Order.Lattice

namespace Sivfs
namespace Locktable

open Call History UndoLog

variable {ι : Type} [DecidableEq ι] {cfg : Config} {i j : ι} {l address value : ℕ}

/-! ### Timestamps -/

/-- Thread `i` has noted locks with the timestamps that they have. -/
structure Noted (i : ι) (s s' : Shared ι) : Prop where
  ts : s'.ts = s.ts
  globalTs : s'.globalTs = s.globalTs
  readset : ∃ more, (s'.thread i).readset = (s.thread i).readset ++ more ∧
    ∀ e ∈ more, e.ts = s.ts e.lockid

section Noted

variable {s s' s₀ : Shared ι}

omit [DecidableEq ι] in
/-- Nothing has been noted. -/
theorem Noted.refl (s : Shared ι) : Noted i s s := ⟨rfl, rfl, [], by simp, by simp⟩

/-- Other fields do not matter. -/
theorem Noted.setThread {f : Thread → Thread} (h : Noted i s₀ s)
    (hf : ∀ t, (f t).readset = t.readset) : Noted i s₀ (s.setThread i f) := by
  refine ⟨h.ts, h.globalTs, ?_⟩
  rw [Shared.setThread_self, hf]
  exact h.readset

/-- A lock is noted with the timestamp it has. -/
theorem Noted.push (h : Noted i s₀ s) (lockid : ℕ) : Noted i s₀ (s.setThread i fun t =>
    { t with readset := t.readset ++ [⟨lockid, s₀.ts lockid⟩] }) := by
  obtain ⟨more, hmore, hts⟩ := h.readset
  refine ⟨h.ts, h.globalTs, more ++ [⟨lockid, s₀.ts lockid⟩], ?_, fun e he => ?_⟩
  · rw [Shared.setThread_self, hmore, List.append_assoc]
  · rcases List.mem_append.1 he with he | he
    · exact hts e he
    · rw [List.mem_singleton.1 he]

/-- A validation notes nothing. -/
theorem keeps_noted_locktableValidate : Keeps (Noted i s₀) (locktableValidate cfg i) := by
  refine keeps_ite (keeps_pure _) (keeps_bind (keeps_modify fun s h => ?_) fun _ =>
    keeps_bind keeps_get fun _ => keeps_require _ _)
  rw [validateReadset_eq]
  exact h.setThread fun _ => rfl

/-- An entry of the read set notes its lock. -/
theorem keeps_noted_locktableAddReadSetEntry {lockid : ℕ} :
    Keeps (Noted i s₀) (locktableAddReadSetEntry cfg i lockid (s₀.ts lockid)) := by
  refine keeps_bind keeps_get fun s => ?_
  have hpush : Keeps (Noted i s₀) (modify fun s => s.setThread i fun t =>
      { t with readset := t.readset ++ [⟨lockid, s₀.ts lockid⟩] } : Call (Shared ι) Exn Unit) :=
    keeps_modify fun _ h => h.push lockid
  split_ifs
  · exact keeps_bind keeps_noted_locktableValidate fun _ => keeps_bind
      (keeps_modify fun _ h => h.setThread fun _ => rfl) fun _ => hpush
  · exact hpush

/-- The lock is among those that thread `i` has noted. -/
def NotedLock (i : ι) (l : ℕ) (s : Shared ι) : Prop := ∃ e ∈ (s.thread i).readset, e.lockid = l

/-- **A lock is noted**, unless old reads are validated and are not valid any more, which only
`LOCKTABLE_TINYSTM` does. -/
theorem wp_noted_locktableAddReadSetEntry {lockid : ℕ} :
    (locktableAddReadSetEntry cfg i lockid (s.ts lockid)).wp
      (fun _ s' => Quiet i s s' ∧ Noted i s s' ∧ NotedLock i lockid s')
      (fun _ s' => Quiet i s s' ∧ Noted i s s' ∧ cfg.alg = .tinystm) s := by
  have hkeeps : (locktableAddReadSetEntry cfg i lockid (s.ts lockid)).wp
      (fun _ s' => Quiet i s s' ∧ Noted i s s') (fun _ s' => Quiet i s s' ∧ Noted i s s') s :=
    wp_and wp_locktableAddReadSetEntry
      (keeps_iff.1 keeps_noted_locktableAddReadSetEntry s (.refl s))
  have hends : (locktableAddReadSetEntry cfg i lockid (s.ts lockid)).wp
      (fun _ s' => NotedLock i lockid s') (fun _ _ => cfg.alg = .tinystm) s := by
    have hpush : ∀ s' : Shared ι, NotedLock i lockid (s'.setThread i fun t =>
        { t with readset := t.readset ++ [⟨lockid, s.ts lockid⟩] }) := by
      intro s'
      exact ⟨⟨lockid, s.ts lockid⟩, by simp, rfl⟩
    rw [locktableAddReadSetEntry, wp_bind, wp_get]
    split_ifs with hold
    · refine wp_bind.2
        (wp_mono (wp_after.2 trivial) (fun _ s₁ (_ : True) => ?_) fun _ _ _ => hold.1)
      simp only [wp_bind, wp_modify]
      exact hpush _
    · exact hpush s
  exact wp_mono (wp_and hkeeps hends) (fun _ _ h => ⟨h.1.1, h.1.2, h.2⟩)
    fun _ _ h => ⟨h.1.1, h.1.2, h.2⟩

/-- What an access by thread `i` notes: a lock that `LOCKTABLE_SILO` takes is noted. -/
structure Notes (cfg : Config) (i : ι) (s s' : Shared ι) : Prop where
  noted : Noted i s s'
  silo : cfg.alg = .silo → ∀ l ∈ (s'.thread i).locksHeld,
    l ∈ (s.thread i).locksHeld ∨ NotedLock i l s'

/-- **An access notes the lock of its address**, unless the thread has it. -/
theorem wp_notes_locktableAccess : (locktableAccess cfg i address).wp
    (fun _ s' => Notes cfg i s s') (fun _ s' => Notes cfg i s s') s := by
  rw [locktableAccess, wp_bind, wp_get]
  split_ifs with hfree hown
  · simp only [wp_bind, wp_modify]
    -- the lock is taken, then noted with the timestamp it has
    have htake : ∀ {s' : Shared ι}, Noted i (s.take i (cfg.addrToLock address)) s' →
        Noted i s s' := by
      rintro s' ⟨hts, hglobal, more, hmore, hmem⟩
      exact ⟨hts, hglobal, more, by rw [hmore, Shared.take_self], hmem⟩
    refine wp_mono (wp_noted_locktableAddReadSetEntry (s := s.take i (cfg.addrToLock address)))
      (fun _ s' h => ⟨htake h.2.1, fun _ l hl => ?_⟩) fun _ s' h => ⟨htake h.2.1, fun halg => ?_⟩
    · rw [h.1.locksHeld, Shared.take_self] at hl
      rcases List.mem_append.1 hl with hl | hl
      · exact .inl hl
      · rw [List.mem_singleton.1 hl]
        exact .inr h.2.2
    · exact absurd (h.2.2.symm.trans halg) (by simp)
  · exact ⟨.refl s, fun _ l hl => .inl hl⟩
  · refine ⟨(Noted.refl s).setThread fun _ => rfl, fun _ l hl => .inl ?_⟩
    simpa using hl

/-- **A write** takes the lock, notes it, records what was there and stores, or throws. -/
theorem wp_notes_locktableWrite : (locktableWrite cfg i address value).wp
    (fun _ s' => ∃ s₁, (Accessed i (cfg.addrToLock address) (s.getState i) s₁ ∧
      s₁.lockOwnership (cfg.addrToLock address) = ((s.getState i).thread i).thrId) ∧
      Notes cfg i (s.getState i) s₁ ∧ s' = s₁.store i address value)
    (fun _ s' => Accessed i (cfg.addrToLock address) (s.getState i) s' ∧
      Notes cfg i (s.getState i) s') s := by
  rw [locktableWrite, wp_bind, wp_modify]
  refine wp_seq (wp_and wp_locktableAccess wp_notes_locktableAccess) fun _ s₁ h => ?_
  simp only [wp_bind, wp_modify]
  exact ⟨s₁, h.1, h.2, rfl⟩

/-- **A read without a lock** loads a word that no other thread has locked and notes its lock,
or throws. -/
theorem wp_locktableRead_optimistic (halg : cfg.alg ≠ .locktable) :
    (locktableRead cfg i address).wp
      (fun v s' => Quiet i (s.getState i) s' ∧ Noted i (s.getState i) s' ∧
        NotedLock i (cfg.addrToLock address) s' ∧ v = s'.mem address ∧
        (s'.lockOwnership (cfg.addrToLock address) = 0 ∨
          s'.lockOwnership (cfg.addrToLock address) = (s'.thread i).thrId))
      (fun _ s' => Quiet i (s.getState i) s' ∧ Noted i (s.getState i) s') s := by
  rw [locktableRead, wp_bind, wp_modify, if_neg halg, wp_bind, wp_get]
  split_ifs with hlocked
  · exact ⟨(Quiet.refl _).setThread fun _ => ⟨rfl, rfl, rfl, rfl⟩,
      (Noted.refl _).setThread fun _ => rfl⟩
  · refine wp_bind.2 (wp_mono wp_noted_locktableAddReadSetEntry (fun _ s' h => ?_)
      fun _ _ h => ⟨h.1, h.2.1⟩)
    obtain ⟨hq, hn, hl⟩ := h
    refine ⟨hq, hn, hl, by rw [hq.mem], ?_⟩
    rw [hq.lockOwnership, hq.thrId]
    by_contra hno
    rw [not_or] at hno
    exact hlocked hno

omit [DecidableEq ι] in
/-- The timestamps that a commit call reads are at least those of the locks it has noted. -/
theorem ts_le_readTs (s : Shared ι) {e : ReadEntry} (he : e ∈ (s.thread i).readset) :
    s.ts e.lockid ≤ s.readTs i := by
  have hfold : ∀ (entries : List ReadEntry) (ts : ℕ),
      ts ≤ entries.foldl (fun ts entry => max ts (s.ts entry.lockid)) ts ∧
        ∀ e ∈ entries, s.ts e.lockid ≤
          entries.foldl (fun ts entry => max ts (s.ts entry.lockid)) ts := by
    intro entries
    induction entries with
    | nil => simp
    | cons entry entries ih =>
      intro ts
      obtain ⟨hle, hmem⟩ := ih (max ts (s.ts entry.lockid))
      refine ⟨(le_max_left _ _).trans hle, fun e he => ?_⟩
      rcases List.mem_cons.1 he with rfl | he
      · exact (le_max_right _ _).trans hle
      · exact hmem e he
  exact (hfold _ 0).2 e he

omit [DecidableEq ι] in
/-- The loop over `locks_held` stamps the locks of the list. -/
theorem ts_foldl_unlockTableEntry (halg : cfg.alg ≠ .locktable) (locks : List ℕ) :
    (locks.foldl (fun s lockid => s.unlockTableEntry cfg i lockid) s).globalTs = s.globalTs ∧
      ∀ l, (locks.foldl (fun s lockid => s.unlockTableEntry cfg i lockid) s).ts l =
        if l ∈ locks then (s.thread i).commitTs else s.ts l := by
  induction locks generalizing s with
  | nil => exact ⟨rfl, fun l => (if_neg List.not_mem_nil).symm⟩
  | cons lockid locks ih =>
    obtain ⟨hglobal, hts⟩ := ih (s := s.unlockTableEntry cfg i lockid)
    refine ⟨hglobal, fun l => (hts l).trans ?_⟩
    rcases eq_or_ne l lockid with rfl | hne
    · simp [Shared.unlockTableEntry, halg]
    · simp [Shared.unlockTableEntry, halg, hne]

@[simp] theorem startTxn_ts : (s.startTxn cfg i).ts = s.ts := by
  rw [Shared.startTxn]
  split_ifs <;> rfl

@[simp] theorem startTxn_globalTs : (s.startTxn cfg i).globalTs = s.globalTs := by
  rw [Shared.startTxn]
  split_ifs <;> rfl

/-- Undoing the writes or keeping them changes no timestamp. -/
theorem undoOrKeep_spec : (s.undoOrKeep i).ts = s.ts ∧ (s.undoOrKeep i).globalTs = s.globalTs ∧
    ((s.undoOrKeep i).thread i).commitTs = (s.thread i).commitTs ∧
    ((s.undoOrKeep i).thread i).locksHeld = (s.thread i).locksHeld := by
  rw [Shared.undoOrKeep]
  split_ifs
  · simp [Shared.applyUndoEntries, Shared.setThread]
  · simp

/-- The timestamp that `locktable_validate_pick_ts` picks. -/
theorem validatePickTs_ts (cfg : Config) (s : Shared ι) (i : ι) :
    (s.validatePickTs cfg i).ts = s.ts ∧
    (cfg.alg = .tinystm → ((s.validatePickTs cfg i).thread i).commitTs = s.globalTs + 1 ∧
      (s.validatePickTs cfg i).globalTs = s.globalTs + 1) ∧
    (cfg.alg = .silo → ((s.validatePickTs cfg i).thread i).commitTs = s.readTs i + 1) := by
  rw [Shared.validatePickTs, Shared.commitValidate, validateReadset_eq, Shared.pickTs]
  cases halg : cfg.alg with
  | locktable => simp
  | tinystm => simp [Shared.setThread]
  | silo => simp [Shared.setThread, Shared.readTs]

/-- **The timestamps that the end of a transaction leaves.** -/
theorem ended_ts (halg : cfg.alg ≠ .locktable) (hid : (s.thread i).thrId ≠ 0)
    (hin : (s.thread i).inTxn = true) : ∃ commitTs,
      (∀ l, (s.locktableCommitUpdate cfg i).2.ts l =
        if l ∈ (s.thread i).locksHeld then commitTs else s.ts l) ∧
      (cfg.alg = .tinystm → commitTs = s.globalTs + 1 ∧
        (s.locktableCommitUpdate cfg i).2.globalTs = s.globalTs + 1) ∧
      (cfg.alg = .silo → commitTs = s.readTs i + 1) := by
  have hq : Quiet i s (s.validatePickTs cfg i) := validatePickTs_spec.1
  obtain ⟨hts, htinystm, hsilo⟩ := validatePickTs_ts cfg s i
  rw [Shared.locktableCommitUpdate, Shared.getState_of_ne hid]
  simp only [hin, if_true, startTxn_ts, startTxn_globalTs]
  generalize s.validatePickTs cfg i = s₁ at hq hts htinystm hsilo ⊢
  obtain ⟨hundo, hglobal, hcommit, hlocks⟩ := undoOrKeep_spec (s := s₁) (i := i)
  obtain ⟨hglobal', hts'⟩ := ts_foldl_unlockTableEntry (i := i) (s := s₁.undoOrKeep i) halg
    ((s₁.undoOrKeep i).thread i).locksHeld
  refine ⟨(s₁.thread i).commitTs, fun l => ?_, fun ha => ⟨(htinystm ha).1, ?_⟩, hsilo⟩
  · rw [Shared.unlockAll, Shared.setThread_ts, hts', hlocks, hq.locksHeld, hcommit, hundo, hts]
  · rw [Shared.unlockAll, Shared.setThread_globalTs, hglobal', hglobal]
    exact (htinystm ha).2

end Noted

/-! ### One transaction -/

/-- What is noted of the lock `l` is its timestamp. -/
def Current (ts : ℕ → ℕ) (readset : List ReadEntry) (l : ℕ) : Prop :=
  ∀ e ∈ readset, e.lockid = l → e.ts = ts l

/-- **What a running transaction is to the committed state `base`**: the words of the locks
it holds as with the locking algorithm, and of its reads those that are still current. -/
structure OptTxn (cfg : Config) (base mem ts : ℕ → ℕ) (thread : Thread)
    (txn : List (Access ℕ ℕ)) : Prop where
  locked : ∀ a, Writes txn a → cfg.addrToLock a ∈ thread.locksHeld
  writes : ∀ a, a ∈ thread.writeset.map Prod.fst ↔ Writes txn a
  undo : ∀ a, cfg.addrToLock a ∈ thread.locksHeld → rollback thread.writeset mem a = base a
  replay : ∀ a, cfg.addrToLock a ∈ thread.locksHeld → replay base txn a = mem a
  noted : ∀ a v, .read a v ∈ txn → ∃ e ∈ thread.readset, e.lockid = cfg.addrToLock a
  past : ∀ e ∈ thread.readset, e.ts ≤ ts e.lockid
  reads : ReadsOn (fun a => Current ts thread.readset (cfg.addrToLock a)) base txn

namespace OptTxn

variable {base base' mem mem' ts ts' : ℕ → ℕ} {thread thread' : Thread} {txn : List (Access ℕ ℕ)}

/-- A thread without locks and accesses. -/
theorem nil (hlocks : thread.locksHeld = []) (hreadset : thread.readset = [])
    (hwriteset : thread.writeset = []) : OptTxn cfg base mem ts thread [] := by
  refine ⟨fun a h => absurd h not_writes_nil, fun a => by simp [hwriteset], fun a h => ?_,
    fun a h => ?_, fun a v h => absurd h List.not_mem_nil, fun e h => ?_, readsOn_nil⟩
  · rw [hlocks] at h
    exact absurd h List.not_mem_nil
  · rw [hlocks] at h
    exact absurd h List.not_mem_nil
  · rw [hreadset] at h
    exact absurd h List.not_mem_nil

/-- **What another thread commits does not matter**: where words change that are not locked,
the timestamps of their locks go up, so the reads there are current no more. -/
theorem congr (h : OptTxn cfg base mem ts thread txn)
    (hts : ∀ l, (ts' l = ts l ∧ ∀ a, cfg.addrToLock a = l → base' a = base a) ∨
      ts l < ts' l ∧ l ∉ thread.locksHeld)
    (hmem : ∀ a, cfg.addrToLock a ∈ thread.locksHeld → mem' a = mem a) :
    OptTxn cfg base' mem' ts' thread txn := by
  have hbase : ∀ a, cfg.addrToLock a ∈ thread.locksHeld → base' a = base a := by
    intro a ha
    rcases hts (cfg.addrToLock a) with ⟨-, hb⟩ | ⟨-, hno⟩
    · exact hb a rfl
    · exact absurd ha hno
  refine ⟨h.locked, h.writes, fun a ha => ?_, fun a ha => ?_, h.noted, fun e he => ?_, ?_⟩
  · rw [rollback_congr fun _ => hmem a ha, h.undo a ha, hbase a ha]
  · rw [replay_congr (hbase a ha), h.replay a ha, hmem a ha]
  · refine (h.past e he).trans ?_
    rcases hts e.lockid with ⟨heq, -⟩ | ⟨hlt, -⟩
    · exact heq.ge
    · exact hlt.le
  · refine h.reads.imp fun a v hv hcur => ?_
    rcases hts (cfg.addrToLock a) with ⟨heq, hb⟩ | ⟨hlt, -⟩
    · exact ⟨fun e he hl => (hcur e he hl).trans heq, hb a rfl⟩
    · -- the read was noted with an older timestamp
      obtain ⟨e, he, hl⟩ := h.noted a v hv
      have hpast := h.past e he
      have hnow := hcur e he hl
      rw [hl] at hpast
      omega

/-- A word that is written is a word of a lock that is held. -/
theorem lock_of_mem (h : OptTxn cfg base mem ts thread txn) {a : ℕ}
    (ha : a ∈ thread.writeset.map Prod.fst) : cfg.addrToLock a ∈ thread.locksHeld :=
  h.locked a ((h.writes a).1 ha)

/-- What is not locked has not been written. -/
theorem rollback_outside (h : OptTxn cfg base mem ts thread txn) {a : ℕ}
    (ha : cfg.addrToLock a ∉ thread.locksHeld) : rollback thread.writeset mem a = mem a :=
  rollback_of_not_mem fun hm => ha (h.lock_of_mem hm)

/-- So it is what it was when the transaction began. -/
theorem replay_outside (h : OptTxn cfg base mem ts thread txn) {a : ℕ}
    (ha : cfg.addrToLock a ∉ thread.locksHeld) : History.replay base txn a = base a :=
  replay_of_not_writes fun hw => ha (h.locked a hw)

/-- More is noted, with the timestamps of now, and the words of the locks taken are as
committed. -/
theorem note (h : OptTxn cfg base mem ts thread txn) (more : List ReadEntry)
    (hwriteset : thread'.writeset = thread.writeset)
    (hlocks : ∀ l ∈ thread.locksHeld, l ∈ thread'.locksHeld)
    (htaken : ∀ a, cfg.addrToLock a ∈ thread'.locksHeld → cfg.addrToLock a ∉ thread.locksHeld →
      mem a = base a)
    (hreadset : thread'.readset = thread.readset ++ more)
    (hmore : ∀ e ∈ more, e.ts = ts e.lockid) : OptTxn cfg base mem ts thread' txn := by
  refine ⟨fun a ha => hlocks _ (h.locked a ha), fun a => hwriteset ▸ h.writes a, fun a ha => ?_,
    fun a ha => ?_, fun a v hv => ?_, fun e he => ?_, ?_⟩
  · rw [hwriteset]
    by_cases hold : cfg.addrToLock a ∈ thread.locksHeld
    · exact h.undo a hold
    · rw [h.rollback_outside hold, htaken a ha hold]
  · by_cases hold : cfg.addrToLock a ∈ thread.locksHeld
    · exact h.replay a hold
    · rw [h.replay_outside hold, htaken a ha hold]
  · obtain ⟨e, he, hl⟩ := h.noted a v hv
    exact ⟨e, hreadset ▸ List.mem_append_left _ he, hl⟩
  · rw [hreadset] at he
    rcases List.mem_append.1 he with he | he
    · exact h.past e he
    · exact (hmore e he).le
  · refine h.reads.imp fun a v _ hcur => ⟨fun e he hl => ?_, rfl⟩
    exact hcur e (hreadset ▸ List.mem_append_left _ he) hl

/-- A read of a noted word gets what the transaction left there, or else what is committed. -/
theorem read (h : OptTxn cfg base mem ts thread txn)
    (hnoted : ∃ e ∈ thread.readset, e.lockid = cfg.addrToLock address)
    (hmem : cfg.addrToLock address ∉ thread.locksHeld → mem address = base address) :
    OptTxn cfg base mem ts thread (txn ++ [.read address (mem address)]) := by
  refine ⟨fun a ha => h.locked a (writes_read.1 ha),
    fun a => by rw [writes_read, h.writes a], h.undo,
    fun a ha => by rw [replay_read, h.replay a ha], fun a v hv => ?_, h.past, ?_⟩
  · rcases List.mem_append.1 hv with hv | hv
    · exact h.noted a v hv
    · obtain ⟨rfl, -⟩ := Access.read.inj (List.mem_singleton.1 hv)
      exact hnoted
  · refine readsOn_read.2 ⟨h.reads, fun _ => ?_⟩
    by_cases ha : cfg.addrToLock address ∈ thread.locksHeld
    · exact h.replay address ha
    · rw [h.replay_outside ha, hmem ha]

/-- A write stores under the lock of its word. -/
theorem write (h : OptTxn cfg base mem ts thread txn)
    (ha : cfg.addrToLock address ∈ thread.locksHeld) :
    OptTxn cfg base (Function.update mem address value) ts
      { thread with writeset := thread.writeset ++ [(address, mem address)] }
      (txn ++ [.write address value]) := by
  refine ⟨fun a hw => ?_, fun a => ?_, fun a hl => ?_, fun a hl => ?_, fun a v hv => ?_, h.past,
    readsOn_write.2 h.reads⟩
  · rcases writes_write.1 hw with hw | rfl
    · exact h.locked a hw
    · exact ha
  · rw [writes_write, List.map_append, List.mem_append, h.writes a]
    simp [eq_comm]
  · rw [rollback_push, h.undo a hl]
  · rw [replay_write, Function.update_apply, Function.update_apply, h.replay a hl]
  · refine h.noted a v ((List.mem_append.1 hv).resolve_right fun hv => ?_)
    simp at hv

end OptTxn

/-! ### The invariant -/

/-- The invariant of `LOCKTABLE_TINYSTM` and `LOCKTABLE_SILO`. -/
structure OptInv (cfg : Config) (s : System ι) : Prop where
  owned : Owned s.shared
  serial : Serial s.start s.committed
  /-- The words of free locks are as committed. -/
  free : ∀ a, s.shared.lockOwnership (cfg.addrToLock a) = 0 → s.shared.mem a = s.base a
  txn : ∀ i, OptTxn cfg s.base s.shared.mem s.shared.ts (s.shared.thread i) (s.txn i)
  /-- The clock is ahead of every timestamp. -/
  clock : cfg.alg = .tinystm → ∀ l, s.shared.ts l ≤ s.shared.globalTs
  /-- Every lock that is held is noted. -/
  noted : cfg.alg = .silo → ∀ i, ∀ l ∈ (s.shared.thread i).locksHeld, NotedLock i l s.shared

namespace OptInv

variable {s : System ι} {s' : Shared ι}

omit [DecidableEq ι] in
/-- It holds before any call. -/
theorem of_init (h : Init s) (hts : ∀ l, s.shared.ts l = 0) : OptInv cfg s := by
  obtain ⟨howner, hlast, hthread, hmem, htxn, -, hcommitted⟩ := h
  have hbase : s.base = s.start := by rw [System.base, hcommitted]; rfl
  refine ⟨.of_start howner hlast hthread, by rw [hcommitted]; trivial,
    fun a _ => by rw [hmem, hbase], fun i => ?_, fun _ l => by rw [hts l]; exact Nat.zero_le _,
    fun _ i l hl => ?_⟩
  · rw [hthread, htxn]
    exact OptTxn.nil rfl rfl rfl
  · rw [hthread] at hl
    exact absurd hl List.not_mem_nil

/-- A new state has noted nothing, and the thread had not either. -/
theorem getState (h : OptInv cfg s) : OptInv cfg { s with shared := s.shared.getState i } := by
  by_cases hid : (s.shared.thread i).thrId = 0
  · have hstate : s.shared.getState i = { s.shared.setThread i fun _ =>
        newThread s.shared.lastThrId with lastThrId := s.shared.lastThrId + 1 } := if_pos hid
    have howned : Owned (s.shared.getState i) := h.owned.getState
    rw [hstate] at howned ⊢
    refine ⟨howned, h.serial, h.free, fun j => ?_, h.clock, fun halg j l hl => ?_⟩
    · change OptTxn cfg s.base s.shared.mem s.shared.ts
        (Function.update s.shared.thread i (newThread s.shared.lastThrId) j) (s.txn j)
      by_cases hj : j = i
      · have hi := h.txn i
        rw [h.owned.fresh i hid] at hi
        rw [hj, Function.update_self]
        exact hi.note [] rfl (fun _ hl => hl) (fun _ hl _ => absurd hl List.not_mem_nil)
          rfl fun _ he => absurd he List.not_mem_nil
      · rw [Function.update_of_ne hj]
        exact h.txn j
    · by_cases hj : j = i
      · subst hj
        simp [Shared.setThread, newThread] at hl
      · simp only [Shared.setThread, Function.update_of_ne hj, NotedLock] at hl ⊢
        exact h.noted halg j l hl
  · rwa [Shared.getState_of_ne hid]

/-- **An access keeps the invariant**, whether it returns or throws. -/
theorem accessed (h : OptInv cfg s) (ha : Accessed i l (s.shared.getState i) s')
    (hn : Notes cfg i (s.shared.getState i) s') : OptInv cfg { s with shared := s' } := by
  have h₁ := h.getState (i := i)
  have hid := h.owned.getState_thrId (i := i)
  obtain ⟨more, hmore, hmem⟩ := hn.noted.readset
  refine ⟨h₁.owned.accessed hid ha, h.serial, fun a hfree => ?_, fun j => ?_, fun halg l' => ?_,
    fun halg j l' hl' => ?_⟩
  · rw [ha.mem]
    refine h₁.free a ?_
    rcases ha with hq | ⟨-, hq⟩
    · rwa [hq.lockOwnership] at hfree
    · rw [hq.lockOwnership, Shared.take_lockOwnership] at hfree
      split_ifs at hfree with hl
      · exact absurd hfree hid
      · exact hfree
  · change OptTxn cfg s.base s'.mem s'.ts (s'.thread j) (s.txn j)
    rw [ha.mem, hn.noted.ts]
    by_cases hj : j = i
    · subst hj
      refine (h₁.txn j).note more (ha.writeset j) (fun l' hl' => ?_)
        (fun a hl' hold => ?_) hmore hmem
      · rcases ha with hq | ⟨-, hq⟩
        · exact hq.locksHeld ▸ hl'
        · rw [hq.locksHeld, Shared.take_self]
          exact List.mem_append_left _ hl'
      · -- the lock that is taken was free
        rcases ha with hq | ⟨hfree, hq⟩
        · exact absurd (hq.locksHeld ▸ hl') hold
        · rw [hq.locksHeld, Shared.take_self] at hl'
          have hl := List.mem_singleton.1 ((List.mem_append.1 hl').resolve_left hold)
          exact h₁.free a (hl ▸ hfree)
    · rw [ha.others hj]
      exact h₁.txn j
  · rw [hn.noted.ts, hn.noted.globalTs]
    exact h₁.clock halg l'
  · by_cases hj : j = i
    · subst hj
      rcases hn.silo halg l' hl' with hold | hnew
      · obtain ⟨e, he, hl⟩ := h₁.noted halg j l' hold
        exact ⟨e, hmore ▸ List.mem_append_left _ he, hl⟩
      · exact hnew
    · have hsame := ha.others hj
      rw [hsame] at hl'
      obtain ⟨e, he, hl⟩ := h₁.noted halg j l' hl'
      exact ⟨e, hsame ▸ he, hl⟩

/-- A read goes on the history. -/
theorem read (halg : cfg.alg ≠ .locktable) (h : OptInv cfg s) :
    OptInv cfg (s.read cfg i address) := by
  -- a read takes no lock
  have haccessed : ∀ {s' : Shared ι}, Quiet i (s.shared.getState i) s' →
      Noted i (s.shared.getState i) s' → OptInv cfg { s with shared := s' } :=
    fun hq hn => h.accessed (l := 0) (.inl hq) ⟨hn, fun _ _ hl => .inl (hq.locksHeld ▸ hl)⟩
  refine run_of_wp (wp_locktableRead_optimistic halg) (fun v s' hv => ?_)
    fun _ s' he => haccessed he.1 he.2
  obtain ⟨hq, hn, hnoted, rfl, howner⟩ := hv
  have h' := haccessed hq hn
  have hid : (s'.thread i).thrId ≠ 0 := hq.thrId ▸ h.owned.getState_thrId
  refine ⟨h'.owned, h'.serial, h'.free, fun j => ?_, h'.clock, h'.noted⟩
  by_cases hj : j = i
  · simp only [hj, Function.update_self]
    refine (h'.txn i).read hnoted fun hno => h'.free address (howner.resolve_right fun hown => ?_)
    exact hno ((h'.owned.held i _).2 ⟨hid, hown⟩)
  · simp only [Function.update_of_ne hj]
    exact h'.txn j

/-- A write stores under the lock of its word, which no other thread holds. -/
theorem write (h : OptInv cfg s) : OptInv cfg (s.write cfg i address value) := by
  refine run_of_wp wp_notes_locktableWrite (fun _ s' hw => ?_) fun _ s' he => h.accessed he.1 he.2
  obtain ⟨s₁, ⟨ha, hown⟩, hn, rfl⟩ := hw
  have h' := h.accessed ha hn
  have hid : (s₁.thread i).thrId ≠ 0 := ha.thrId ▸ h.owned.getState_thrId
  have hheld : cfg.addrToLock address ∈ (s₁.thread i).locksHeld :=
    (h'.owned.held i _).2 ⟨hid, ha.thrId ▸ hown⟩
  refine ⟨h'.owned.store hid, h'.serial, fun a hfree => ?_, fun j => ?_, h'.clock,
    fun halg j l hl => ?_⟩
  · have hne : a ≠ address := by
      rintro rfl
      exact h'.owned.not_held_of_free hfree hheld
    exact (Function.update_of_ne hne ..).trans (h'.free a hfree)
  · by_cases hj : j = i
    · simp only [hj, Function.update_self, Shared.store, Shared.setThread_self]
      exact (h'.txn i).write hheld
    · simp only [Function.update_of_ne hj, Shared.store, Shared.setThread_of_ne hj]
      refine (h'.txn j).congr (fun _ => .inl ⟨rfl, fun _ _ => rfl⟩) fun a ha' =>
        Function.update_of_ne ?_ ..
      rintro rfl
      exact hj (h'.owned.holder_eq ha' hheld)
  · by_cases hj : j = i
    · simp only [hj, Shared.store, Shared.setThread_self, NotedLock] at hl ⊢
      exact h'.noted halg i l hl
    · simp only [Shared.store, Shared.setThread_of_ne hj, NotedLock] at hl ⊢
      exact h'.noted halg j l hl

/-- What a thread does to its flags does not matter. -/
theorem setThread (h : OptInv cfg s) (hid : (s.shared.thread i).thrId ≠ 0) {f : Thread → Thread}
    (hf : ∀ t, (f t).thrId = t.thrId ∧ (f t).locksHeld = t.locksHeld ∧ (f t).writeset = t.writeset ∧
      (f t).readset = t.readset) : OptInv cfg { s with shared := s.shared.setThread i f } := by
  obtain ⟨hthrId, hlocks, hwriteset, hreadset⟩ := hf (s.shared.thread i)
  refine ⟨h.owned.setThread hid hthrId hlocks, h.serial, h.free, fun j => ?_, h.clock,
    fun halg j l hl => ?_⟩
  · by_cases hj : j = i
    · simp only [hj, Shared.setThread_self]
      refine (h.txn i).note [] hwriteset (fun _ hl => hlocks ▸ hl)
        (fun _ hl hold => absurd (hlocks ▸ hl) hold) ?_ fun _ he => absurd he List.not_mem_nil
      rw [hreadset, List.append_nil]
    · simp only [Shared.setThread_of_ne hj]
      exact h.txn j
  · by_cases hj : j = i
    · simp only [hj, Shared.setThread_self, NotedLock, hlocks, hreadset] at hl ⊢
      exact h.noted halg i l hl
    · simp only [Shared.setThread_of_ne hj, NotedLock] at hl ⊢
      exact h.noted halg j l hl

omit [DecidableEq ι] in
/-- **The timestamp of a commit is larger than those of the locks that are given back.** -/
theorem ts_lt (h : OptInv cfg s) (halg : cfg.alg ≠ .locktable) {commitTs : ℕ}
    (htinystm : cfg.alg = .tinystm → commitTs = s.shared.globalTs + 1)
    (hsilo : cfg.alg = .silo → commitTs = s.shared.readTs i + 1)
    (hl : l ∈ (s.shared.thread i).locksHeld) : s.shared.ts l < commitTs := by
  cases hcase : cfg.alg with
  | locktable => exact absurd hcase halg
  | tinystm =>
    rw [htinystm hcase]
    exact Nat.lt_succ_of_le (h.clock hcase l)
  | silo =>
    obtain ⟨e, he, rfl⟩ := h.noted hcase i l hl
    rw [hsilo hcase]
    exact Nat.lt_succ_of_le (ts_le_readTs s.shared he)

/-- What a transaction leaves that ends: memory and the committed state `base'` both change
on the words of its locks only, and agree there. -/
theorem finish {mem' base' start : ℕ → ℕ} {txn : ι → List (Access ℕ ℕ)} {pre : ι → ℕ → Option ℕ}
    {committed : List (List (Access ℕ ℕ))} {aborted : Bool} (h : OptInv cfg s)
    (halg : cfg.alg ≠ .locktable) (hin : (s.shared.thread i).inTxn = true)
    (he : Ended i aborted s.shared (s.shared.locktableCommitUpdate cfg i).2)
    (hmem : (s.shared.locktableCommitUpdate cfg i).2.mem = mem')
    (hbase : replayAll start committed = base') (hserial : Serial start committed)
    (hself : txn i = []) (hothers : ∀ j, j ≠ i → txn j = s.txn j)
    (hheld : ∀ a, cfg.addrToLock a ∈ (s.shared.thread i).locksHeld → mem' a = base' a)
    (hout : ∀ a, cfg.addrToLock a ∉ (s.shared.thread i).locksHeld →
      mem' a = s.shared.mem a ∧ base' a = s.base a) :
    OptInv cfg ⟨(s.shared.locktableCommitUpdate cfg i).2, start, txn, pre, committed⟩ := by
  have hid := h.owned.thrId_of_inTxn hin
  obtain ⟨commitTs, hts, htinystm, hsilo⟩ := ended_ts halg hid hin
  have hlt (l : ℕ) := h.ts_lt (i := i) (l := l) halg (fun ha => (htinystm ha).1) hsilo
  have hclock (ha : cfg.alg = .tinystm) := (htinystm ha).2
  generalize (s.shared.locktableCommitUpdate cfg i).2 = s' at *
  refine ⟨h.owned.ended hid he, hserial, fun a hfree => ?_, fun j => ?_, fun ha l => ?_,
    fun ha j l hl => ?_⟩
  · rw [System.base, hbase, hmem]
    by_cases ha : cfg.addrToLock a ∈ (s.shared.thread i).locksHeld
    · exact hheld a ha
    · rw [he.lockOwnership, if_neg ha] at hfree
      rw [(hout a ha).1, (hout a ha).2, h.free a hfree]
  · simp only [System.base, hbase, hmem]
    by_cases hj : j = i
    · rw [hj, hself]
      exact OptTxn.nil he.locksHeld he.readset he.writeset
    · rw [hothers j hj, he.others j hj]
      refine (h.txn j).congr (fun l => ?_) fun a ha =>
        (hout a fun hi => hj (h.owned.holder_eq ha hi)).1
      by_cases hl : l ∈ (s.shared.thread i).locksHeld
      · exact .inr ⟨by rw [hts, if_pos hl]; exact hlt l hl, fun hi => hj (h.owned.holder_eq hi hl)⟩
      · exact .inl ⟨by rw [hts, if_neg hl], fun a ha => (hout a (ha ▸ hl)).2⟩
  · rw [hts, hclock ha]
    split_ifs
    · exact (htinystm ha).1.le
    · exact Nat.le_succ_of_le (h.clock ha l)
  · by_cases hj : j = i
    · rw [hj, he.locksHeld] at hl
      exact absurd hl List.not_mem_nil
    · have hsame := he.others j hj
      rw [hsame] at hl
      obtain ⟨e, hmem, heq⟩ := h.noted ha j l hl
      exact ⟨e, hsame ▸ hmem, heq⟩

/-- **The commit call.**  If it does not abort, every read is still current. -/
theorem commitUpdate (halg : cfg.alg ≠ .locktable) (h : OptInv cfg s) :
    OptInv cfg (s.commitUpdate cfg i) := by
  rw [System.commitUpdate]
  by_cases hin : (s.shared.thread i).inTxn = true
  · have hid := h.owned.thrId_of_inTxn hin
    obtain ⟨he, haborted⟩ : Ended i (s.shared.locktableCommitUpdate cfg i).1 s.shared _ ∧ _ :=
      ended hid hin
    simp only [hin, if_true]
    cases hab : (s.shared.locktableCommitUpdate cfg i).1 with
    | true =>
      rw [hab] at he
      exact h.finish halg hin he he.mem rfl h.serial (Function.update_self ..)
        (fun j hj => Function.update_of_ne hj ..) (h.txn i).undo
        fun a ha => ⟨(h.txn i).rollback_outside ha, rfl⟩
    | false =>
      rw [hab] at he haborted
      have hreads : Reads s.base (s.txn i) := by
        refine (h.txn i).reads.reads fun a v _ e hmem hl => ?_
        by_contra hne
        rw [← hl] at hne
        have hvalid : s.shared.readValid i e = false := by simp [Shared.readValid, hne]
        exact absurd (haborted.2 (.inr ⟨halg, e, hmem, hvalid⟩)) (by simp)
      refine h.finish halg hin he he.mem (replayAll_snoc _) (serial_snoc.2 ⟨h.serial, hreads⟩)
        (Function.update_self ..) (fun j hj => Function.update_of_ne hj ..)
        (fun a ha => ((h.txn i).replay a ha).symm) fun a ha => ⟨rfl, (h.txn i).replay_outside ha⟩
  · have hin' : ((s.shared.getState i).thread i).inTxn = false := by
      rw [(h.owned.getState_thread i).2.2]
      exact Bool.eq_false_iff.2 hin
    obtain ⟨-, validatedTs, ho⟩ := opened h.owned.getState_thrId hin'
    rw [if_neg hin, Shared.commitUpdate_getState h.owned.getState_thrId, ho]
    exact h.getState.setThread h.owned.getState_thrId fun _ => ⟨rfl, rfl, rfl, rfl⟩

/-- A thread that calls `locktable_abort` forgets that it has to abort, but not what it read. -/
theorem abort (h : OptInv cfg s) : OptInv cfg (s.abort i) :=
  h.getState.setThread (f := fun t => { t with aborted := false }) h.owned.getState_thrId
    fun _ => ⟨rfl, rfl, rfl, rfl⟩

omit [DecidableEq ι] in
/-- The committed transactions, in the order of their commits. -/
theorem equivalent_serial (h : OptInv cfg s) : s.Serializable := by
  refine ⟨h.serial, fun a ha => ?_⟩
  by_cases hfree : s.shared.lockOwnership (cfg.addrToLock a) = 0
  · exact h.free a hfree
  · obtain ⟨i, hi⟩ := h.owned.owner _ hfree
    rw [← (h.txn i).replay a hi, replay_of_not_writes (ha i)]
    rfl

end OptInv

/-! ### Main result -/

/-- The calls, from a table whose timestamps are zero-filled too. -/
def stampedCalls (cfg : Config) (ι : Type) [DecidableEq ι] : Machine (System ι) (Act ι) :=
  { calls cfg ι with init := fun s => Init s ∧ ∀ l, s.shared.ts l = 0 }

/-- **The invariant holds in every run.** -/
theorem OptInv.of_reachable (halg : cfg.alg ≠ .locktable) {s : System ι}
    (hs : (stampedCalls cfg ι).Reachable s) : OptInv cfg s := by
  refine hs.invariant (fun _ h => .of_init h.1 h.2) fun s a s' _ h hstep => ?_
  obtain rfl := Option.some.inj hstep
  cases a with
  | read i address => exact h.read halg
  | write i address value => exact h.write
  | commitUpdate i => exact h.commitUpdate halg
  | abort i => exact h.abort

/-- **Validation is enough.**  With `LOCKTABLE_TINYSTM` and `LOCKTABLE_SILO`, in every state
that any number of threads reach by reads, writes, commit calls and explicit aborts in any
order, whatever addresses share a lock, the committed transactions are equivalent to a serial
run in the order of their commit calls; and a call that ends a transaction leaves no word of
it behind if it aborts, and no lock. -/
theorem optimistic_serializable (halg : cfg.alg ≠ .locktable) {s : System ι}
    (hs : (stampedCalls cfg ι).Reachable s) :
    s.Serializable ∧ ∀ i, (s.shared.thread i).inTxn = true → s.CommitCallClean cfg i := by
  have h := OptInv.of_reachable halg hs
  refine ⟨h.equivalent_serial, fun i hin => ?_⟩
  have hid := h.owned.thrId_of_inTxn hin
  have he : Ended i (s.shared.locktableCommitUpdate cfg i).1 s.shared _ := (ended hid hin).1
  refine ⟨fun l hl => ?_, fun hab a ha => ?_⟩
  · have hheld := ((h.owned.ended hid he).held i l).2 ⟨he.thrId ▸ hid, hl⟩
    rw [he.locksHeld] at hheld
    exact absurd hheld List.not_mem_nil
  · rw [he.mem, hab, if_pos rfl]
    exact (h.txn i).undo a ((h.txn i).locked a ha)

/-- `LOCKTABLE_SILO` with the table of the source. -/
def siloConfig : Config := ⟨.silo, locktableAddrToLock 1024⟩

/-- Thread 1 reads at 8, thread 0 writes at 0, whose lock is the same, and commits; so the
commit call of thread 1 aborts. -/
def staleRead : List (Act ℕ) :=
  [.commitUpdate 0, .commitUpdate 1, .read 1 8, .write 0 0 7, .commitUpdate 0]

theorem optimistic_serializable_staleRead : ∃ s : System ℕ,
    s = staleRead.foldl (step siloConfig) (initial fun _ => 0) ∧
      s.committed = [[.write 0 7]] ∧ (s.shared.locktableCommitUpdate siloConfig 1).1 = true ∧
      s.Serializable ∧ ∀ i, (s.shared.thread i).inTxn = true → s.CommitCallClean siloConfig i :=
  ⟨_, rfl, rfl, rfl, optimistic_serializable (by decide) <|
    .step (.commitUpdate 0) (.step (.write 0 0 7) (.step (.read 1 8) (.step (.commitUpdate 1)
      (.step (.commitUpdate 0) (.init ⟨init_initial fun _ => 0, fun _ => rfl⟩) trivial rfl) trivial
      rfl) trivial rfl) trivial rfl) trivial rfl⟩

end Locktable
end Sivfs
