/-
# Deleting the log

`sivfs_delete_log` (`kern/sivfs_shared_state.c`) with `SIVFS_FIGURE_SEQLOG_SEQ`, called by
any number of threads while commits add entries.  A call takes `commit_lock` for every
turn of its loop, in which it visits at most `DELETE_BATCH` entries and then removes them:

| in the loop | |
| --- | --- |
| the entry is the first in its chunk | `kfree` of the chunk before it |
| another entry | nothing |

A chunk is therefore freed when the first entry of the next one is visited, and the last
one by `sivfs_delete_log(SIVFS_INVALID_TS)`.  While a thread holds `commit_lock` a chunk
may be freed whose entries are still in `log_cache`: they have been visited, and are
removed before the lock is released.
-/

import Sivfs.SeqLog.Create
import Sivfs.Lib.Machine

open Function

namespace Sivfs
namespace SeqLog

open Call
open Commit (sizeofLogEntry sizeofPointer)

/-- `DELETE_BATCH`. -/
def deleteBatch : ℕ := 128

/-- Where a thread is in `sivfs_delete_log`. -/
inductive Pc where
  /-- Not in the function. -/
  | out
  /-- Before a turn of the loop. -/
  | turn (stop : Ts)
  /-- In a turn, with `commit_lock`; the `indices` have been visited. -/
  | visiting (stop : Ts) (indices : List ℕ)
  /-- After the loop, with `stop_ts == SIVFS_INVALID_TS`. -/
  | tail
  deriving DecidableEq

/-- The argument of the call that a thread is in. -/
def Pc.stop : Pc → Option Ts
  | .out => none
  | .turn stop => some stop
  | .visiting stop _ => some stop
  | .tail => some invalidTs

/-- The log and the threads that delete from it. -/
structure System (ι : Type*) where
  log : State
  commitLock : Option ι
  pc : ι → Pc
  /-- The timestamp of the last entry that was created. -/
  latestTs : Option ℕ
  /-- The final call has begun. -/
  closing : Bool
  /-- The final call has freed the last chunk. -/
  closed : Bool

/-- The steps. -/
inductive Act (ι : Type*) where
  /-- A successful `sivfs_create_log_entry`. -/
  | create (ts size : ℕ)
  | call (i : ι) (stop : Ts)
  | lock (i : ι)
  | visit (i : ι)
  | unlock (i : ι)
  | cleanUp (i : ι)

/-- The thread that takes the step. -/
def Act.thread {ι : Type*} : Act ι → Option ι
  | .create _ _ => none
  | .call i _ => some i
  | .lock i => some i
  | .visit i => some i
  | .unlock i => some i
  | .cleanUp i => some i

/-- The first entry in a chunk frees the chunk before. -/
def State.visit (s : State) (a : Addr) : State :=
  if (s.logEntry a).firstInChunk then s.kfree (s.word ⟨a.chunk, a.offset - sizeofPointer⟩) else s

/-- `radix_tree_delete` of the entries visited. -/
def State.remove (s : State) (indices : List ℕ) : State :=
  { s with logCache := s.logCache.filter fun p => p.1 ∉ indices }

/-- The next slot of the iteration, if it goes on. -/
def State.nextSlot (s : State) (stop : Ts) (indices : List ℕ) : Option (ℕ × Addr) :=
  if indices.length = deleteBatch then none
  else s.logCache[indices.length]?.filter fun p => (p.1 : Ts) < stop

/-- The last chunk is freed. -/
def State.cleanUp (s : State) : State :=
  { s.kfree s.masterLog.chunkStartPtr with
    masterLog := { s.masterLog with bytesRemainingChunk := 0 } }

section Step

variable {ι : Type*} [DecidableEq ι]

/-- Thread `i` returns from a call with `stop`. -/
def System.return (s : System ι) (i : ι) (stop : Ts) : System ι :=
  { s with log := { s.log with masterLogDeletedTs := stop }, pc := update s.pc i .out }

/-- The end of a turn. -/
def System.unlock (s : System ι) (i : ι) (stop : Ts) (indices : List ℕ) : System ι :=
  let s' := { s with log := s.log.remove indices, commitLock := none }
  if indices ≠ [] then { s' with pc := update s.pc i (.turn stop) }
  else if stop = invalidTs then { s' with pc := update s.pc i .tail }
  else s'.return i stop

/-- One step. -/
def step (s : System ι) : Act ι → Option (System ι)
  | .create ts size =>
    if s.commitLock = none ∧ s.closing = false ∧ (∀ t ∈ s.latestTs, t < ts) ∧ size < 2 ^ 63 then
      ((createLogEntry ⟨false, false⟩ ts size).run (fun _ log => some log) (fun _ _ => none)
        s.log).map fun log => { s with log := log, latestTs := some ts }
    else none
  | .call i stop =>
    if s.pc i = .out ∧ s.closing = false ∧ (stop ≤ (s.latestTs.getD 0 : ℕ) ∨ stop = invalidTs) then
      some { s with pc := update s.pc i (.turn stop), closing := decide (stop = invalidTs) }
    else none
  | .lock i =>
    match s.pc i with
    | .turn stop =>
      if s.commitLock = none then
        some { s with pc := update s.pc i (.visiting stop []), commitLock := some i }
      else none
    | _ => none
  | .visit i =>
    match s.pc i with
    | .visiting stop indices => (s.log.nextSlot stop indices).map fun p =>
      { s with log := s.log.visit p.2, pc := update s.pc i (.visiting stop (indices ++ [p.1])) }
    | _ => none
  | .unlock i =>
    match s.pc i with
    | .visiting stop indices =>
      if s.log.nextSlot stop indices = none then some (s.unlock i stop indices) else none
    | _ => none
  | .cleanUp i =>
    match s.pc i with
    | .tail =>
      if s.commitLock = none then
        some { s.return i invalidTs with
          log := { s.log.cleanUp with masterLogDeletedTs := invalidTs }, closed := true }
      else none
    | _ => none

/-- The log of a new shared state. -/
def Init (s : System ι) : Prop :=
  s.log = .empty ∧ s.commitLock = none ∧ (∀ i, s.pc i = .out) ∧ s.latestTs = none ∧
    s.closing = false ∧ s.closed = false

/-- The log under commits and deletions. -/
def logMachine (ι : Type*) [DecidableEq ι] : Machine (System ι) (Act ι) where
  init := Init
  step := step

variable {s s' : System ι} {a : Act ι}

/-- What each step needs and does. -/
inductive Stepped (s : System ι) : Act ι → System ι → Prop where
  | create {ts size : ℕ} {a : Addr} {log : State} (hlock : s.commitLock = none)
      (hopen : s.closing = false) (hts : ∀ t ∈ s.latestTs, t < ts)
      (h : Created s.log ts size a log) :
      Stepped s (.create ts size) { s with log := log, latestTs := some ts }
  | call {i : ι} {stop : Ts} (hpc : s.pc i = .out) (hopen : s.closing = false)
      (hstop : stop ≤ (s.latestTs.getD 0 : ℕ) ∨ stop = invalidTs) :
      Stepped s (.call i stop)
        { s with pc := update s.pc i (.turn stop), closing := decide (stop = invalidTs) }
  | lock {i : ι} {stop : Ts} (hpc : s.pc i = .turn stop) (hlock : s.commitLock = none) :
      Stepped s (.lock i)
        { s with pc := update s.pc i (.visiting stop []), commitLock := some i }
  | visit {i : ι} {stop : Ts} {indices : List ℕ} {p : ℕ × Addr}
      (hpc : s.pc i = .visiting stop indices) (hp : s.log.nextSlot stop indices = some p) :
      Stepped s (.visit i)
        { s with
          log := s.log.visit p.2
          pc := update s.pc i (.visiting stop (indices ++ [p.1])) }
  | unlock {i : ι} {stop : Ts} {indices : List ℕ} (hpc : s.pc i = .visiting stop indices)
      (hend : s.log.nextSlot stop indices = none) : Stepped s (.unlock i) (s.unlock i stop indices)
  | cleanUp {i : ι} (hpc : s.pc i = .tail) (hlock : s.commitLock = none) :
      Stepped s (.cleanUp i)
        { s.return i invalidTs with
          log := { s.log.cleanUp with masterLogDeletedTs := invalidTs }, closed := true }

theorem stepped (hp : Placed s.log) (h : step s a = some s') : Stepped s a s' := by
  cases a with
  | create ts size =>
    simp only [step] at h
    split_ifs at h with hc
    obtain ⟨hlock, hopen, hts, hsize⟩ := hc
    have hwp := wp_createLogEntry ⟨false, false⟩ ts hp hsize
    obtain ⟨log, hrun, rfl⟩ := Option.map_eq_some_iff.1 h
    have hcreated : ∃ a, Created s.log ts size a log := by
      revert hrun
      refine run_of_wp hwp (P := fun r => r = some log → _) (fun a log' hcreated hrun => ?_)
        fun e log' _ hrun => ?_
      · obtain rfl := Option.some.inj hrun
        exact ⟨a, hcreated.2⟩
      · cases hrun
    obtain ⟨a, hcreated⟩ := hcreated
    exact .create hlock hopen hts hcreated
  | call i stop =>
    simp only [step] at h
    split_ifs at h with hc
    obtain rfl := Option.some.inj h
    exact .call hc.1 hc.2.1 hc.2.2
  | lock i =>
    simp only [step] at h
    split at h
    · rename_i stop hpc
      split_ifs at h with hlock
      obtain rfl := Option.some.inj h
      exact .lock hpc hlock
    · cases h
  | visit i =>
    simp only [step] at h
    split at h
    · rename_i stop indices hpc
      obtain ⟨p, hnext, rfl⟩ := Option.map_eq_some_iff.1 h
      exact .visit hpc hnext
    · cases h
  | unlock i =>
    simp only [step] at h
    split at h
    · rename_i stop indices hpc
      split_ifs at h with hend
      obtain rfl := Option.some.inj h
      exact .unlock hpc hend
    · cases h
  | cleanUp i =>
    simp only [step] at h
    split at h
    · rename_i hpc
      split_ifs at h with hlock
      obtain rfl := Option.some.inj h
      exact .cleanUp hpc hlock
    · cases h

/-! ### The calls in progress -/

/-- The calls in progress, and which of them is the final one. -/
structure Calls (s : System ι) : Prop where
  lock : ∀ i stop indices, s.pc i = .visiting stop indices → s.commitLock = some i
  stop : ∀ i stop, (s.pc i).stop = some stop →
    stop ≤ (s.latestTs.getD 0 : ℕ) ∨ stop = invalidTs
  final : ∀ i, (s.pc i).stop = some invalidTs → s.closing = true ∧ s.closed = false
  unique : ∀ i j, (s.pc i).stop = some invalidTs → (s.pc j).stop = some invalidTs → i = j
  closed : s.closed = true → s.closing = true

/-- The argument of a call stays the same until it returns. -/
theorem stop_update {pc : ι → Pc} {i : ι} {new : Pc} (h : new.stop = (pc i).stop) (j : ι) :
    (update pc i new j).stop = (pc j).stop := by
  by_cases hj : j = i
  · rw [hj, update_self, h]
  · rw [update_of_ne hj]

/-- A turn of a thread's call leaves all calls in progress. -/
theorem Calls.turn (h : Calls s) {i : ι} {new : Pc} {lock : Option ι} {log : State}
    (hnew : new.stop = (s.pc i).stop)
    (hlock : ∀ j stop indices, update s.pc i new j = .visiting stop indices → lock = some j) :
    Calls { s with log := log, pc := update s.pc i new, commitLock := lock } := by
  have hstop : ∀ j, (update s.pc i new j).stop = (s.pc j).stop := stop_update hnew
  refine ⟨hlock, fun j stop hj => h.stop j stop (by rwa [← hstop]), fun j hj => h.final j ?_,
    fun j k hj hk => h.unique j k ?_ ?_, h.closed⟩
  · rwa [← hstop]
  · rwa [← hstop]
  · rwa [← hstop]

/-- A call returns. -/
theorem Calls.return (h : Calls s) {i : ι} {lock : Option ι} {log : State} {closed : Bool}
    (hlock : ∀ j stop indices, update s.pc i .out j = .visiting stop indices → lock = some j)
    (hclosed : closed = s.closed ∨ (s.pc i).stop = some invalidTs) :
    Calls { s with
      log := log, pc := update s.pc i .out, commitLock := lock, closed := closed } := by
  have hstop : ∀ j stop, (update s.pc i .out j).stop = some stop →
      j ≠ i ∧ (s.pc j).stop = some stop := by
    intro j stop hj
    by_cases hji : j = i
    · rw [hji, update_self] at hj
      cases hj
    · rw [update_of_ne hji] at hj
      exact ⟨hji, hj⟩
  refine ⟨hlock, fun j stop hj => h.stop j stop (hstop j stop hj).2, fun j hj => ?_,
    fun j k hj hk => h.unique j k (hstop j _ hj).2 (hstop k _ hk).2, fun hc => ?_⟩
  · obtain ⟨hne, hj'⟩ := hstop j _ hj
    rcases hclosed with rfl | hi
    · exact h.final j hj'
    · exact absurd (h.unique j i hj' hi) hne
  · rcases hclosed with rfl | hi
    · exact h.closed hc
    · exact (h.final i hi).1

theorem Calls.step (h : Calls s) (hstep : Stepped s a s') : Calls s' := by
  cases hstep with
  | create hlock hopen hts hcreated =>
    refine ⟨h.lock, fun i stop hi => ?_, h.final, h.unique, h.closed⟩
    refine (h.stop i stop hi).imp_left fun hle => hle.trans ?_
    rcases hlatest : s.latestTs with _ | t
    · simp
    · simpa using (hts t hlatest).le
  | @call i stop hpc hopen hstop =>
    have hother : ∀ j stop', (update s.pc i (.turn stop) j).stop = some stop' →
        j = i ∧ stop' = stop ∨ (s.pc j).stop = some stop' := by
      intro j stop' hj
      by_cases hji : j = i
      · rw [hji, update_self] at hj
        exact .inl ⟨hji, (Option.some.inj hj).symm⟩
      · rw [update_of_ne hji] at hj
        exact .inr hj
    have hnone : ∀ j, (s.pc j).stop ≠ some invalidTs := by
      intro j hj
      rw [(h.final j hj).1] at hopen
      cases hopen
    have hclosed : s.closed = false := by
      rw [Bool.eq_false_iff]
      intro hc
      rw [h.closed hc] at hopen
      cases hopen
    refine ⟨fun j stop' indices hj => ?_, fun j stop' hj => ?_, fun j hj => ?_, fun j k hj hk => ?_,
      fun hc => ?_⟩
    · by_cases hji : j = i
      · simp [hji] at hj
      · simp only [update_of_ne hji] at hj
        exact h.lock j stop' indices hj
    · rcases hother j stop' hj with ⟨-, rfl⟩ | hj
      · exact hstop
      · exact h.stop j stop' hj
    · rcases hother j _ hj with ⟨-, rfl⟩ | hj
      · exact ⟨by simp, hclosed⟩
      · exact absurd hj (hnone j)
    · rcases hother j _ hj with ⟨rfl, -⟩ | hj
      · rcases hother k _ hk with ⟨rfl, -⟩ | hk
        · rfl
        · exact absurd hk (hnone k)
      · exact absurd hj (hnone j)
    · rw [hclosed] at hc
      cases hc
  | @lock i stop hpc hlock =>
    refine h.turn (by rw [hpc]; rfl) fun j stop' indices hj => ?_
    by_cases hji : j = i
    · rw [hji]
    · rw [update_of_ne hji] at hj
      have hheld := h.lock j stop' indices hj
      rw [hlock] at hheld
      cases hheld
  | @visit i stop indices p hpc hp =>
    refine h.turn (by rw [hpc]; rfl) fun j stop' indices' hj => ?_
    by_cases hji : j = i
    · rw [hji]
      exact h.lock i stop indices hpc
    · rw [update_of_ne hji] at hj
      exact h.lock j stop' indices' hj
  | @unlock i stop indices hpc hend =>
    have hother : ∀ new : Pc, (∀ stop' indices', new ≠ .visiting stop' indices') →
        ∀ j stop' indices', update s.pc i new j = .visiting stop' indices' →
          (none : Option ι) = some j := by
      intro new hnew j stop' indices' hj
      by_cases hji : j = i
      · rw [hji, update_self] at hj
        exact absurd hj (hnew stop' indices')
      · rw [update_of_ne hji] at hj
        have hj' := (h.lock j stop' indices' hj).symm.trans (h.lock i stop indices hpc)
        exact absurd (Option.some.inj hj') hji
    simp only [System.unlock]
    split_ifs with hne hinv
    · exact h.turn (by rw [hpc]; rfl) (hother _ (by simp))
    · exact h.turn (by rw [hpc, hinv]; rfl) (hother _ (by simp))
    · exact h.return (hother _ (by simp)) (.inl rfl)
  | @cleanUp i hpc hlock =>
    refine h.return (fun j stop' indices' hj => ?_) (.inr (by rw [hpc]; rfl))
    by_cases hji : j = i
    · simp [hji] at hj
    · rw [update_of_ne hji] at hj
      exact h.lock j stop' indices' hj

end Step

end SeqLog
end Sivfs
