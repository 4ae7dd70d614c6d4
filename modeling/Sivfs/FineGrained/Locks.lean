/-
# Fine-grained locking

`FGL_ADD_LOCK`, `FGL_LOCK_ALL` and `FGL_UNLOCK_ALL` of
`test/src/tx_sys/fine_grained_locking.h` on the spinlocks of `test/src/simple_mutex.h`.  Any
number of threads take turns; every compare-exchange and every store of a spinlock is one
turn.

`FGL_LOCK_ALL` sorts the locks of its thread, drops the repetitions, and then calls `unlock`
on each of them.  What it calls there is a parameter of the machine, so that a thread can be
said to spin (`State.Wants`).  With `unlock`, as in the source, nothing is ever acquired, and
the helper does what it is for exactly as long as no lock is added (`correct_iff`).
-/

import Sivfs.Lib.Machine
import Sivfs.Lib.LockOrder
import Mathlib.Data.List.Sort

namespace Sivfs
namespace FineGrained

open LockOrder

/-- The calls of `simple_spinlock`. -/
inductive SpinOp where
  | lock
  | unlock
  deriving DecidableEq

/-- Where a thread is. -/
inductive Phase (α : Type) where
  /-- Before `FGL_LOCK_ALL`. -/
  | adding
  /-- In the loop of `FGL_LOCK_ALL`, at the first lock of `rest`. -/
  | acquiring (rest : List α)
  /-- Between the return of `FGL_LOCK_ALL` and `FGL_UNLOCK_ALL`. -/
  | holding
  /-- In the loop of `FGL_UNLOCK_ALL`, at the first lock of `rest`. -/
  | releasing (rest : List α)
  deriving DecidableEq

/-- A thread: its `fine_grained_locking_state` and its history. -/
structure Thread (α : Type) where
  lockVec : List α
  nLocks : ℕ
  phase : Phase α
  /-- The locks as they were added. -/
  added : List α
  /-- The locks acquired and not given back, in this order. -/
  held : List α

/-- The spinlocks and the threads. -/
structure State (ι α : Type) where
  locked : α → Bool
  thread : ι → Thread α

namespace Thread

variable {α : Type} (t : Thread α)

/-- The loop of `FGL_LOCK_ALL` goes on with `rest`. -/
def acquireFrom (rest : List α) : Thread α :=
  if rest.isEmpty then { t with nLocks := t.nLocks + t.lockVec.length, phase := .holding }
  else { t with phase := .acquiring rest }

/-- The loop of `FGL_UNLOCK_ALL` goes on with `rest`. -/
def releaseFrom (rest : List α) : Thread α :=
  if rest.isEmpty then { t with lockVec := [], phase := .adding, added := [] }
  else { t with phase := .releasing rest }

end Thread

variable {ι α : Type} [DecidableEq ι] [LinearOrder α]

/-- A turn of a thread. -/
inductive Act (ι α : Type) where
  | addLock (i : ι) (lock : α)
  | lockAll (i : ι)
  | unlockAll (i : ι)
  | next (i : ι)

namespace State

variable (s : State ι α) (i : ι)

/-- Thread `i` becomes `t`. -/
def setThread (t : Thread α) : State ι α := { s with thread := Function.update s.thread i t }

/-- `FGL_ADD_LOCK`. -/
def fglAddLock (lock : α) : State ι α :=
  let t := s.thread i
  s.setThread i { t with lockVec := t.lockVec ++ [lock], added := t.added ++ [lock] }

/-- `FGL_LOCK_ALL`, up to its loop. -/
def fglLockAll : State ι α :=
  let t := s.thread i
  let lockVec := unique (t.lockVec.insertionSort (· ≤ ·))
  s.setThread i ({ t with lockVec := lockVec }.acquireFrom lockVec)

/-- `FGL_UNLOCK_ALL`, up to its loop. -/
def fglUnlockAll : State ι α :=
  let t := s.thread i
  s.setThread i (t.releaseFrom t.lockVec)

/-- A turn of `simple_spinlock::lock`; thread `i` is `t` if it gets the lock. -/
def spinLock (l : α) (t : Thread α) : State ι α :=
  if s.locked l then s
  else
    { s.setThread i { t with held := t.held ++ [l] } with
      locked := Function.update s.locked l true }

/-- `simple_spinlock::unlock`; thread `i` goes on as `t`. -/
def spinUnlock (l : α) (t : Thread α) : State ι α :=
  { s.setThread i { t with held := t.held.erase l } with
    locked := Function.update s.locked l false }

/-- The next turn of a loop, with the call `op` in the one of `FGL_LOCK_ALL`. -/
def next (op : SpinOp) : Option (State ι α) :=
  let t := s.thread i
  match t.phase with
  | .acquiring (l :: rest) =>
    match op with
    | .lock => some (s.spinLock i l (t.acquireFrom rest))
    | .unlock => some (s.spinUnlock i l (t.acquireFrom rest))
  | .releasing (l :: rest) => some (s.spinUnlock i l (t.releaseFrom rest))
  | _ => none

end State

/-- One turn.  A thread adds its locks before `FGL_LOCK_ALL`. -/
def step (op : SpinOp) (s : State ι α) : Act ι α → Option (State ι α)
  | .addLock i l => if (s.thread i).phase = .adding then some (s.fglAddLock i l) else none
  | .lockAll i => if (s.thread i).phase = .adding then some (s.fglLockAll i) else none
  | .unlockAll i => if (s.thread i).phase = .holding then some (s.fglUnlockAll i) else none
  | .next i => s.next i op

/-- Every lock is free, and no thread has called anything. -/
def initial : State ι α := ⟨fun _ => false, fun _ => ⟨[], 0, .adding, [], []⟩⟩

/-- The threads `ι`, in any order, where `FGL_LOCK_ALL` calls `op` on its locks. -/
def helper (op : SpinOp) (ι α : Type) [DecidableEq ι] [LinearOrder α] :
    Machine (State ι α) (Act ι α) where
  init s := s = initial
  step := step op

/-! ### What the helper is for -/

/-- Thread `i` spins in `simple_spinlock::lock` for `l`. -/
def State.Wants (op : SpinOp) (s : State ι α) (i : ι) (l : α) : Prop :=
  op = .lock ∧ s.locked l = true ∧ ∃ rest, (s.thread i).phase = .acquiring (l :: rest)

/-- Thread `i` has acquired `l`. -/
def State.Holds (s : State ι α) (i : ι) (l : α) : Prop := l ∈ (s.thread i).held

/-- **Mutual exclusion without deadlock.** -/
structure Correct (op : SpinOp) (s : State ι α) : Prop where
  exclusive : ∀ i j, (s.thread i).phase = .holding → (s.thread j).phase = .holding →
    ∀ l ∈ (s.thread i).added, l ∈ (s.thread j).added → i = j
  /-- However often a lock was added, it is acquired once. -/
  once : ∀ i, (s.thread i).phase = .holding → ∀ l ∈ (s.thread i).added,
    (s.thread i).held.count l = 1
  /-- The locks are acquired in their order. -/
  ordered : ∀ i, (s.thread i).held.Pairwise (· < ·)
  noCycle : ∀ i, ¬Relation.TransGen (WaitsFor (s.Wants op) s.Holds) i i

variable {op : SpinOp} {s s' : State ι α} {t : Thread α} {i j : ι} {l : α}

namespace State

omit [LinearOrder α] in
@[simp] theorem setThread_self : (s.setThread i t).thread i = t := Function.update_self ..

omit [LinearOrder α] in
theorem setThread_of_ne (h : j ≠ i) : (s.setThread i t).thread j = s.thread j :=
  Function.update_of_ne h ..

end State

/-! ### With `unlock` in the loop -/

/-- Nothing is ever acquired. -/
theorem held_eq_nil (hs : (helper .unlock ι α).Reachable s) (i : ι) : (s.thread i).held = [] := by
  refine hs.invariant (I := fun s => ∀ i, (s.thread i).held = []) ?_
    (fun s a s' _ h hstep => ?_) i
  · rintro _ rfl i
    rfl
  · -- A turn of thread `j` that leaves its `held` empty.
    have hset {j : ι} {t : Thread α} (ht : t.held = []) (i : ι) :
        ((s.setThread j t).thread i).held = [] := by
      by_cases hij : i = j
      · rw [hij, State.setThread_self, ht]
      · rw [State.setThread_of_ne hij, h i]
    have hacquire {j : ι} {vec rest : List α} :
        ({ s.thread j with lockVec := vec }.acquireFrom rest).held = [] := by
      rw [Thread.acquireFrom]
      split_ifs <;> exact h j
    have hrelease {j : ι} {rest : List α} : ((s.thread j).releaseFrom rest).held = [] := by
      rw [Thread.releaseFrom]
      split_ifs <;> exact h j
    cases a with
    | addLock j l =>
      simp only [helper, step] at hstep
      split_ifs at hstep
      obtain rfl := Option.some.inj hstep
      exact hset (h j)
    | lockAll j =>
      simp only [helper, step] at hstep
      split_ifs at hstep
      obtain rfl := Option.some.inj hstep
      exact hset hacquire
    | unlockAll j =>
      simp only [helper, step] at hstep
      split_ifs at hstep
      obtain rfl := Option.some.inj hstep
      exact hset hrelease
    | next j =>
      have hspin {l : α} {t : Thread α} (ht : t.held = []) (i : ι) :
          ((s.spinUnlock j l t).thread i).held = [] :=
        hset (t := { t with held := t.held.erase l }) (by rw [ht]; rfl) i
      simp only [helper, step, State.next] at hstep
      split at hstep
      · obtain rfl := Option.some.inj hstep
        exact hspin hacquire
      · obtain rfl := Option.some.inj hstep
        exact hspin hrelease
      · cases hstep

/-- **The helper does what it is for exactly if no lock is added**: in every state that any
number of threads reach, whatever locks they add, there is mutual exclusion without deadlock
exactly if the threads past `FGL_LOCK_ALL` have added no lock. -/
theorem correct_iff (hs : (helper .unlock ι α).Reachable s) :
    Correct .unlock s ↔ ∀ i, (s.thread i).phase = .holding → (s.thread i).added = [] := by
  refine ⟨fun h i hi => List.eq_nil_iff_forall_not_mem.2 fun l hl => ?_, fun h => ⟨?_, ?_, ?_, ?_⟩⟩
  · have honce := h.once i hi l hl
    rw [held_eq_nil hs i] at honce
    cases honce
  · intro i j hi _ l hl
    rw [h i hi] at hl
    exact absurd hl List.not_mem_nil
  · intro i hi l hl
    rw [h i hi] at hl
    exact absurd hl List.not_mem_nil
  · intro i
    rw [held_eq_nil hs i]
    exact .nil
  · exact not_waitCycle fun _ _ _ hwants _ => nomatch hwants.1

/-- Threads 0 and 1 add the same lock, thread 0 twice, and return from `FGL_LOCK_ALL`. -/
def sameLock : List (Act ℕ ℕ) :=
  [.addLock 0 5, .addLock 0 5, .addLock 1 5, .lockAll 0, .lockAll 1, .next 0, .next 1]

theorem run_sameLock : ∃ s, (helper .unlock ℕ ℕ).Reachable s ∧ (s.thread 0).phase = .holding ∧
    (s.thread 1).phase = .holding ∧ (s.thread 0).added = [5, 5] ∧ (s.thread 1).added = [5] := by
  have h : ((helper .unlock ℕ ℕ).run (fun _ _ => true) initial sameLock).map (fun s =>
      ((s.thread 0).phase, (s.thread 1).phase, (s.thread 0).added, (s.thread 1).added)) =
      some (.holding, .holding, [5, 5], [5]) := by decide +kernel
  obtain ⟨s, hs, hfields⟩ := Option.map_eq_some_iff.1 h
  simp only [Prod.mk.injEq] at hfields
  exact ⟨s, Machine.ReachableWith.run (fun _ _ _ => trivial) (.init rfl) hs, hfields⟩

theorem correct_iff_sameLock : ∃ s : State ℕ ℕ, (s.thread 0).added = [5, 5] ∧
    (Correct .unlock s ↔ ∀ i, (s.thread i).phase = .holding → (s.thread i).added = []) := by
  obtain ⟨s, hs, -, -, hadded, -⟩ := run_sameLock
  exact ⟨s, hadded, correct_iff hs⟩

/-- **Two threads hold one lock.** -/
theorem not_correct_sameLock :
    ¬∀ s : State ℕ ℕ, (helper .unlock ℕ ℕ).Reachable s → Correct .unlock s := by
  intro hall
  obtain ⟨s, hs, hzero, hone, haddedZero, haddedOne⟩ := run_sameLock
  have hsame := (hall s hs).exclusive 0 1 hzero hone 5 (by simp [haddedZero]) (by simp [haddedOne])
  cases hsame

end FineGrained
end Sivfs
