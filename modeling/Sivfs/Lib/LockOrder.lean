/-
# Locks that are taken in order

A thread waits for the threads that hold the lock it wants.  If every lock that a thread
wants is above the locks that it holds, the wanted locks rise along a chain of waiting
threads, and no chain comes back to where it started (`not_waitCycle`).

`unique` drops the adjacent repetitions, as is done with the sorted list of a thread's locks.
-/

import Mathlib.Order.Lattice
import Mathlib.Logic.Relation
import Mathlib.Data.List.Basic

namespace LockOrder

variable {ι α : Type*}

/-- Thread `i` wants a lock that thread `j` holds. -/
def WaitsFor (wants holds : ι → α → Prop) (i j : ι) : Prop := ∃ l, wants i l ∧ holds j l

section Waiting

variable [Preorder α] {wants holds : ι → α → Prop} {i j : ι}

/-- Along a chain of waiting threads the locks rise. -/
theorem exists_le_of_transGen (h : ∀ i l l', wants i l → holds i l' → l' < l)
    (hij : Relation.TransGen (WaitsFor wants holds) i j) :
    ∃ l l', wants i l ∧ holds j l' ∧ l ≤ l' := by
  induction hij with
  | single hij =>
    obtain ⟨l, hi, hj⟩ := hij
    exact ⟨l, l, hi, hj, le_rfl⟩
  | tail _ hjk ih =>
    obtain ⟨l, l', hi, hj, hle⟩ := ih
    obtain ⟨m, hwants, hk⟩ := hjk
    exact ⟨l, m, hi, hk, hle.trans (h _ m l' hwants hj).le⟩

/-- **Locks taken in order do not deadlock.** -/
theorem not_waitCycle (h : ∀ i l l', wants i l → holds i l' → l' < l) (i : ι) :
    ¬Relation.TransGen (WaitsFor wants holds) i i := by
  intro hcycle
  obtain ⟨l, l', hwants, hholds, hle⟩ := exists_le_of_transGen h hcycle
  exact (h i l l' hwants hholds).not_ge hle

end Waiting

section Unique

variable [DecidableEq α]

/-- A list without adjacent repetitions. -/
def unique : List α → List α
  | [] => []
  | [a] => [a]
  | a :: b :: l => if a = b then unique (b :: l) else a :: unique (b :: l)

end Unique

end LockOrder
