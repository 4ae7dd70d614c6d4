/-
# Undo lists

Memory that is written through is taken back by a list of the values that were there
before, last entry first.  An entry that is pushed in front of its store changes nothing in
what the list takes back (`rollback_push`), and at every address the oldest entry counts
(`rollback_apply`).
-/

import Mathlib.Logic.Function.Basic
import Mathlib.Tactic.Common

namespace UndoLog

variable {α β : Type*} [DecidableEq α]

/-- The memory after the entries are put back in reverse order. -/
def rollback (log : List (α × β)) (m : α → β) : α → β :=
  log.foldr (fun entry m => Function.update m entry.1 entry.2) m

variable {log : List (α × β)} {m m' : α → β} {a : α} {v : β}

@[simp] theorem rollback_nil : rollback [] m = m := rfl

@[simp] theorem rollback_snoc :
    rollback (log ++ [(a, v)]) m = rollback log (Function.update m a v) := by
  simp [rollback]

/-- **An entry takes back the store that follows it.** -/
theorem rollback_push : rollback (log ++ [(a, m a)]) (Function.update m a v) = rollback log m := by
  simp

/-- At every address the oldest entry counts. -/
theorem rollback_apply : rollback log m a = (log.lookup a).getD (m a) := by
  induction log with
  | nil => rfl
  | cons entry log ih =>
    obtain ⟨b, w⟩ := entry
    rcases eq_or_ne a b with rfl | hne
    · simp [rollback]
    · rw [rollback, List.foldr_cons, Function.update_of_ne hne, List.lookup_cons,
        beq_eq_false_iff_ne.2 hne]
      exact ih

omit [DecidableEq α] in
/-- An address has an undo entry if it has been written. -/
theorem lookup_isSome [BEq α] [LawfulBEq α] :
    (log.lookup a).isSome ↔ a ∈ log.map Prod.fst := by
  induction log with
  | nil => simp
  | cons entry log ih =>
    obtain ⟨b, w⟩ := entry
    rcases eq_or_ne a b with rfl | hne
    · simp
    · simp [List.lookup_cons, beq_eq_false_iff_ne.2 hne, ih, hne]

/-- What has not been written has none. -/
theorem lookup_of_not_mem (h : a ∉ log.map Prod.fst) : log.lookup a = none := by
  rw [← Option.not_isSome_iff_eq_none, lookup_isSome]
  exact h

/-- A newer entry counts at an address without an older one. -/
theorem lookup_snoc {b : α} : (log ++ [(b, v)]).lookup a =
    (log.lookup a).or (if a = b then some v else none) := by
  induction log with
  | nil =>
    rcases eq_or_ne a b with rfl | hne
    · simp
    · simp [List.lookup_cons, beq_eq_false_iff_ne.2 hne, hne]
  | cons entry log ih =>
    obtain ⟨c, w⟩ := entry
    rcases eq_or_ne a c with rfl | hne
    · simp
    · simp [List.lookup_cons, beq_eq_false_iff_ne.2 hne, ih]

/-- Memory without an entry stays. -/
theorem rollback_of_not_mem (h : a ∉ log.map Prod.fst) : rollback log m a = m a := by
  rw [rollback_apply, lookup_of_not_mem h]
  rfl

/-- Only the memory without an entry matters. -/
theorem rollback_congr (h : a ∉ log.map Prod.fst → m a = m' a) :
    rollback log m a = rollback log m' a := by
  by_cases ha : a ∈ log.map Prod.fst
  · obtain ⟨w, hw⟩ := Option.isSome_iff_exists.1 (lookup_isSome.2 ha)
    simp [rollback_apply, hw]
  · rw [rollback_of_not_mem ha, rollback_of_not_mem ha, h ha]

end UndoLog
