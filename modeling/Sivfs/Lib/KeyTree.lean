/-
# Trees by key

A tree that maps keys to entries, seen through `lookup`: the list of its entries, in which
the first entry of a key counts.
-/

import Mathlib.Tactic.Common

/-- A tree with the keys `κ`. -/
abbrev KeyTree (κ β : Type*) := List (κ × β)

namespace KeyTree

variable {κ β : Type*} [DecidableEq κ] (t : KeyTree κ β) {k k' : κ} {v : β}

/-- The tree with the entry `v` at `k`. -/
def insert (k : κ) (v : β) : KeyTree κ β := (k, v) :: t

/-- The tree without `k`. -/
def delete (k : κ) : KeyTree κ β := t.filter fun entry => entry.1 ≠ k

/-- The tree in which the entry at `k` has changed. -/
def modify (k : κ) (f : β → β) : KeyTree κ β :=
  t.map fun entry => if entry.1 = k then (entry.1, f entry.2) else entry

/-- What is inserted is found. -/
@[simp] theorem lookup_insert_self : (insert t k v).lookup k = some v := by
  simp [insert]

/-- The other keys have what they had. -/
theorem lookup_insert_of_ne (h : k' ≠ k) : (insert t k v).lookup k' = t.lookup k' := by
  simp [insert, List.lookup_cons, beq_eq_false_iff_ne.2 h]

/-- What is deleted is gone. -/
@[simp] theorem lookup_delete_self : (delete t k).lookup k = none := by
  rw [List.lookup_eq_none_iff]
  intro entry hentry
  exact bne_iff_ne.2 (Ne.symm (of_decide_eq_true (List.mem_filter.1 hentry).2))

/-- The other keys have what they had. -/
theorem lookup_delete_of_ne (h : k' ≠ k) : (delete t k).lookup k' = t.lookup k' := by
  induction t with
  | nil => rfl
  | cons entry t ih =>
    obtain ⟨a, v⟩ := entry
    by_cases ha : a = k
    · have hk' : (k' == a) = false := beq_eq_false_iff_ne.2 (ha ▸ h)
      rw [delete, List.filter_cons_of_neg (by simpa using ha), List.lookup_cons, hk']
      exact ih
    · rw [delete, List.filter_cons_of_pos (by simpa using ha), List.lookup_cons, List.lookup_cons]
      cases k' == a
      · exact ih
      · rfl

/-- What was inserted is taken out again. -/
theorem delete_insert (h : t.lookup k = none) : delete (insert t k v) k = t := by
  rw [delete, insert, List.filter_cons_of_neg (by simp), List.filter_eq_self]
  intro entry hentry
  exact decide_eq_true (Ne.symm (bne_iff_ne.1 (List.lookup_eq_none_iff.1 h entry hentry)))

variable {f : β → β}

/-- A modification changes the value at its key, if there is one. -/
@[simp] theorem lookup_modify_self : (modify t k f).lookup k = (t.lookup k).map f := by
  induction t with
  | nil => rfl
  | cons entry t ih =>
    obtain ⟨a, v⟩ := entry
    by_cases ha : a = k
    · subst ha
      simp [modify]
    · have hk : (k == a) = false := beq_eq_false_iff_ne.2 (Ne.symm ha)
      rw [modify, List.map_cons, if_neg ha, List.lookup_cons, List.lookup_cons, hk]
      exact ih

/-- The other keys have what they had. -/
theorem lookup_modify_of_ne (h : k' ≠ k) : (modify t k f).lookup k' = t.lookup k' := by
  induction t with
  | nil => rfl
  | cons entry t ih =>
    obtain ⟨a, v⟩ := entry
    have hkey : (if a = k then (a, f v) else (a, v)).1 = a := by split_ifs <;> rfl
    rw [modify, List.map_cons, List.lookup_cons, List.lookup_cons]
    by_cases ha : a = k
    · have hk' : (k' == a) = false := beq_eq_false_iff_ne.2 (ha ▸ h)
      simp only [hkey, hk']
      exact ih
    · simp only [if_neg ha]
      cases k' == a
      · exact ih
      · rfl

end KeyTree
