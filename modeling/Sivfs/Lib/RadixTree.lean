/-
# Maps with ordered keys

A radix tree of the kernel is a finite map from numbers to pointers whose slots are visited
in the order of their keys (`radix_tree_for_each_slot`).  Here it is the list of its slots,
which carries its order.

`sum` adds up a quantity over the slots, in any commutative monoid.  How it changes when a
slot is set or deleted is what conservation arguments need.
-/

import Mathlib.Algebra.BigOperators.Group.List.Basic
import Mathlib.Data.List.Basic
import Mathlib.Order.Lattice
import Mathlib.Tactic.Abel

/-- A finite map with ordered keys. -/
@[ext] structure RadixTree (κ β : Type*) [LinearOrder κ] where
  slots : List (κ × β)
  sorted : (slots.map Prod.fst).Pairwise (· < ·)

namespace RadixTree

variable {κ β : Type*} [LinearOrder κ]

/-- The tree without slots. -/
def empty : RadixTree κ β := ⟨[], List.Pairwise.nil⟩

/-- `radix_tree_lookup`. -/
def lookup (t : RadixTree κ β) (k : κ) : Option β := (t.slots.find? fun p => p.1 = k).map Prod.snd

/-- The slots before `k`. -/
def before (t : RadixTree κ β) (k : κ) : List (κ × β) := t.slots.filter fun p => p.1 < k

/-- The slots after `k`. -/
def after (t : RadixTree κ β) (k : κ) : List (κ × β) := t.slots.filter fun p => k < p.1

/-- A part of the slots is sorted as the whole is. -/
theorem sorted_filter (t : RadixTree κ β) (q : κ × β → Bool) :
    ((t.slots.filter q).map Prod.fst).Pairwise (· < ·) :=
  t.sorted.sublist (List.filter_sublist.map _)

/-- The keys before `k` are smaller. -/
theorem lt_of_mem_before {t : RadixTree κ β} {k j : κ} (h : j ∈ (t.before k).map Prod.fst) :
    j < k := by
  obtain ⟨p, hp, rfl⟩ := List.mem_map.1 h
  simpa using (List.mem_filter.1 hp).2

/-- The keys after `k` are greater. -/
theorem lt_of_mem_after {t : RadixTree κ β} {k j : κ} (h : j ∈ (t.after k).map Prod.fst) :
    k < j := by
  obtain ⟨p, hp, rfl⟩ := List.mem_map.1 h
  simpa using (List.mem_filter.1 hp).2

/-- The slot at `k` is set, or is new. -/
def set (t : RadixTree κ β) (k : κ) (v : β) : RadixTree κ β where
  slots := t.before k ++ (k, v) :: t.after k
  sorted := by
    rw [List.map_append, List.map_cons, List.pairwise_append, List.pairwise_cons]
    refine ⟨t.sorted_filter _, ⟨fun j hj => lt_of_mem_after hj, t.sorted_filter _⟩,
      fun i hi j hj => ?_⟩
    rcases List.mem_cons.1 hj with rfl | hj
    · exact lt_of_mem_before hi
    · exact (lt_of_mem_before hi).trans (lt_of_mem_after hj)

/-- `radix_tree_delete`. -/
def delete (t : RadixTree κ β) (k : κ) : RadixTree κ β where
  slots := t.before k ++ t.after k
  sorted := by
    rw [List.map_append, List.pairwise_append]
    exact ⟨t.sorted_filter _, t.sorted_filter _,
      fun i hi j hj => (lt_of_mem_before hi).trans (lt_of_mem_after hj)⟩

/-- The next slot of an iteration that is past `c`, or at its beginning. -/
def next (t : RadixTree κ β) (c : Option κ) : Option (κ × β) :=
  t.slots.find? fun p => c.all fun c => c < p.1

/-- The total of a quantity over the slots. -/
def sum {M : Type*} [AddCommMonoid M] (t : RadixTree κ β) (f : β → M) : M :=
  (t.slots.map fun p => f p.2).sum

/-! ### Lookup -/

/-- The slots are those before `k`, the one at `k` if there is one, and those after. -/
theorem slots_eq (t : RadixTree κ β) (k : κ) :
    t.slots = t.before k ++ ((t.lookup k).toList.map fun v => (k, v)) ++ t.after k := by
  obtain ⟨slots, sorted⟩ := t
  simp only [before, after, lookup]
  induction slots with
  | nil => rfl
  | cons p slots ih =>
    rw [List.map_cons, List.pairwise_cons] at sorted
    have hlt : ∀ q ∈ slots, p.1 < q.1 := fun q hq => sorted.1 _ (List.mem_map_of_mem hq)
    rcases lt_trichotomy p.1 k with h | h | h
    · rw [List.filter_cons_of_pos (by simpa using h), List.filter_cons_of_neg (by simpa using h.le),
        List.find?_cons_of_neg (by simpa using h.ne), List.cons_append, List.cons_append,
        ← ih sorted.2]
    · have hbefore : slots.filter (fun q => q.1 < k) = [] := by
        rw [List.filter_eq_nil_iff]
        intro q hq
        simpa [← h] using (hlt q hq).le
      have hafter : slots.filter (fun q => k < q.1) = slots := by
        rw [List.filter_eq_self]
        intro q hq
        simpa [← h] using hlt q hq
      rw [List.filter_cons_of_neg (by simp [h]), List.filter_cons_of_neg (by simp [h]),
        List.find?_cons_of_pos (by simpa using h), hbefore, hafter]
      simp [← h]
    · have hbefore : slots.filter (fun q => q.1 < k) = [] := by
        rw [List.filter_eq_nil_iff]
        intro q hq
        simpa using (h.trans (hlt q hq)).le
      have hnone : slots.find? (fun q => q.1 = k) = none := by
        rw [List.find?_eq_none]
        intro q hq
        simpa using (h.trans (hlt q hq)).ne'
      have hafter : slots.filter (fun q => k < q.1) = slots := by
        rw [List.filter_eq_self]
        intro q hq
        simpa using h.trans (hlt q hq)
      rw [List.filter_cons_of_neg (by simpa using h.le), List.filter_cons_of_pos (by simpa using h),
        List.find?_cons_of_neg (by simpa using h.ne'), hbefore, hnone, hafter]
      rfl

/-- Setting a slot makes at most one more. -/
theorem length_set_le (t : RadixTree κ β) (k : κ) (v : β) :
    (t.set k v).slots.length ≤ t.slots.length + 1 := by
  have hlength := congrArg List.length (t.slots_eq k)
  simp only [List.length_append, List.length_map] at hlength
  rw [set, List.length_append, List.length_cons]
  omega

/-- A slot is in the tree if and only if a lookup finds it. -/
theorem mem_slots {t : RadixTree κ β} {k : κ} {v : β} : (k, v) ∈ t.slots ↔ t.lookup k = some v := by
  rw [t.slots_eq k]
  simp [before, after]

/-- Nothing is found in the empty tree. -/
theorem lookup_empty (k : κ) : (empty : RadixTree κ β).lookup k = none := rfl

/-- What is before `k` is what a lookup finds at a smaller key. -/
theorem mem_before {t : RadixTree κ β} {k j : κ} {v : β} :
    (j, v) ∈ t.before k ↔ j < k ∧ t.lookup j = some v := by
  rw [before, List.mem_filter, mem_slots, and_comm]
  simp

/-- What is after `k` is what a lookup finds at a greater key. -/
theorem mem_after {t : RadixTree κ β} {k j : κ} {v : β} :
    (j, v) ∈ t.after k ↔ k < j ∧ t.lookup j = some v := by
  rw [after, List.mem_filter, mem_slots, and_comm]
  simp

/-- What is set is found. -/
@[simp] theorem lookup_set_self (t : RadixTree κ β) (k : κ) (v : β) :
    (t.set k v).lookup k = some v := by
  rw [← mem_slots, set]
  simp

/-- At the other keys, setting a slot changes nothing. -/
theorem lookup_set_of_ne (t : RadixTree κ β) {k j : κ} (v : β) (h : j ≠ k) :
    (t.set k v).lookup j = t.lookup j := by
  refine Option.ext fun w => ?_
  rw [← mem_slots, set, List.mem_append, List.mem_cons, mem_before, mem_after, Prod.mk.injEq]
  constructor
  · rintro (⟨-, hw⟩ | ⟨rfl, -⟩ | ⟨-, hw⟩)
    · exact hw
    · exact absurd rfl h
    · exact hw
  · intro hw
    exact (lt_or_gt_of_ne h).imp (fun hlt => ⟨hlt, hw⟩) fun hlt => .inr ⟨hlt, hw⟩

/-- What is deleted is not found. -/
@[simp] theorem lookup_delete_self (t : RadixTree κ β) (k : κ) : (t.delete k).lookup k = none := by
  rw [Option.eq_none_iff_forall_ne_some]
  intro w hw
  rw [← mem_slots, delete, List.mem_append, mem_before, mem_after] at hw
  simp at hw

/-- At the other keys, deleting a slot changes nothing. -/
theorem lookup_delete_of_ne (t : RadixTree κ β) {k j : κ} (h : j ≠ k) :
    (t.delete k).lookup j = t.lookup j := by
  refine Option.ext fun w => ?_
  rw [← mem_slots, delete, List.mem_append, mem_before, mem_after]
  constructor
  · rintro (⟨-, hw⟩ | ⟨-, hw⟩)
    · exact hw
    · exact hw
  · intro hw
    exact (lt_or_gt_of_ne h).imp (fun hlt => ⟨hlt, hw⟩) fun hlt => ⟨hlt, hw⟩

/-- A slot that is set stands between those before it and those after it. -/
theorem slots_set (t : RadixTree κ β) (k : κ) (v : β) :
    (t.set k v).slots = t.before k ++ (k, v) :: t.after k := rfl

/-- Setting a slot to what it is changes nothing. -/
theorem set_eq_self {t : RadixTree κ β} {k : κ} {v : β} (h : t.lookup k = some v) :
    t.set k v = t := by
  refine RadixTree.ext ?_
  rw [t.slots_eq k, h, slots_set]
  simp

/-- The slots before `k` do not depend on the one at `k`. -/
theorem before_set (t : RadixTree κ β) (k : κ) (v : β) : (t.set k v).before k = t.before k := by
  have hafter : (t.after k).filter (fun p => p.1 < k) = [] := by
    rw [List.filter_eq_nil_iff]
    intro p hp
    simpa using (lt_of_mem_after (List.mem_map_of_mem hp)).le
  have hbefore : (t.before k).filter (fun p => p.1 < k) = t.before k := by
    rw [List.filter_eq_self]
    intro p hp
    simpa using lt_of_mem_before (List.mem_map_of_mem hp)
  rw [before, set, List.filter_append, List.filter_cons_of_neg (by simp), hafter, hbefore,
    List.append_nil]

/-- Nor do the slots after `k`. -/
theorem after_set (t : RadixTree κ β) (k : κ) (v : β) : (t.set k v).after k = t.after k := by
  have hafter : (t.after k).filter (fun p => k < p.1) = t.after k := by
    rw [List.filter_eq_self]
    intro p hp
    simpa using lt_of_mem_after (List.mem_map_of_mem hp)
  have hbefore : (t.before k).filter (fun p => k < p.1) = [] := by
    rw [List.filter_eq_nil_iff]
    intro p hp
    simpa using (lt_of_mem_before (List.mem_map_of_mem hp)).le
  rw [after, set, List.filter_append, List.filter_cons_of_neg (by simp), hafter, hbefore,
    List.nil_append]

/-- The second of two assignments counts. -/
theorem set_set (t : RadixTree κ β) (k : κ) (v w : β) : (t.set k v).set k w = t.set k w := by
  refine RadixTree.ext ?_
  rw [slots_set, slots_set, before_set, after_set]

/-! ### Iteration -/

/-- The next slot is the first one past `c`. -/
theorem next_eq_some {t : RadixTree κ β} {c : Option κ} {k : κ} {v : β}
    (h : t.next c = some (k, v)) : t.lookup k = some v ∧ ∀ d ∈ c, d < k := by
  refine ⟨mem_slots.1 (List.mem_of_find?_eq_some h), fun d hd => ?_⟩
  obtain rfl := Option.mem_def.1 hd
  simpa using List.find?_some h

/-- No slot between `c` and the next one. -/
theorem next_le {t : RadixTree κ β} {c : Option κ} {k : κ} {v : β} (h : t.next c = some (k, v))
    {j : κ} {w : β} (hj : t.lookup j = some w) (hc : ∀ d ∈ c, d < j) : k ≤ j := by
  obtain ⟨hk, pre, post, hslots, hpre⟩ := List.find?_eq_some_iff_append.1 h
  have hsorted := t.sorted
  rw [hslots, List.map_append, List.map_cons, List.pairwise_append, List.pairwise_cons] at hsorted
  have hmem := mem_slots.2 hj
  rw [hslots, List.mem_append, List.mem_cons] at hmem
  rcases hmem with hmem | hmem | hmem
  · have hno := hpre _ hmem
    rcases c with _ | d
    · simp at hno
    · simp only [Option.all_some, Bool.not_eq_true', decide_eq_false_iff_not] at hno
      exact absurd (hc d rfl) hno
  · rw [Prod.mk.injEq] at hmem
    exact hmem.1.ge
  · exact (hsorted.2.1.1 j (List.mem_map_of_mem hmem)).le

/-- The iteration is over. -/
theorem next_eq_none {t : RadixTree κ β} {c : Option κ} (h : t.next c = none) {j : κ} {w : β}
    (hj : t.lookup j = some w) : ∃ d ∈ c, j ≤ d := by
  have hno := List.find?_eq_none.1 h _ (mem_slots.2 hj)
  rcases c with _ | d
  · simp at hno
  · exact ⟨d, rfl, by simpa using hno⟩

/-! ### Totals -/

section sum

variable {M : Type*} [AddCommMonoid M] (t : RadixTree κ β) (f : β → M) {k : κ} {v : β}

/-- The total is made of what is before `k`, at `k` and after `k`. -/
theorem sum_eq (k : κ) : t.sum f = ((t.before k).map fun p => f p.2).sum +
    ((t.lookup k).toList.map f).sum + ((t.after k).map fun p => f p.2).sum := by
  rw [sum, t.slots_eq k]
  simp only [List.map_append, List.sum_append, List.map_map]
  rfl

/-- The total, if only the slot at `k` counts. -/
theorem sum_eq_lookup (h : ∀ j v, j ≠ k → t.lookup j = some v → f v = 0) :
    t.sum f = ((t.lookup k).toList.map f).sum := by
  have hbefore : ((t.before k).map fun p => f p.2).sum = 0 := by
    refine List.sum_eq_zero fun x hx => ?_
    obtain ⟨p, hp, rfl⟩ := List.mem_map.1 hx
    obtain ⟨hlt, hp⟩ := mem_before.1 hp
    exact h p.1 p.2 hlt.ne hp
  have hafter : ((t.after k).map fun p => f p.2).sum = 0 := by
    refine List.sum_eq_zero fun x hx => ?_
    obtain ⟨p, hp, rfl⟩ := List.mem_map.1 hx
    obtain ⟨hlt, hp⟩ := mem_after.1 hp
    exact h p.1 p.2 hlt.ne' hp
  rw [t.sum_eq f k, hbefore, hafter, zero_add, add_zero]

/-- The total once the slot at `k` is set. -/
theorem sum_set_eq (k : κ) (v : β) : (t.set k v).sum f =
    ((t.before k).map fun p => f p.2).sum + f v + ((t.after k).map fun p => f p.2).sum := by
  simp only [sum, set, List.map_append, List.sum_append, List.map_cons, List.sum_cons, add_assoc]

/-- A new slot adds to the total. -/
theorem sum_set_of_none (h : t.lookup k = none) (v : β) : (t.set k v).sum f = t.sum f + f v := by
  rw [t.sum_set_eq, t.sum_eq f k, h]
  simp only [Option.toList_none, List.map_nil, List.sum_nil, add_zero]
  exact add_right_comm _ _ _

/-- A slot that is set again trades its old value for the new one. -/
theorem sum_set_of_some (h : t.lookup k = some v) (w : β) :
    (t.set k w).sum f + f v = t.sum f + f w := by
  rw [t.sum_set_eq, t.sum_eq f k, h]
  simp only [Option.toList_some, List.map_cons, List.map_nil, List.sum_cons, List.sum_nil, add_zero]
  abel

/-- A slot that is deleted no longer counts. -/
theorem sum_delete (h : t.lookup k = some v) : (t.delete k).sum f + f v = t.sum f := by
  rw [t.sum_eq f k, h]
  simp only [sum, delete, List.map_append, List.sum_append, Option.toList_some, List.map_cons,
    List.map_nil, List.sum_cons, List.sum_nil, add_zero]
  exact add_right_comm _ _ _

end sum

end RadixTree
