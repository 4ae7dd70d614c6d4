/-
# Emptying a map in batches

Kernel code that empties a radix tree does not delete while it iterates.  It visits the
first `n` slots, notes their keys in an array of that size, deletes those keys, and starts
over until an iteration finds nothing.

`drain` is that loop, for any `n` and anything done to a visited slot.  By `drain_eq` every
slot is visited once, in the order of the keys, and none is left.
-/

import Sivfs.Lib.RadixTree

namespace RadixTree

variable {κ β α : Type*} [LinearOrder κ]

/-- Keys are deleted one after the other. -/
def deleteAll (t : RadixTree κ β) (ks : List κ) : RadixTree κ β := ks.foldl delete t

theorem slots_delete (t : RadixTree κ β) (k : κ) :
    (t.delete k).slots = t.slots.filter fun p => p.1 ≠ k := by
  have hbefore : (t.before k).filter (fun p => p.1 ≠ k) = t.before k := by
    rw [List.filter_eq_self]
    intro p hp
    simpa using (lt_of_mem_before (List.mem_map_of_mem hp)).ne
  have hat : ((t.lookup k).toList.map fun v => (k, v)).filter (fun p => p.1 ≠ k) = [] := by
    simp
  have hafter : (t.after k).filter (fun p => p.1 ≠ k) = t.after k := by
    rw [List.filter_eq_self]
    intro p hp
    simpa using (lt_of_mem_after (List.mem_map_of_mem hp)).ne'
  conv_rhs => rw [t.slots_eq k]
  rw [List.filter_append, List.filter_append, hbefore, hat, hafter, List.append_nil]
  rfl

theorem slots_deleteAll (t : RadixTree κ β) (ks : List κ) :
    (t.deleteAll ks).slots = t.slots.filter fun p => p.1 ∉ ks := by
  induction ks generalizing t with
  | nil => simp [deleteAll]
  | cons k ks ih =>
    show ((t.delete k).deleteAll ks).slots = _
    rw [ih, slots_delete, List.filter_filter]
    congr 1
    funext p
    simp [Bool.and_comm]

/-- The keys of the first slots are deleted. -/
theorem slots_deleteAll_take (t : RadixTree κ β) (n : ℕ) :
    (t.deleteAll ((t.slots.take n).map Prod.fst)).slots = t.slots.drop n := by
  have hsplit := List.take_append_drop n t.slots
  have hsorted := t.sorted
  rw [← hsplit, List.map_append, List.pairwise_append] at hsorted
  have htake : (t.slots.take n).filter (fun p => p.1 ∉ (t.slots.take n).map Prod.fst) = [] := by
    rw [List.filter_eq_nil_iff]
    intro p hp
    rw [decide_eq_true_iff, not_not]
    exact List.mem_map_of_mem hp
  have hdrop : (t.slots.drop n).filter (fun p => p.1 ∉ (t.slots.take n).map Prod.fst) =
      t.slots.drop n := by
    rw [List.filter_eq_self]
    intro p hp
    rw [decide_eq_true_iff]
    intro hmem
    exact lt_irrefl _ (hsorted.2.2 _ hmem _ (List.mem_map_of_mem hp))
  rw [slots_deleteAll]
  conv_lhs => rw [← hsplit]
  rw [List.filter_append, hsplit, htake, hdrop, List.nil_append]

/-- `do { .. } while (nr > 0)`: the first `n` slots are visited and deleted, again and
again. -/
def drain (n : ℕ) (visit : α → κ × β → α) (a : α) (t : RadixTree κ β) : α × RadixTree κ β :=
  if (t.slots.take n).isEmpty then (a, t)
  else drain n visit ((t.slots.take n).foldl visit a)
    (t.deleteAll ((t.slots.take n).map Prod.fst))
termination_by t.slots.length
decreasing_by
  rename_i h
  rw [slots_deleteAll_take, List.length_drop]
  rw [List.isEmpty_iff, List.take_eq_nil_iff, not_or] at h
  have := List.length_pos_of_ne_nil h.2
  omega

/-- **Every slot is visited once, in the order of the keys, and none is left.** -/
theorem drain_eq {n : ℕ} (hn : 0 < n) (visit : α → κ × β → α) (a : α) (t : RadixTree κ β) :
    drain n visit a t = (t.slots.foldl visit a, empty) := by
  fun_induction drain n visit a t with
  | case1 a t h =>
    rw [List.isEmpty_iff, List.take_eq_nil_iff] at h
    have hnil : t.slots = [] := h.resolve_left (by omega)
    rw [hnil]
    exact Prod.ext rfl (RadixTree.ext hnil)
  | case2 a t h ih =>
    rw [ih, slots_deleteAll_take, ← List.foldl_append, List.take_append_drop]

end RadixTree
