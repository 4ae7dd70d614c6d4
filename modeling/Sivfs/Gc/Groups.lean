/-
# The groups of blocked entries

`gc_blocked_entries` maps a timestamp to a stack of entries.  A push may fail for want of memory
(`NoMemory`) and otherwise changes one group (`group_setGroup_self`, `group_setGroup_of_ne`).
`State.total` is the multiset of all entries, those in stacks and those freed.
-/

import Sivfs.Gc.Checkpoints

namespace Sivfs
namespace Gc

open Call

/-! ### Allocations -/

/-- Nothing but allocations. -/
def Spent (s s' : State) : Prop := ∃ n, s' = { s with allocations := n }

/-- A failed allocation. -/
def NoMemory (s : State) (e : Halt) (s' : State) : Prop := e = .errno .enomem ∧ Spent s s'

/-- No allocation is none too many. -/
theorem Spent.refl (s : State) : Spent s s := ⟨s.allocations, rfl⟩

/-- Allocations add up. -/
theorem Spent.trans {s s' s'' : State} (h : Spent s s') (h' : Spent s' s'') : Spent s s'' := by
  obtain ⟨n, rfl⟩ := h
  obtain ⟨m, rfl⟩ := h'
  exact ⟨m, rfl⟩

variable {α : Type} (env : Env) (s : State)

/-- An allocation succeeds or fails, and counts either way. -/
theorem wp_alloc : (alloc env).wp (fun _ s' => Spent s s') (NoMemory s) s := by
  simp only [alloc, wp_bind, wp_get, wp_modify, wp_require]
  exact ⟨fun _ => ⟨_, rfl⟩, fun _ => ⟨rfl, _, rfl⟩⟩

/-- A new stack is empty. -/
theorem wp_newStack :
    (newStack α env).wp (fun stack s' => stack = ⟨[], 0⟩ ∧ Spent s s') (NoMemory s) s := by
  simp only [newStack, wp_bind]
  exact wp_mono (wp_alloc env s) (fun _ _ h => ⟨rfl, h⟩) fun _ _ h => h

/-- More room does not change what is in a stack. -/
theorem wp_stackReserve (stack : Stack α) (n : ℕ) : (stackReserve env stack n).wp
    (fun stack' s' => stack'.values = stack.values ∧ Spent s s') (NoMemory s) s := by
  rw [stackReserve]
  split_ifs
  · simp only [wp_bind]
    exact wp_mono (wp_alloc env s) (fun _ _ h => ⟨rfl, h⟩) fun _ _ h => h
  · exact ⟨rfl, .refl s⟩

/-- A value is pushed on top. -/
theorem wp_stackPush (stack : Stack α) (v : α) : (stackPush env stack v).wp
    (fun stack' s' => stack'.values = stack.values ++ [v] ∧ Spent s s') (NoMemory s) s := by
  simp only [stackPush, wp_bind]
  exact wp_mono (wp_stackReserve env s stack _) (fun _ _ h => ⟨by rw [h.1], h.2⟩) fun _ _ h => h

/-- The values of one stack are pushed on another, in their order. -/
theorem wp_stackPushAll (dest src : Stack α) : (stackPushAll env dest src).wp
    (fun stack' s' => stack'.values = dest.values ++ src.values ∧ Spent s s') (NoMemory s) s := by
  simp only [stackPushAll, wp_bind]
  exact wp_mono (wp_stackReserve env s dest _) (fun _ _ h => ⟨by rw [h.1], h.2⟩) fun _ _ h => h

/-- `sivfs_get_checked_out_versions` collects the versions of all threads. -/
theorem wp_getCheckedOutVersions (vs : List Ts) (out : Stack Ts) :
    (getCheckedOutVersions env vs out).wp
      (fun out' s' => out'.values = out.values ++ vs ∧ Spent s s') (NoMemory s) s := by
  induction vs generalizing out s with
  | nil => exact ⟨(List.append_nil _).symm, .refl s⟩
  | cons v vs ih =>
    refine wp_seq (wp_stackPush env s out v) fun out' s₁ ⟨hout, hs₁⟩ => ?_
    refine wp_mono (ih s₁ out') (fun out'' s' ⟨hout', hs'⟩ => ⟨?_, hs₁.trans hs'⟩)
      fun e s' ⟨he, hs'⟩ => ⟨he, hs₁.trans hs'⟩
    rw [hout', hout, List.append_assoc, List.singleton_append]

/-! ### Groups -/

/-- `gc_blocked_entries` has a group at `ts`. -/
def State.HasGroup (s : State) (ts : Ts) : Prop := (s.gcBlockedEntries.lookup ts).isSome

variable {env s}

/-- A group is what it has been set to. -/
theorem group_setGroup_self (ts : Ts) (stack : Stack ℕ) :
    (s.setGroup ts stack).group ts = stack := by
  simp [State.group, State.setGroup]

/-- The other groups are what they were. -/
theorem group_setGroup_of_ne {ts g : Ts} (stack : Stack ℕ) (h : g ≠ ts) :
    (s.setGroup ts stack).group g = s.group g := by
  simp [State.group, State.setGroup, RadixTree.lookup_set_of_ne _ _ h]

/-- A group that has been set is there. -/
theorem hasGroup_setGroup_self (ts : Ts) (stack : Stack ℕ) : (s.setGroup ts stack).HasGroup ts := by
  simp [State.HasGroup, State.setGroup]

/-- No other group appears or goes. -/
theorem hasGroup_setGroup_of_ne {ts g : Ts} (stack : Stack ℕ) (h : g ≠ ts) :
    (s.setGroup ts stack).HasGroup g ↔ s.HasGroup g := by
  simp [State.HasGroup, State.setGroup, RadixTree.lookup_set_of_ne _ _ h]

/-- The entries in all groups. -/
def State.blocked (s : State) : Multiset ℕ :=
  s.gcBlockedEntries.sum fun stack => (stack.values : Multiset ℕ)

/-- All entries, those freed too. -/
def State.total (s : State) : Multiset ℕ :=
  (s.obsoletedEntries.values : Multiset ℕ) + s.blocked + (s.freed : Multiset ℕ)

/-- A group that is set takes its old entries out and puts its new ones in. Written with sums,
since multisets have no differences that would cancel. -/
theorem blocked_setGroup (s : State) (ts : Ts) (stack : Stack ℕ) :
    (s.setGroup ts stack).blocked + ((s.group ts).values : Multiset ℕ) =
      s.blocked + (stack.values : Multiset ℕ) := by
  rw [State.blocked, State.blocked, State.group, State.setGroup]
  rcases hlookup : s.gcBlockedEntries.lookup ts with _ | old
  · simpa using s.gcBlockedEntries.sum_set_of_none _ hlookup stack
  · simpa using s.gcBlockedEntries.sum_set_of_some _ hlookup stack

/-- The same for all entries. -/
theorem total_setGroup (s : State) (ts : Ts) (stack : Stack ℕ) :
    (s.setGroup ts stack).total + ((s.group ts).values : Multiset ℕ) =
      s.total + (stack.values : Multiset ℕ) := by
  have hblocked := blocked_setGroup s ts stack
  calc (s.setGroup ts stack).total + ((s.group ts).values : Multiset ℕ)
      = (s.obsoletedEntries.values : Multiset ℕ) +
          ((s.setGroup ts stack).blocked + ((s.group ts).values : Multiset ℕ)) +
          (s.freed : Multiset ℕ) := by
        rw [State.total]
        simp only [State.setGroup]
        abel
    _ = s.total + (stack.values : Multiset ℕ) := by
        rw [hblocked, State.total]
        abel

/-- The entries of a group are among all entries. -/
theorem group_le_total (s : State) (ts : Ts) : ((s.group ts).values : Multiset ℕ) ≤ s.total := by
  have hblocked : ((s.group ts).values : Multiset ℕ) ≤ s.blocked := by
    rw [State.blocked, State.group]
    rcases hlookup : s.gcBlockedEntries.lookup ts with _ | stack
    · exact Multiset.zero_le _
    · rw [← s.gcBlockedEntries.sum_delete _ hlookup]
      exact Multiset.le_add_left _ _
  refine hblocked.trans ?_
  rw [State.total]
  exact (Multiset.le_add_left _ _).trans (Multiset.le_add_right _ _)

/-- An entry is blocked if some group has it. -/
theorem mem_blocked {entry : ℕ} : entry ∈ s.blocked ↔ ∃ g, entry ∈ (s.group g).values := by
  have hsum : ∀ slots : List (Ts × Stack ℕ), entry ∈ (slots.map fun slot =>
      (slot.2.values : Multiset ℕ)).sum ↔ ∃ slot ∈ slots, entry ∈ slot.2.values := by
    intro slots
    induction slots with
    | nil => simp
    | cons slot slots ih => simp [ih]
  rw [State.blocked, RadixTree.sum, hsum]
  constructor
  · rintro ⟨⟨g, stack⟩, hslot, he⟩
    refine ⟨g, ?_⟩
    rwa [State.group, RadixTree.mem_slots.1 hslot]
  · rintro ⟨g, he⟩
    rw [State.group] at he
    rcases hlookup : s.gcBlockedEntries.lookup g with _ | stack
    · simp [hlookup] at he
    · rw [hlookup] at he
      exact ⟨(g, stack), RadixTree.mem_slots.2 hlookup, he⟩

/-- The group is there, with what it had. -/
theorem wp_gcGetBlockedEntries (env : Env) (s : State) (ts : Ts) : (gcGetBlockedEntries env ts).wp
    (fun stack s' => stack = s.group ts ∧ Spent (s.setGroup ts (s.group ts)) s')
      (NoMemory s) s := by
  rw [gcGetBlockedEntries]
  simp only [wp_bind, wp_get]
  rcases hlookup : s.gcBlockedEntries.lookup ts with _ | stack
  · have hgroup : s.group ts = ⟨[], 0⟩ := by rw [State.group, hlookup]; rfl
    rw [Option.elim_none]
    refine wp_seq (wp_newStack env s) ?_
    rintro new s₁ ⟨hnew, hs₁⟩
    have halloc : (alloc env).wp (fun _ s₂ => Spent s s₂) (NoMemory s) s₁ :=
      wp_mono (wp_alloc env s₁) (fun _ _ hs₂ => hs₁.trans hs₂) fun _ _ h => ⟨h.1, hs₁.trans h.2⟩
    refine wp_seq halloc ?_
    rintro _ s₂ ⟨n, hs₂⟩
    simp only [wp_bind, wp_modify, wp_pure, hs₂, hnew, hgroup]
    exact ⟨trivial, n, rfl⟩
  · have hgroup : s.group ts = stack := by rw [State.group, hlookup]; rfl
    simp only [Option.elim_some, wp_pure, hgroup]
    refine ⟨trivial, s.allocations, ?_⟩
    rw [State.setGroup, RadixTree.set_eq_self hlookup]

end Gc
end Sivfs
