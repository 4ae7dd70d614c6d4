/-
# One entry of a group

Where an entry ends up: in the group it was in, if that is still blocked, or in the group
`reassignTo` says (`Assigned`).  Between the push of an entry and its pop it is there twice
(`Kept` with one more entry), and at all other times the total is what it was.  So a group
that is no longer blocked is emptied without a loss (`wp_drainGroup`).
-/

import Sivfs.Gc.Groups

namespace Sivfs
namespace Gc

open Call

/-! ### One entry -/

variable {env : Env} {s : State}

/-- A group that entries are reassigned to. -/
def Target (env : Env) (g : Ts) : Prop :=
  g ≠ invalidTs ∧ (g = env.latestSnapshot ∨ g ∈ env.checkedOut)

/-- An entry is not reassigned to a group that is about to be emptied. -/
theorem Target.stillBlocked {g : Ts} (h : Target env g) : stillBlocked env g = true := by
  obtain ⟨hne, hg⟩ := h
  simpa [Gc.stillBlocked, hne] using hg.imp_left fun hg => hg.ge

/-- The group that an entry is reassigned to. -/
def Assigned (env : Env) (entry : ℕ) (g : Ts) : Prop :=
  ∃ startTs obsoletedTs, env.lifetime entry = some (startTs, obsoletedTs) ∧
    reassignTo env startTs obsoletedTs = g ∧ g ≠ invalidTs

/-- The loop over the readers ends where it began, or at one in the lifetime. -/
theorem foldl_blocker {a b r : Ts} {vs : List Ts} {c : Ts} (h : vs.foldl
    (fun target blocker => if tsRangeContains a b blocker then blocker else target) c = r) :
    r = c ∨ r ∈ vs ∧ tsRangeContains a b r := by
  induction vs generalizing c with
  | nil => exact .inl h.symm
  | cons v vs ih =>
    rw [List.foldl_cons] at h
    rcases ih h with hr | ⟨hmem, hr⟩
    · split_ifs at hr with hv
      · exact .inr ⟨hr ▸ List.mem_cons_self, hr ▸ hv⟩
      · exact .inl hr
    · exact .inr ⟨List.mem_cons_of_mem v hmem, hr⟩

/-- **Where `reassignTo` points.** -/
theorem reassignTo_spec {a b : Ts} (h : reassignTo env a b ≠ invalidTs) :
    Target env (reassignTo env a b) ∧ reassignTo env a b < b ∧
      (a ≤ reassignTo env a b ∨ reassignTo env a b = env.latestSnapshot) := by
  rw [reassignTo] at h ⊢
  split_ifs at h ⊢ with hlatest
  · exact ⟨⟨h, .inl rfl⟩, hlatest, .inr rfl⟩
  · rcases foldl_blocker rfl with hr | ⟨hmem, hle, hlt⟩
    · exact absurd hr h
    · exact ⟨⟨h, .inr hmem⟩, hlt, .inl hle⟩

/-- Entries are assigned to groups of readers, or of what is published. -/
theorem Assigned.target {entry : ℕ} {g : Ts} (h : Assigned env entry g) : Target env g := by
  obtain ⟨a, b, -, rfl, hne⟩ := h
  exact (reassignTo_spec hne).1

/-- The entries are those of `M`; each is in a group that it was in, or that it is assigned
to; no group was pushed onto while it was drained. -/
structure Kept (env : Env) (s₀ : State) (M : Multiset ℕ) (s : State) : Prop where
  total : s.total = M
  obsoleted : s.obsoletedEntries = s₀.obsoletedEntries
  freed : ∃ l, s.freed = l ++ s₀.freed
  origin : ∀ g, ∀ e ∈ (s.group g).values, e ∈ (s₀.group g).values ∨ Assigned env e g
  pushes : ∀ p ∈ s.pushes, p ∈ s₀.pushes ∨ p.1 ≠ p.2

variable {s₀ s' : State} {M : Multiset ℕ} {ts g : Ts} {entry : ℕ}

/-- Nothing has moved. -/
theorem Kept.refl (env : Env) (s : State) : Kept env s s.total s :=
  ⟨rfl, rfl, ⟨[], rfl⟩, fun _ _ h => .inl h, fun _ h => .inl h⟩

/-- Allocations move no entry. -/
theorem Kept.spent (h : Kept env s₀ M s) (hs : Spent s s') : Kept env s₀ M s' := by
  obtain ⟨n, rfl⟩ := hs
  exact ⟨h.total, h.obsoleted, h.freed, h.origin, h.pushes⟩

/-- A group is put where it is. -/
theorem Kept.ensure (h : Kept env s₀ M s) (g : Ts) :
    Kept env s₀ M (s.setGroup g (s.group g)) := by
  have hgroup : ∀ k, (s.setGroup g (s.group g)).group k = s.group k := by
    intro k
    by_cases hk : k = g
    · rw [hk, group_setGroup_self]
    · rw [group_setGroup_of_ne _ hk]
  refine ⟨?_, h.obsoleted, h.freed, fun k e he => ?_, h.pushes⟩
  · rw [← h.total]
    exact add_right_cancel (total_setGroup s g (s.group g))
  · rw [hgroup] at he
    exact h.origin k e he

/-- An entry is pushed onto the group it is assigned to. -/
theorem Kept.push (h : Kept env s₀ M s) (hassigned : Assigned env entry g) (hne : ts ≠ g)
    {stack : Stack ℕ} (hstack : stack.values = (s.group g).values ++ [entry]) :
    Kept env s₀ (M + {entry}) { s.setGroup g stack with pushes := (ts, g) :: s.pushes } := by
  refine ⟨?_, h.obsoleted, h.freed, fun k e he => ?_, fun p hp => ?_⟩
  · have htotal := total_setGroup s g stack
    rw [hstack, ← Multiset.coe_add, Multiset.coe_singleton, h.total] at htotal
    refine add_right_cancel (b := ((s.group g).values : Multiset ℕ)) (htotal.trans ?_)
    abel
  · by_cases hk : k = g
    · have hgroup : State.group { s.setGroup g stack with pushes := (ts, g) :: s.pushes } k =
          stack := by
        rw [hk]
        exact group_setGroup_self g stack
      rw [hgroup, hstack, List.mem_append, List.mem_singleton] at he
      rcases he with he | rfl
      · exact h.origin k e (hk ▸ he)
      · exact .inr (hk ▸ hassigned)
    · exact h.origin k e ((group_setGroup_of_ne stack hk) ▸ he)
  · rcases List.mem_cons.1 hp with rfl | hp
    · exact .inr hne
    · exact h.pushes p hp

/-- An entry is freed. -/
theorem Kept.free (h : Kept env s₀ M s) (htype : (gcEntryToType entry).isSome) :
    Kept env s₀ (M + {entry}) { s.gcFreeEntry entry with didGc := true } := by
  refine ⟨?_, h.obsoleted, ?_, h.origin, h.pushes⟩
  · have htotal : State.total { s.gcFreeEntry entry with didGc := true } =
        (s.obsoletedEntries.values : Multiset ℕ) + s.blocked + ((entry :: s.freed : List ℕ) :
          Multiset ℕ) := by
      simp only [State.total, State.gcFreeEntry, htype, if_true]
      rfl
    rw [htotal, ← h.total, State.total, ← Multiset.cons_coe, ← Multiset.singleton_add]
    abel
  · obtain ⟨l, hl⟩ := h.freed
    refine ⟨entry :: l, ?_⟩
    simp only [State.gcFreeEntry, htype, if_true, hl, List.cons_append]

/-- The entry that was pushed or freed is popped. -/
theorem Kept.pop (h : Kept env s₀ (M + {entry}) s)
    (htop : (s.group ts).values.getLast? = some entry) : Kept env s₀ M (s.popGroup ts) := by
  obtain ⟨rest, hrest⟩ := List.getLast?_eq_some_iff.1 htop
  have hstack : (s.popGroup ts).group ts = ⟨rest, (s.group ts).capacity⟩ := by
    rw [State.popGroup, group_setGroup_self, hrest, List.dropLast_concat]
  refine ⟨?_, h.obsoleted, h.freed, fun k e he => ?_, h.pushes⟩
  · have htotal := total_setGroup s ts ⟨rest, (s.group ts).capacity⟩
    have hpop : s.popGroup ts = s.setGroup ts ⟨rest, (s.group ts).capacity⟩ := by
      rw [State.popGroup, hrest, List.dropLast_concat]
    rw [hrest, ← Multiset.coe_add, Multiset.coe_singleton, h.total] at htotal
    rw [hpop]
    refine add_right_cancel (b := (rest : Multiset ℕ) + {entry}) (htotal.trans ?_)
    abel
  · by_cases hk : k = ts
    · rw [hk, hstack] at he
      refine h.origin k e ?_
      rw [hk, hrest]
      exact List.mem_append_left _ he
    · rw [State.popGroup, group_setGroup_of_ne _ hk] at he
      exact h.origin k e he

/-- An empty group is deleted. -/
theorem Kept.delete (h : Kept env s₀ M s) (hgroup : s.HasGroup ts)
    (hempty : (s.group ts).values = []) :
    Kept env s₀ M { s with gcBlockedEntries := s.gcBlockedEntries.delete ts } := by
  refine ⟨?_, h.obsoleted, h.freed, fun k e he => ?_, h.pushes⟩
  · have hblocked : State.blocked { s with gcBlockedEntries := s.gcBlockedEntries.delete ts } =
        s.blocked := by
      obtain ⟨stack, hlookup⟩ := Option.isSome_iff_exists.1 hgroup
      rw [State.group, hlookup, Option.getD_some] at hempty
      have hsum := s.gcBlockedEntries.sum_delete (fun stack => (stack.values : Multiset ℕ)) hlookup
      rw [hempty] at hsum
      rw [State.blocked, State.blocked, ← hsum]
      exact (add_zero _).symm
    rw [← h.total, State.total, hblocked]
    rfl
  · by_cases hk : k = ts
    · simp [State.group, hk] at he
    · simp only [State.group, RadixTree.lookup_delete_of_ne _ hk] at he
      exact h.origin k e he

/-- The groups in `gc_blocked_entries` all satisfy `K`. -/
def Groups (K : Ts → Prop) (s : State) : Prop := ∀ g, s.HasGroup g → K g

variable {K : Ts → Prop}

/-- A group is made that may be there. -/
theorem Groups.setGroup (h : Groups K s) {stack : Stack ℕ} (hg : K g) :
    Groups K (s.setGroup g stack) := by
  intro k hk
  by_cases hkg : k = g
  · rwa [hkg]
  · exact h k ((hasGroup_setGroup_of_ne stack hkg).1 hk)

/-- Failures for want of memory, or because an entry has no lifetime; the entries are
kept. -/
def Failed (env : Env) (s₀ : State) (M : Multiset ℕ) (K : Ts → Prop) (e : Halt) (s : State) :
    Prop :=
  e ≠ .turns ∧ Kept env s₀ M s ∧ Groups K s

/-- An entry of the group `ts` is assigned to another group. -/
theorem wp_reassign (hk : Kept env s₀ M s) (hK : Groups K s) (hg : K g)
    (hassigned : Assigned env entry g) (hne : ts ≠ g) : (reassign env ts g entry).wp
      (fun _ s' => Kept env s₀ (M + {entry}) s' ∧ Groups K s' ∧ s'.group ts = s.group ts ∧
        (s.HasGroup ts → s'.HasGroup ts)) (Failed env s₀ M K) s := by
  have hensured : Kept env s₀ M (s.setGroup g (s.group g)) ∧
      Groups K (s.setGroup g (s.group g)) := ⟨hk.ensure g, hK.setGroup hg⟩
  rw [reassign]
  have hget : (gcGetBlockedEntries env g).wp
      (fun stack s₁ => stack = s.group g ∧ Spent (s.setGroup g (s.group g)) s₁)
      (Failed env s₀ M K) s := by
    refine wp_mono (wp_gcGetBlockedEntries env s g) (fun _ _ h => h) ?_
    rintro e s₁ ⟨rfl, n, rfl⟩
    exact ⟨by simp, hk.spent ⟨n, rfl⟩, hK⟩
  refine wp_seq hget ?_
  rintro stack s₁ ⟨rfl, n, rfl⟩
  have hpush : (stackPush env (s.group g) entry).wp
      (fun stack s₂ => stack.values = (s.group g).values ++ [entry] ∧
        Spent (s.setGroup g (s.group g)) s₂) (Failed env s₀ M K)
      { s.setGroup g (s.group g) with allocations := n } := by
    refine wp_mono (wp_stackPush env _ (s.group g) entry)
      (fun stack s₂ ⟨hstack, hs₂⟩ => ⟨hstack, Spent.trans ⟨n, rfl⟩ hs₂⟩) ?_
    rintro e s₂ ⟨rfl, m, rfl⟩
    exact ⟨by simp, hensured.1.spent ⟨m, rfl⟩, hensured.2⟩
  refine wp_seq hpush ?_
  rintro stack s₂ ⟨hstack, m, rfl⟩
  rw [wp_modify]
  have hset : ({ s.setGroup g (s.group g) with allocations := m } : State).setGroup g stack =
      { s.setGroup g stack with allocations := m } := by
    simp only [State.setGroup, RadixTree.set_set]
  rw [hset]
  refine ⟨(hk.push hassigned hne hstack).spent ⟨m, rfl⟩, hK.setGroup hg,
    group_setGroup_of_ne stack hne, fun h => (hasGroup_setGroup_of_ne stack hne).2 h⟩

/-- Only entries of a known type have a lifetime. -/
theorem type_of_lifetime {lifetime : Ts × Ts} (h : env.lifetime entry = some lifetime) :
    (gcEntryToType entry).isSome := by
  rw [Env.lifetime, Option.bind_eq_some_iff] at h
  obtain ⟨type, htype, -⟩ := h
  rw [htype]
  rfl

/-- **One entry is freed or pushed onto another group, or nothing happens to it.** -/
theorem wp_gcOrReassignEntry (hts : stillBlocked env ts = false) (hk : Kept env s₀ M s)
    (hK : Groups K s) (htargets : ∀ g, Target env g → K g) : (gcOrReassignEntry env ts entry).wp
      (fun _ s' => Kept env s₀ (M + {entry}) s' ∧ Groups K s' ∧ s'.group ts = s.group ts ∧
        (s.HasGroup ts → s'.HasGroup ts)) (Failed env s₀ M K) s := by
  rw [gcOrReassignEntry]
  rcases hlife : env.lifetime entry with _ | ⟨a, b⟩
  · exact ⟨by simp, hk, hK⟩
  · rw [Option.elim_some]
    split_ifs with hfree
    · rw [wp_modify]
      exact ⟨hk.free (type_of_lifetime hlife), hK, rfl, id⟩
    · have hassigned : Assigned env entry (reassignTo env a b) := ⟨a, b, hlife, rfl, hfree⟩
      refine wp_reassign hk hK (htargets _ hassigned.target) hassigned ?_
      rintro rfl
      rw [hassigned.target.stillBlocked] at hts
      cases hts

/-- **A group that is not blocked is emptied**, or the run fails. -/
theorem wp_drainGroup (hts : stillBlocked env ts = false) (htargets : ∀ g, Target env g → K g)
    (n : ℕ) (hk : Kept env s₀ M s) (hK : Groups K s) (hgroup : s.HasGroup ts)
    (hn : (s.group ts).values.length < n) : (drainGroup env ts n).wp
      (fun _ s' => Kept env s₀ M s' ∧ Groups K s' ∧ s'.HasGroup ts ∧ (s'.group ts).values = [])
      (Failed env s₀ M K) s := by
  induction n generalizing s with
  | zero => omega
  | succ n ih =>
    rw [drainGroup, wp_bind, wp_get]
    rcases htop : (s.group ts).values.getLast? with _ | entry
    · exact ⟨hk, hK, hgroup, by simpa using htop⟩
    · rw [Option.elim_some]
      refine wp_seq (wp_gcOrReassignEntry hts hk hK htargets) ?_
      rintro _ s₁ ⟨hk₁, hK₁, hsame, hgroup₁⟩
      rw [wp_bind, wp_modify]
      have hpopped : (s₁.popGroup ts).group ts =
          { s.group ts with values := (s.group ts).values.dropLast } := by
        rw [State.popGroup, group_setGroup_self, hsame]
      refine ih (hk₁.pop (by rwa [hsame])) (hK₁.setGroup (hK₁ ts (hgroup₁ hgroup)))
        (hasGroup_setGroup_self ts _) ?_
      have hpos := List.length_pos_of_ne_nil (List.ne_nil_of_mem (List.mem_of_getLast? htop))
      rw [hpopped, List.length_dropLast]
      omega

end Gc
end Sivfs
