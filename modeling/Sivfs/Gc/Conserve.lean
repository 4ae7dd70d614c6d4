/-
# The collector loses nothing and frees nothing twice

A run takes the entries that are listed into the group of those that are not blocked, and goes
through all groups (`wp_gcGroups`).  It moves each entry from one stack to another, or frees it
(`Moved`), so that none is lost or there twice (`gc_checkpoints_conserves`); and each is then in
a group that is still blocked (`Settled`), at whose timestamp it was alive if it was so before
(`Orderly`).
-/

import Sivfs.Gc.Reassign

namespace Sivfs
namespace Gc

open Call

/-! ### The iteration -/

variable {env : Env} {s s₀ s' : State} {M : Multiset ℕ} {ts g : Ts} {entry : ℕ} {K : Ts → Prop}

/-- The groups that an iteration may come across. -/
def candidates (env : Env) (s : State) : List Ts :=
  s.gcBlockedEntries.slots.map Prod.fst ++ env.latestSnapshot :: env.checkedOut

/-- An iteration may come across every group that entries are assigned to. -/
theorem Target.mem_candidates (h : Target env g) : g ∈ candidates env s := by
  rw [candidates, List.mem_append, List.mem_cons]
  exact .inr h.2

/-- Groups up to `c` are still blocked. -/
def Past (env : Env) (s₀ : State) (c : Option Ts) (g : Ts) : Prop :=
  g ∈ candidates env s₀ ∧ ∀ d ∈ c, g ≤ d → stillBlocked env g = true

/-- The groups ahead of an iteration. -/
def left (env : Env) (s : State) (c : Option Ts) : ℕ :=
  ((candidates env s).filter fun g => c.all fun d => d < g).length

/-- The iteration goes forward. -/
theorem left_lt {c : Option Ts} {k : Ts} (hk : k ∈ candidates env s) (hc : ∀ d ∈ c, d < k) :
    left env s (some k) < left env s c := by
  have hfilter : (candidates env s).filter (fun g => (some k).all fun d => d < g) =
      ((candidates env s).filter fun g => c.all fun d => d < g).filter fun g => k < g := by
    rw [List.filter_filter]
    refine List.filter_congr fun g _ => ?_
    rcases c with _ | d
    · simp
    · by_cases hkg : k < g
      · simp [hkg, (hc d rfl).trans hkg]
      · simp [hkg]
  rw [left, left, hfilter, List.length_filter_lt_length_iff_exists]
  refine ⟨k, List.mem_filter.2 ⟨hk, ?_⟩, by simp⟩
  rcases c with _ | d
  · rfl
  · simpa using hc d rfl

/-- **The iteration empties and deletes all groups that are not blocked.** -/
theorem wp_gcGroups (turns n : ℕ) (c : Option Ts) (hk : Kept env s₀ M s)
    (hK : Groups (Past env s₀ c) s) (hturns : M.card < turns)
    (hn : left env s₀ c < n) :
    (gcGroups env turns n c).wp
      (fun _ s' => Kept env s₀ M s' ∧ Groups (fun g => stillBlocked env g = true) s')
      (fun e s' => e ≠ .turns ∧ Kept env s₀ M s') s := by
  induction n generalizing s c with
  | zero => omega
  | succ n ih =>
    rw [gcGroups, wp_bind, wp_get]
    rcases hnext : s.gcBlockedEntries.next c with _ | ⟨k, stack⟩
    · refine ⟨hk, fun g hg => ?_⟩
      obtain ⟨stack, hstack⟩ := Option.isSome_iff_exists.1 hg
      obtain ⟨d, hd, hle⟩ := RadixTree.next_eq_none hnext hstack
      exact (hK g hg).2 d hd hle
    · obtain ⟨hlookup, hpast⟩ := RadixTree.next_eq_some hnext
      have hgroup : s.HasGroup k := by rw [State.HasGroup, hlookup]; rfl
      have hbetween : ∀ g, s.HasGroup g → g ≤ k → g = k ∨ stillBlocked env g = true := by
        intro g hg hle
        by_cases hc : ∀ d ∈ c, d < g
        · obtain ⟨stack', hstack'⟩ := Option.isSome_iff_exists.1 hg
          exact .inl (hle.antisymm (RadixTree.next_le hnext hstack' hc))
        · push Not at hc
          obtain ⟨d, hd, hgd⟩ := hc
          exact .inr ((hK g hg).2 d hd hgd)
      have hleft := left_lt (hK k hgroup).1 hpast
      rw [Option.elim_some]
      split_ifs with hblocked
      · refine ih (some k) hk (fun g hg => ⟨(hK g hg).1, fun d hd hle => ?_⟩) (by omega)
        obtain rfl := Option.some.inj hd
        rcases hbetween g hg hle with rfl | hg
        · exact hblocked
        · exact hg
      · have hdrained := wp_drainGroup (K := fun g => g ∈ candidates env s₀ ∧
          (g ≤ k → g = k ∨ stillBlocked env g = true)) (by simpa using hblocked)
          (fun g hg => ⟨hg.mem_candidates, fun _ => .inr hg.stillBlocked⟩) turns hk
          (fun g hg => ⟨(hK g hg).1, hbetween g hg⟩) hgroup ?_
        · refine wp_bind.2 (wp_mono hdrained ?_ fun e s₁ h => ⟨h.1, h.2.1⟩)
          rintro _ s₁ ⟨hk₁, hK₁, hgroup₁, hempty⟩
          rw [wp_bind, wp_modify]
          refine ih (some k) (hk₁.delete hgroup₁ hempty) (fun g hg => ?_) (by omega)
          have hgk : g ≠ k := by
            rintro rfl
            simp [State.HasGroup] at hg
          have hg₁ : s₁.HasGroup g := by
            simpa [State.HasGroup, RadixTree.lookup_delete_of_ne _ hgk] using hg
          refine ⟨(hK₁ g hg₁).1, fun d hd hle => ?_⟩
          obtain rfl := Option.some.inj hd
          exact ((hK₁ g hg₁).2 hle).resolve_left hgk
        · refine lt_of_le_of_lt ?_ hturns
          rw [← hk.total]
          exact Multiset.card_le_card (group_le_total s k)

/-! ### A run -/

/-- Nothing is lost and nothing is there twice: what was listed or in a group still is, or
was freed by this run.  No entry was pushed onto the group that was drained. -/
structure Conserved (s s' : State) : Prop where
  entries : ∃ freed, s'.freed = freed ++ s.freed ∧
    (s'.obsoletedEntries.values : Multiset ℕ) + s'.blocked + (freed : Multiset ℕ) =
      (s.obsoletedEntries.values : Multiset ℕ) + s.blocked
  pushes : ∀ p ∈ s'.pushes, p ∈ s.pushes ∨ p.1 ≠ p.2

/-- The lifetime of an entry contains `g`. -/
def Alive (env : Env) (entry : ℕ) (g : Ts) : Prop :=
  ∀ a b, env.lifetime entry = some (a, b) → a ≤ g ∧ g < b

/-- No entry began after the published checkpoint, and the entries in a group were alive at
its timestamp. -/
structure Orderly (env : Env) (s : State) : Prop where
  began : ∀ entry, (entry ∈ s.obsoletedEntries.values ∨ ∃ g, entry ∈ (s.group g).values) →
    ∀ a b, env.lifetime entry = some (a, b) → a ≤ env.latestSnapshot
  grouped : ∀ g, g ≠ invalidTs → ∀ entry ∈ (s.group g).values, Alive env entry g

/-- Nothing is listed, and the entries that remain are in the groups of checkpoints that are
checked out, or that are not older than the published one. -/
structure Settled (env : Env) (s : State) : Prop where
  listed : s.obsoletedEntries.values = []
  blocked : ∀ g, ∀ entry ∈ (s.group g).values,
    g ≠ invalidTs ∧ (g ∈ env.checkedOut ∨ env.latestSnapshot ≤ g)

/-- Settled, and every entry was alive at the timestamp of its group. -/
structure Sorted (env : Env) (s : State) : Prop extends Settled env s where
  alive : ∀ g, ∀ entry ∈ (s.group g).values, Alive env entry g

/-- If entries were alive in their groups, those that remain still are. -/
theorem Settled.sorted (h : Settled env s) (ho : Orderly env s) : Sorted env s :=
  ⟨h, fun g entry he => ho.grouped g (h.blocked g entry he).1 entry he⟩

/-- The number of turns that are enough. -/
def turnsNeeded (env : Env) (s : State) : ℕ :=
  s.total.card + s.gcBlockedEntries.slots.length + env.checkedOut.length + 3

/-- What the iteration keeps, in terms of what waits and what is freed. -/
theorem Kept.conserved (h : Kept env s₀ s₀.total s) : Conserved s₀ s := by
  obtain ⟨freed, hfreed⟩ := h.freed
  refine ⟨⟨freed, hfreed, ?_⟩, h.pushes⟩
  have htotal := h.total
  rw [State.total, State.total, hfreed, ← Multiset.coe_add, ← add_assoc] at htotal
  exact add_right_cancel htotal

/-- `gc_blocked_entries[SIVFS_INVALID_TS]` has what was listed. -/
structure Taken (s s' : State) : Prop where
  total : s'.total = s.total
  obsoleted : s'.obsoletedEntries.values = []
  freed : s'.freed = s.freed
  pushes : s'.pushes = s.pushes
  groups : ∀ g, g ≠ invalidTs → s'.group g = s.group g
  uncategorized : (s'.group invalidTs).values =
    (s.group invalidTs).values ++ s.obsoletedEntries.values
  slots : s'.gcBlockedEntries.slots.length ≤ s.gcBlockedEntries.slots.length + 1

/-- **Step 0 takes over all that is listed, or nothing.** -/
theorem wp_takeObsoleted (env : Env) (s : State) : (takeObsoleted env).wp
    (fun _ s' => Taken s s') (fun e s' => e ≠ .turns ∧ Kept env s s.total s') s := by
  have hkept := Kept.refl env s
  rw [takeObsoleted]
  have hget : (gcGetBlockedEntries env invalidTs).wp (fun stack s₁ => stack = s.group invalidTs ∧
      Spent (s.setGroup invalidTs (s.group invalidTs)) s₁)
      (fun e s' => e ≠ .turns ∧ Kept env s s.total s') s := by
    refine wp_mono (wp_gcGetBlockedEntries env s invalidTs) (fun _ _ h => h) ?_
    rintro e s₁ ⟨rfl, hs₁⟩
    exact ⟨by simp, hkept.spent hs₁⟩
  refine wp_seq hget ?_
  rintro stack s₁ ⟨rfl, n, rfl⟩
  rw [wp_bind, wp_get]
  have hpush : (stackPushAll env (s.group invalidTs) s.obsoletedEntries).wp
      (fun stack s₂ => stack.values = (s.group invalidTs).values ++ s.obsoletedEntries.values ∧
        Spent (s.setGroup invalidTs (s.group invalidTs)) s₂)
      (fun e s' => e ≠ .turns ∧ Kept env s s.total s')
      { s.setGroup invalidTs (s.group invalidTs) with allocations := n } := by
    refine wp_mono (wp_stackPushAll env _ (s.group invalidTs) s.obsoletedEntries)
      (fun stack s₂ ⟨hstack, hs₂⟩ => ⟨hstack, Spent.trans ⟨n, rfl⟩ hs₂⟩) ?_
    rintro e s₂ ⟨rfl, m, rfl⟩
    exact ⟨by simp, (hkept.ensure invalidTs).spent ⟨m, rfl⟩⟩
  refine wp_seq hpush ?_
  rintro stack s₂ ⟨hstack, m, rfl⟩
  rw [wp_modify]
  have hset : ({ s.setGroup invalidTs (s.group invalidTs) with allocations := m } :
      State).setGroup invalidTs stack = { s.setGroup invalidTs stack with allocations := m } := by
    simp only [State.setGroup, RadixTree.set_set]
  rw [hset]
  refine ⟨?_, rfl, rfl, rfl, fun g hg => group_setGroup_of_ne stack hg, ?_,
    s.gcBlockedEntries.length_set_le invalidTs stack⟩
  · have htotal := total_setGroup s invalidTs stack
    rw [hstack, ← Multiset.coe_add, ← add_assoc, add_right_comm] at htotal
    have hsum := add_right_cancel htotal
    refine add_right_cancel (b := (s.obsoletedEntries.values : Multiset ℕ)) (Eq.trans ?_ hsum)
    simp only [State.total, State.setGroup, State.blocked, Multiset.coe_nil]
    abel
  · exact (congrArg Stack.values (group_setGroup_self invalidTs stack)).trans hstack

/-- Entries that are taken off the list were on it. -/
theorem Taken.conserved (ht : Taken s s') {s'' : State} (h : Conserved s' s'') :
    Conserved s s'' := by
  obtain ⟨freed, hfreed, hsum⟩ := h.entries
  refine ⟨⟨freed, by rw [hfreed, ht.freed], hsum.trans ?_⟩, fun p hp => ?_⟩
  · have htotal := ht.total
    rw [State.total, State.total, ht.freed] at htotal
    exact add_right_cancel htotal
  · rw [← ht.pushes]
    exact h.pushes p hp

/-- An entry is assigned to a group at whose timestamp it is alive. -/
theorem Assigned.alive (h : Assigned env entry g)
    (hbegan : ∀ a b, env.lifetime entry = some (a, b) → a ≤ env.latestSnapshot) :
    Alive env entry g := by
  intro a b hlife
  obtain ⟨a', b', hlife', rfl, hne⟩ := h
  obtain ⟨rfl, rfl⟩ := Prod.mk.inj (Option.some.inj (hlife'.symm.trans hlife))
  obtain ⟨-, hlt, hle | hlatest⟩ := reassignTo_spec hne
  · exact ⟨hle, hlt⟩
  · refine ⟨?_, hlt⟩
    rw [hlatest]
    exact hbegan a' b' hlife

/-- The entries that are listed or in a group. -/
def State.waiting (s : State) : Multiset ℕ := (s.obsoletedEntries.values : Multiset ℕ) + s.blocked

/-- An entry waits if it is listed or in a group. -/
theorem mem_waiting : entry ∈ s.waiting ↔
    entry ∈ s.obsoletedEntries.values ∨ ∃ g, entry ∈ (s.group g).values := by
  rw [State.waiting, Multiset.mem_add, Multiset.mem_coe, mem_blocked]

/-- A run that has taken over what is listed, or has not, and has moved entries since. -/
def Moved (env : Env) (s s' : State) : Prop :=
  ∃ s₁, (Taken s s₁ ∨ s₁ = s) ∧ Kept env s₁ s₁.total s'

/-- The flag of the run does not matter. -/
theorem Moved.of_didGc {d : Bool} (h : Moved env { s with didGc := d } s') : Moved env s s' := by
  obtain ⟨s₁, ht | rfl, hk⟩ := h
  · exact ⟨s₁, .inl ⟨ht.total, ht.obsoleted, ht.freed, ht.pushes, ht.groups, ht.uncategorized,
      ht.slots⟩, hk⟩
  · exact ⟨s, .inr rfl, hk.total, hk.obsoleted, hk.freed, hk.origin, hk.pushes⟩

/-- **A run conserves the entries**, whether it succeeds or not. -/
theorem Moved.conserved (h : Moved env s s') : Conserved s s' := by
  obtain ⟨s₁, ht | rfl, hk⟩ := h
  · exact ht.conserved hk.conserved
  · exact hk.conserved

/-- Nothing waits that did not wait before. -/
theorem Moved.waiting_le (h : Moved env s s') (he : entry ∈ s'.waiting) : entry ∈ s.waiting := by
  obtain ⟨freed, -, hsum⟩ := h.conserved.entries
  rw [State.waiting, ← hsum]
  exact Multiset.mem_add.2 (.inl he)

/-- An entry that is in a group was there before, or is assigned to it. -/
theorem Moved.origin (h : Moved env s s') {g : Ts} (hg : g ≠ invalidTs)
    (he : entry ∈ (s'.group g).values) : entry ∈ (s.group g).values ∨ Assigned env entry g := by
  obtain ⟨s₁, ht | rfl, hk⟩ := h
  · rw [← ht.groups g hg]
    exact hk.origin g entry he
  · exact hk.origin g entry he

/-- **The entries stay in order**, also if a run fails. -/
theorem Moved.orderly (h : Moved env s s') (ho : Orderly env s) : Orderly env s' := by
  have hbegan : ∀ entry ∈ s'.waiting, ∀ a b, env.lifetime entry = some (a, b) →
      a ≤ env.latestSnapshot := fun entry he =>
    ho.began entry (mem_waiting.1 (h.waiting_le he))
  refine ⟨fun entry he => hbegan entry (mem_waiting.2 he), fun g hg entry he => ?_⟩
  rcases h.origin hg he with hold | hassigned
  · exact ho.grouped g hg entry hold
  · exact hassigned.alive (hbegan entry (mem_waiting.2 (.inr ⟨g, he⟩)))

/-- Groups without entries. -/
theorem group_of_empty (h : s.gcBlockedEntriesEmpty = true) (g : Ts) : (s.group g).values = [] := by
  rw [State.group]
  rcases hlookup : s.gcBlockedEntries.lookup g with _ | stack
  · rfl
  · have hslot := List.all_eq_true.1 h _ (RadixTree.mem_slots.2 hlookup)
    simpa using hslot

/-- There are enough turns for all groups. -/
theorem left_le (c : Option Ts) :
    left env s c ≤ s.gcBlockedEntries.slots.length + env.checkedOut.length + 1 := by
  refine (List.length_filter_le _ _).trans ?_
  simp only [candidates, List.length_append, List.length_map, List.length_cons]
  omega

/-- A group is blocked by its reader, or by being at or after what is published. -/
theorem stillBlocked_iff {g : Ts} : stillBlocked env g = true ↔
    g ≠ invalidTs ∧ (g ∈ env.checkedOut ∨ env.latestSnapshot ≤ g) := by
  simp [stillBlocked, or_comm]

/-- A group with an entry is there. -/
theorem hasGroup_of_mem {g : Ts} (he : entry ∈ (s.group g).values) : s.HasGroup g := by
  rw [State.HasGroup, Option.isSome_iff_ne_none]
  intro hnone
  rw [State.group, hnone] at he
  cases he

/-- After step 0 there are turns enough for all groups. -/
theorem wp_gcGroups_of_taken {d : Bool} {s₁ s₂ : State} {turns : ℕ}
    (ht : Taken { s with didGc := d } s₁) (hs : Spent s₁ s₂) (hturns : turnsNeeded env s ≤ turns) :
    (gcGroups env turns turns none).wp
      (fun _ s' => Kept env s₁ s₁.total s' ∧ Groups (fun g => stillBlocked env g = true) s')
      (fun e s' => e ≠ .turns ∧ Kept env s₁ s₁.total s') s₂ := by
  have hslots : s₁.gcBlockedEntries.slots.length ≤ s.gcBlockedEntries.slots.length + 1 := ht.slots
  have htotal : s₁.total = s.total := ht.total
  have hleft : left env s₁ none ≤
      s₁.gcBlockedEntries.slots.length + env.checkedOut.length + 1 := left_le none
  rw [turnsNeeded] at hturns
  refine wp_gcGroups turns turns none ((Kept.refl env s₁).spent hs) (fun g hg => ⟨?_, by simp⟩)
    ?_ ?_
  · obtain ⟨n, rfl⟩ := hs
    obtain ⟨stack, hstack⟩ := Option.isSome_iff_exists.1 hg
    rw [candidates, List.mem_append]
    exact .inl (List.mem_map_of_mem (RadixTree.mem_slots.2 hstack))
  · rw [htotal]
    omega
  · omega

/-- **A run moves entries and frees them, and settles those that remain if it succeeds.** -/
theorem wp_gcCheckpoints (env : Env) (s : State) {turns : ℕ} (hturns : turnsNeeded env s ≤ turns) :
    (gcCheckpoints env turns).wp (fun _ s' => Moved env s s' ∧ Settled env s')
      (fun e s' => e ≠ .turns ∧ Moved env s s') s := by
  have hself : Moved env s { s with didGc := false } :=
    ⟨s, .inr rfl, rfl, rfl, ⟨[], rfl⟩, fun _ _ h => .inl h, fun _ h => .inl h⟩
  rw [gcCheckpoints]
  simp only [wp_bind, wp_modify, wp_require]
  refine ⟨fun _ => ⟨fun _ => ?_, fun _ => ⟨by simp, hself⟩⟩, fun _ => ⟨by simp, hself⟩⟩
  refine wp_mono (wp_takeObsoleted env { s with didGc := false }) (fun _ s₁ ht => ?_)
    fun e s₁ h => ⟨h.1, Moved.of_didGc ⟨_, .inr rfl, h.2⟩⟩
  have hmoved : ∀ {s'}, Kept env s₁ s₁.total s' → Moved env s s' := fun hk =>
    Moved.of_didGc ⟨s₁, .inl ht, hk⟩
  have hkept := Kept.refl env s₁
  rw [wp_bind, wp_get]
  split_ifs with hempty
  · refine ⟨hmoved hkept, ht.obsoleted, fun g entry he => ?_⟩
    rw [group_of_empty hempty] at he
    cases he
  have herror : ∀ e s₂, NoMemory s₁ e s₂ → e ≠ .turns ∧ Moved env s s₂ := by
    rintro e s₂ ⟨rfl, hs₂⟩
    exact ⟨by simp, hmoved (hkept.spent hs₂)⟩
  refine wp_seq (wp_mono (wp_newStack env s₁) (fun _ _ h => h) herror) ?_
  rintro versions s₂ ⟨-, hs₂⟩
  refine wp_seq (wp_mono (wp_getCheckedOutVersions env s₂ env.checkedOut versions)
    (fun _ _ h => hs₂.trans h.2) fun e s₃ h => herror e s₃ ⟨h.1, hs₂.trans h.2⟩) ?_
  intro _ s₃ hs₃
  refine wp_seq (wp_mono (wp_gcGroups_of_taken ht hs₃ hturns) (fun _ _ h => h)
    fun e s₄ h => ⟨h.1, hmoved h.2⟩) ?_
  rintro _ s₄ ⟨hk, hblocked⟩
  rw [wp_bind, wp_get, wp_pure]
  exact ⟨hmoved hk, by rw [hk.obsoleted, ht.obsoleted], fun g entry he =>
    stillBlocked_iff.1 (hblocked g (hasGroup_of_mem he))⟩

/-- **A run of the collector conserves the entries and ends**, whichever allocations fail.
If it succeeds it leaves them settled; entries that were in order stay so, also in a run that
fails. -/
theorem gc_checkpoints_conserves (env : Env) (s : State) {turns : ℕ}
    (hturns : turnsNeeded env s ≤ turns) : (gcCheckpoints env turns).wp
      (fun _ s' => Conserved s s' ∧ Settled env s' ∧
        (Orderly env s → Sorted env s' ∧ Orderly env s'))
      (fun e s' => e ≠ .turns ∧ Conserved s s' ∧ (Orderly env s → Orderly env s')) s := by
  refine wp_mono (wp_gcCheckpoints env s hturns) ?_ ?_
  · rintro _ s' ⟨hmoved, hsettled⟩
    exact ⟨hmoved.conserved, hsettled, fun ho =>
      ⟨hsettled.sorted (hmoved.orderly ho), hmoved.orderly ho⟩⟩
  · rintro e s' ⟨hne, hmoved⟩
    exact ⟨hne, hmoved.conserved, hmoved.orderly⟩

/-- One page, of checkpoint 7 and obsolete from 9 on, while checkpoint 5 is the published
one. -/
def onePage : Env where
  hasState := true
  interrupted := false
  latestSnapshot := 5
  checkedOut := []
  pginfo := fun _ => some (7, 9)
  iinfo := fun _ => none
  allocFails := fun _ => false

/-- It is listed. -/
def listed : State where
  obsoletedEntries := ⟨[8 + gcEntryPage], 4⟩
  gcBlockedEntries := .empty
  freed := []
  didGc := false
  allocations := 0
  pushes := []

/-- **The page is put into group 5**, where it was never alive. -/
theorem not_sorted_listed : ¬∀ (env : Env) (s : State) (turns : ℕ), turnsNeeded env s ≤ turns →
    (gcCheckpoints env turns).wp (fun _ s' => Conserved s s' ∧ Sorted env s')
      (fun e s' => e ≠ .turns ∧ Conserved s s') s := by
  intro hall
  have hrun := hall onePage listed 4 (by decide +kernel)
  obtain ⟨hok, -⟩ := wp_iff.1 hrun
  have hresult : gcCheckpoints onePage 4 listed =
      (.ok false, (gcCheckpoints onePage 4).after listed) :=
    Prod.ext (by decide +kernel) rfl
  have halive := (hok _ _ hresult).2.alive 5 10 (by decide +kernel) 7 9 rfl
  exact absurd halive.1 (by decide)

/-- Checkpoint 5 is published and checkpoint 4 has a reader; the page at 8 is of lifetime
`[3, 9)`, all others are of lifetime `[2, 5)`. -/
def readAtFour : Env := { onePage with
  checkedOut := [((4 : ℕ) : Ts)]
  pginfo := fun addr => some (if addr = 8 then (((3 : ℕ) : Ts), ((9 : ℕ) : Ts))
    else (((2 : ℕ) : Ts), ((5 : ℕ) : Ts))) }

/-- The page at 8 is listed, and the page at 16 waits in group 3. -/
def waitingAtThree : State := { listed with
  gcBlockedEntries := RadixTree.empty.set ((3 : ℕ) : Ts) ⟨[16 + gcEntryPage], 4⟩ }

/-- One group, with one page in it. -/
theorem group_waitingAtThree (g : Ts) : (waitingAtThree.group g).values =
    if g = ((3 : ℕ) : Ts) then [16 + gcEntryPage] else [] := by
  split_ifs with hg
  · rw [hg, State.group, waitingAtThree, RadixTree.lookup_set_self]
    rfl
  · rw [State.group, waitingAtThree, RadixTree.lookup_set_of_ne _ _ hg]
    rfl

/-- All pages are of checkpoint 2 or 3. -/
theorem began_readAtFour {entry : ℕ} {a b : Ts} (h : readAtFour.lifetime entry = some (a, b)) :
    a ≤ ((3 : ℕ) : Ts) := by
  obtain ⟨type, -, hlife⟩ := Option.bind_eq_some_iff.1 h
  cases type with
  | page =>
    simp only [readAtFour] at hlife
    split_ifs at hlife
    · obtain ⟨rfl, -⟩ := Prod.mk.inj (Option.some.inj hlife)
      exact le_rfl
    · obtain ⟨rfl, -⟩ := Prod.mk.inj (Option.some.inj hlife)
      decide
  | inode => cases hlife

/-- The page was alive at the timestamp of its group. -/
theorem orderly_waitingAtThree : Orderly readAtFour waitingAtThree := by
  refine ⟨fun entry _ a b hlife => (began_readAtFour hlife).trans (by decide),
    fun g _ entry he a b hlife => ?_⟩
  rw [group_waitingAtThree] at he
  split_ifs at he with hg
  · obtain rfl := List.mem_singleton.1 he
    obtain ⟨rfl, rfl⟩ := Prod.mk.inj (Option.some.inj (hlife.symm.trans rfl))
    subst hg
    decide
  · cases he

/-- The first goes to group 5, the second to group 4. -/
theorem gc_checkpoints_conserves_waitingAtThree : Orderly readAtFour waitingAtThree ∧
    (gcCheckpoints readAtFour 7).wp
      (fun _ s' => Conserved waitingAtThree s' ∧ Sorted readAtFour s' ∧ Orderly readAtFour s')
      (fun e s' => e ≠ .turns ∧ Conserved waitingAtThree s') waitingAtThree := by
  have hrun := gc_checkpoints_conserves readAtFour waitingAtThree
    (show turnsNeeded readAtFour waitingAtThree ≤ 7 by decide +kernel)
  have ho := orderly_waitingAtThree
  rw [wp_iff] at hrun ⊢
  exact ⟨ho, fun d s' h => ⟨(hrun.1 d s' h).1, (hrun.1 d s' h).2.2 ho⟩,
    fun e s' h => ⟨(hrun.2 e s' h).1, (hrun.2 e s' h).2.1⟩⟩

end Gc
end Sivfs
