/-
# The collector over many runs

Checkpoints are made and collected for as long as the file system is mounted.  Entries are
listed by `sivfs_gc_mark_pages_obsoleted`; a run of `sivfs_gc_checkpoints` frees an entry if it
is `dead`: obsolete in the published checkpoint and in the lifetime of no reader.

| label | what happens |
| --- | --- |
| `mark` | the pages and the inode that a new checkpoint replaces are listed |
| `collect` | a run of the collector, that may fail in any allocation or be interrupted |

A label has the world it happens in: what is published, who reads, which allocations fail.
From one label to the next more is published, readers come and go, and pages that have been
freed get new lifetimes; the lifetime of an entry that waits does not change (`Steady`).

`Orderly` holds in every state that is reached, also after runs that fail, and that is what
makes each run exact: `collects_exactly`.
-/

import Sivfs.Gc.Conserve

namespace Sivfs
namespace Gc

open Call

/-! ### Entries are listed -/

/-- `sivfs_gc_make_entry_page` and `sivfs_gc_make_entry_inode`. -/
def gcMakeEntry (flag addr : ℕ) : Option ℕ :=
  if addr &&& gcEntryFlags = 0 then some (addr ||| flag) else none

/-- The entries for the pages and the inode. -/
def gcMakeEntries (pages : List ℕ) (checkpoint : Option ℕ) : Option (List ℕ) :=
  (pages.mapM (gcMakeEntry gcEntryPage)).bind fun entries =>
    checkpoint.elim (some entries) fun inode =>
      (gcMakeEntry gcEntryInode inode).map fun entry => entries ++ [entry]

/-- `sivfs_gc_mark_pages_obsoleted`. -/
def gcMarkPagesObsoleted (env : Env) (pages : List ℕ) (checkpoint : Option ℕ) :
    Call State Halt Unit := do
  let s ← get
  let stack ← stackReserve env s.obsoletedEntries
    (s.obsoletedEntries.values.length + pages.length + 1)
  modify fun s => { s with obsoletedEntries := stack }
  (gcMakeEntries pages checkpoint).elim (fail (.errno .einval)) fun entries =>
    modify fun s => { s with
      obsoletedEntries :=
        { s.obsoletedEntries with values := s.obsoletedEntries.values ++ entries } }

/-- The flags are in the low bits, where an aligned address has zeros. -/
theorem gcMakeEntry_flags {flag addr entry : ℕ} (hflag : flag < 8)
    (h : gcMakeEntry flag addr = some entry) : entry &&& gcEntryFlags = flag ∧
      gcEntryToAddr entry = addr := by
  rw [gcMakeEntry] at h
  split_ifs at h with haligned
  obtain rfl := Option.some.inj h
  have hlow : (addr ||| flag) &&& gcEntryFlags = flag := by
    rw [Nat.and_or_distrib_right, haligned, Nat.zero_or]
    exact (Nat.and_two_pow_sub_one_eq_mod flag 3).trans (Nat.mod_eq_of_lt hflag)
  refine ⟨hlow, ?_⟩
  rw [gcEntryToAddr, hlow]
  have hmod : addr % 2 ^ 3 = 0 := (Nat.and_two_pow_sub_one_eq_mod addr 3).symm.trans haligned
  obtain ⟨k, rfl⟩ : ∃ k, addr = k <<< 3 := ⟨addr / 8, by
    rw [Nat.shiftLeft_eq]
    omega⟩
  rw [← Nat.shiftLeft_add_eq_or_of_lt (i := 3) hflag k]
  omega

/-- **Entries are read as what they were made from.** -/
theorem gcMakeEntry_page {page entry : ℕ} (h : gcMakeEntry gcEntryPage page = some entry) :
    gcEntryToType entry = some .page ∧ gcEntryToAddr entry = page := by
  obtain ⟨hflags, haddr⟩ := gcMakeEntry_flags (by decide) h
  exact ⟨by rw [gcEntryToType, if_pos hflags], haddr⟩

/-- The same for the inode. -/
theorem gcMakeEntry_inode {inode entry : ℕ} (h : gcMakeEntry gcEntryInode inode = some entry) :
    gcEntryToType entry = some .inode ∧ gcEntryToAddr entry = inode := by
  obtain ⟨hflags, haddr⟩ := gcMakeEntry_flags (by decide) h
  exact ⟨by rw [gcEntryToType, if_neg (by rw [hflags]; decide), if_pos hflags], haddr⟩

/-! ### What a run frees -/

/-- Obsolete in the published checkpoint, and in the lifetime of no reader. -/
def dead (env : Env) (entry : ℕ) : Bool :=
  (env.lifetime entry).any fun lifetime => lifetime.2 ≤ env.latestSnapshot ∧
    ∀ v ∈ env.checkedOut, ¬tsRangeContains lifetime.1 lifetime.2 v

variable {env : Env} {s s' s₀ : State} {entry : ℕ} {a b : Ts} {α : Type}

/-- An entry is dead if it is obsolete in the published checkpoint and in the lifetime of no
reader. -/
theorem dead_iff : dead env entry = true ↔ ∃ a b, env.lifetime entry = some (a, b) ∧
    b ≤ env.latestSnapshot ∧ ∀ v ∈ env.checkedOut, ¬tsRangeContains a b v := by
  simp only [dead, Option.any_eq_true, decide_eq_true_iff, Prod.exists]

/-- If some reader is in the lifetime, the loop over the readers ends at one that is. -/
theorem foldl_contains {vs : List Ts} {v : Ts} (hv : v ∈ vs) (hc : tsRangeContains a b v) (c : Ts) :
    tsRangeContains a b (vs.foldl
      (fun target blocker => if tsRangeContains a b blocker then blocker else target) c) := by
  induction vs generalizing c with
  | nil => cases hv
  | cons w vs ih =>
    rw [List.foldl_cons]
    rcases List.mem_cons.1 hv with rfl | hv
    · rw [if_pos hc]
      rcases foldl_blocker rfl with hr | ⟨-, hr⟩
      · rw [hr]
        exact hc
      · exact hr
    · exact ih hv _

/-- **What is assigned to no group is dead.** -/
theorem dead_of_reassignTo (hlife : env.lifetime entry = some (a, b))
    (h : reassignTo env a b = invalidTs) : dead env entry = true := by
  refine dead_iff.2 ⟨a, b, hlife, ?_⟩
  rw [reassignTo] at h
  split_ifs at h with hlatest
  · rw [h] at hlatest
    exact absurd hlatest not_top_lt
  · refine ⟨not_lt.1 hlatest, fun v hv hc => ?_⟩
    have hlt := (foldl_contains hv hc invalidTs).2
    rw [h] at hlt
    exact not_top_lt hlt

/-- All that this run has freed is dead. -/
def OnlyDead (env : Env) (s₀ s : State) : Prop :=
  ∃ freed, s.freed = freed ++ s₀.freed ∧ ∀ entry ∈ freed, dead env entry = true

/-- An invariant through a call that depends on whether something was found. -/
theorem keeps_elim {σ ε : Type} {β : Type} {I : σ → Prop} {o : Option β} {m : Call σ ε α}
    {f : β → Call σ ε α} (hm : Keeps I m) (hf : ∀ b, o = some b → Keeps I (f b)) :
    Keeps I (o.elim m f) := by
  cases o with
  | none => exact hm
  | some b => exact hf b rfl

section OnlyDead

/-- An allocation frees no entry. -/
theorem keeps_alloc : Keeps (OnlyDead env s₀) (alloc env) :=
  keeps_bind keeps_get fun _ => keeps_bind (keeps_modify fun _ h => h) fun _ => keeps_require _ _

/-- Nor does a new stack. -/
theorem keeps_newStack : Keeps (OnlyDead env s₀) (newStack α env) :=
  keeps_bind keeps_alloc fun _ => keeps_pure _

/-- Nor does room for more. -/
theorem keeps_stackReserve (stack : Stack α) (n : ℕ) :
    Keeps (OnlyDead env s₀) (stackReserve env stack n) :=
  keeps_ite (keeps_bind keeps_alloc fun _ => keeps_pure _) (keeps_pure _)

/-- Nor does a push. -/
theorem keeps_stackPush (stack : Stack α) (v : α) :
    Keeps (OnlyDead env s₀) (stackPush env stack v) :=
  keeps_bind (keeps_stackReserve _ _) fun _ => keeps_pure _

/-- The versions of the threads are only read. -/
theorem keeps_getCheckedOutVersions (vs : List Ts) (out : Stack Ts) :
    Keeps (OnlyDead env s₀) (getCheckedOutVersions env vs out) := by
  induction vs generalizing out with
  | nil => exact keeps_pure _
  | cons v vs ih => exact keeps_bind (keeps_stackPush _ _) fun _ => ih _

/-- A group is looked up, or made. -/
theorem keeps_gcGetBlockedEntries (ts : Ts) :
    Keeps (OnlyDead env s₀) (gcGetBlockedEntries env ts) :=
  keeps_bind keeps_get fun _ => keeps_elim
    (keeps_bind keeps_newStack fun _ => keeps_bind keeps_alloc fun _ =>
      keeps_bind (keeps_modify fun _ h => h) fun _ => keeps_pure _)
    fun _ _ => keeps_pure _

/-- Entries that are listed are moved, not freed. -/
theorem keeps_takeObsoleted : Keeps (OnlyDead env s₀) (takeObsoleted env) :=
  keeps_bind (keeps_gcGetBlockedEntries _) fun _ => keeps_bind keeps_get fun _ =>
    keeps_bind (keeps_bind (keeps_stackReserve _ _) fun _ => keeps_pure _) fun _ =>
      keeps_modify fun _ h => h

/-- **An entry is freed only if it is dead.** -/
theorem keeps_gcOrReassignEntry (ts : Ts) :
    Keeps (OnlyDead env s₀) (gcOrReassignEntry env ts entry) := by
  refine keeps_elim (keeps_fail _) ?_
  rintro ⟨a, b⟩ hlife
  split_ifs with hinvalid
  · refine keeps_modify ?_
    rintro s ⟨freed, hfreed, hdead⟩
    by_cases htype : (gcEntryToType entry).isSome
    · refine ⟨entry :: freed, ?_, ?_⟩
      · simp only [State.gcFreeEntry, htype, if_true, hfreed, List.cons_append]
      · rintro e (_ | ⟨_, he⟩)
        · exact dead_of_reassignTo hlife hinvalid
        · exact hdead e he
    · exact ⟨freed, by simp only [State.gcFreeEntry, htype, hfreed]; rfl, hdead⟩
  · exact keeps_bind (keeps_gcGetBlockedEntries _) fun _ => keeps_bind (keeps_stackPush _ _)
      fun _ => keeps_modify fun _ h => h

/-- An entry of the group is freed only if it is in no lifetime, and moved otherwise. -/
theorem keeps_drainGroup (ts : Ts) (n : ℕ) : Keeps (OnlyDead env s₀) (drainGroup env ts n) := by
  induction n with
  | zero => exact keeps_fail _
  | succ n ih =>
    exact keeps_bind keeps_get fun _ => keeps_elim (keeps_pure _) fun _ _ =>
      keeps_bind (keeps_gcOrReassignEntry ts) fun _ => keeps_bind (keeps_modify fun _ h => h)
        fun _ => ih

/-- **The iteration frees only what is dead.** -/
theorem keeps_gcGroups (turns n : ℕ) (c : Option Ts) :
    Keeps (OnlyDead env s₀) (gcGroups env turns n c) := by
  induction n generalizing c with
  | zero => exact keeps_fail _
  | succ n ih =>
    refine keeps_bind keeps_get fun _ => keeps_elim (keeps_pure _) fun slot _ => ?_
    split_ifs
    · exact ih _
    · exact keeps_bind (keeps_drainGroup _ _) fun _ => keeps_bind (keeps_modify fun _ h => h)
        fun _ => ih _

/-- **Whatever a run frees is dead**, whether it fails or not. -/
theorem keeps_gcCheckpoints (turns : ℕ) : Keeps (OnlyDead env s₀) (gcCheckpoints env turns) := by
  refine keeps_bind (keeps_modify fun _ h => h) fun _ => keeps_bind (keeps_require _ _) fun _ =>
    keeps_bind (keeps_require _ _) fun _ => keeps_bind keeps_takeObsoleted fun _ =>
      keeps_bind keeps_get fun _ => ?_
  split_ifs
  · exact keeps_pure _
  · exact keeps_bind keeps_newStack fun _ => keeps_bind (keeps_getCheckedOutVersions _ _) fun _ =>
      keeps_bind (keeps_gcGroups _ _ _) fun _ => keeps_bind keeps_get fun _ => keeps_pure _

end OnlyDead

/-! ### What a run leaves -/

/-- The dead are freed, and the others still wait. -/
structure Exact (env : Env) (s s' : State) : Prop where
  freed : ∃ freed, s'.freed = freed ++ s.freed ∧
    (freed : Multiset ℕ) = s.waiting.filter fun entry => dead env entry = true
  waiting : s'.waiting = s.waiting.filter fun entry => ¬dead env entry = true

/-- Some of the dead are freed, and the others still wait. -/
def Partly (env : Env) (s s' : State) : Prop :=
  ∃ freed, s'.freed = freed ++ s.freed ∧ (∀ entry ∈ freed, dead env entry = true) ∧
    s'.waiting + (freed : Multiset ℕ) = s.waiting

/-- A run that fails has done a part: what it freed is dead, and the rest still waits. -/
theorem Moved.partly (h : Moved env s s') (hdead : OnlyDead env s s') : Partly env s s' := by
  obtain ⟨freed, hfreed, hsum⟩ := h.conserved.entries
  obtain ⟨freed', hfreed', hall⟩ := hdead
  obtain rfl := List.append_cancel_right (hfreed.symm.trans hfreed')
  exact ⟨freed, hfreed, hall, hsum⟩

/-- In a group that is still blocked nothing is dead. -/
theorem Settled.not_dead (h : Settled env s) (ho : Orderly env s) (he : entry ∈ s.waiting) :
    ¬dead env entry = true := by
  rw [mem_waiting, h.listed] at he
  obtain ⟨g, hg⟩ := he.resolve_left (List.not_mem_nil)
  obtain ⟨hne, hblocked⟩ := h.blocked g entry hg
  intro hdead
  obtain ⟨a, b, hlife, hle, hno⟩ := dead_iff.1 hdead
  obtain ⟨ha, hb⟩ := ho.grouped g hne entry hg a b hlife
  rcases hblocked with hreader | hlatest
  · exact hno g hreader ⟨ha, hb⟩
  · exact absurd hb (not_lt.2 (hle.trans hlatest))

/-- If nothing that waits is dead, the run has done all of it. -/
theorem Partly.exact (h : Partly env s s') (hno : ∀ entry ∈ s'.waiting, ¬dead env entry = true) :
    Exact env s s' := by
  obtain ⟨freed, hfreed, hall, hsum⟩ := h
  refine ⟨⟨freed, hfreed, ?_⟩, ?_⟩
  · rw [← hsum, Multiset.filter_add, Multiset.filter_eq_nil.2 hno, zero_add,
      Multiset.filter_eq_self.2 hall]
  · rw [← hsum, Multiset.filter_add, Multiset.filter_eq_self.2 hno,
      Multiset.filter_eq_nil.2 fun entry he => not_not.2 (hall entry he), add_zero]

/-- A run of which the entries are in order. -/
theorem wp_gcCheckpoints_exact (ho : Orderly env s) {turns : ℕ}
    (hturns : turnsNeeded env s ≤ turns) :
    (gcCheckpoints env turns).wp (fun _ s' => Exact env s s' ∧ Orderly env s')
      (fun e s' => e ≠ .turns ∧ Partly env s s' ∧ Orderly env s') s := by
  have hnone : OnlyDead env s s := ⟨[], rfl, by simp⟩
  have hdead := keeps_iff.1 (keeps_gcCheckpoints turns) s hnone
  refine wp_mono (wp_and (wp_gcCheckpoints env s hturns) hdead) ?_ ?_
  · rintro _ s' ⟨⟨hmoved, hsettled⟩, hdead⟩
    have ho' := hmoved.orderly ho
    exact ⟨(hmoved.partly hdead).exact fun _ he => hsettled.not_dead ho' he, ho'⟩
  · rintro e s' ⟨⟨hne, hmoved⟩, hdead⟩
    exact ⟨hne, hmoved.partly hdead, hmoved.orderly ho⟩

/-! ### All runs -/

/-- The collector, with the world it has last seen. -/
structure Collector where
  state : State
  world : Env
  /-- What has been listed so far. -/
  marked : Multiset ℕ

/-- What happens to the collector. -/
inductive Act where
  | mark (env : Env) (pages : List ℕ) (checkpoint : Option ℕ)
  | collect (env : Env) (turns : ℕ)

/-- The collector of a mounted file system. -/
def collector : Machine Collector Act where
  init c := c.state.obsoletedEntries.values = [] ∧ c.state.gcBlockedEntries = .empty ∧
    c.state.freed = [] ∧ c.marked = 0
  step c
    | .mark env pages checkpoint => some <| (gcMarkPagesObsoleted env pages checkpoint).run
        (fun _ s' => ⟨s', env, c.marked + ((gcMakeEntries pages checkpoint).getD [] : List ℕ)⟩)
        (fun _ s' => ⟨s', env, c.marked⟩) c.state
    | .collect env turns => some ⟨(gcCheckpoints env turns).after c.state, env, c.marked⟩

/-- The world goes on: more is published, and what waits keeps its lifetime. -/
structure Onward (c : Collector) (env : Env) : Prop where
  latest : c.world.latestSnapshot ≤ env.latestSnapshot
  lifetime : ∀ entry ∈ c.state.waiting, env.lifetime entry = c.world.lifetime entry

/-- What is listed began in a checkpoint that is published, and runs have enough turns. -/
def Steady (c : Collector) : Act → Prop
  | .mark env pages checkpoint => Onward c env ∧ ∀ entries,
      gcMakeEntries pages checkpoint = some entries → ∀ entry ∈ entries, ∀ a b,
        env.lifetime entry = some (a, b) → a ≤ env.latestSnapshot
  | .collect env turns => Onward c env ∧ turnsNeeded env c.state ≤ turns

variable {c : Collector}

/-- What is published goes forward, so entries that have begun still have. -/
theorem Onward.orderly (h : Onward c env) (ho : Orderly c.world c.state) : Orderly env c.state := by
  refine ⟨fun entry he a b hlife => ?_, fun g hg entry he a b hlife => ?_⟩
  · rw [h.lifetime entry (mem_waiting.2 he)] at hlife
    exact (ho.began entry he a b hlife).trans h.latest
  · rw [h.lifetime entry (mem_waiting.2 (.inr ⟨g, he⟩))] at hlife
    exact ho.grouped g hg entry he a b hlife

/-- Entries are listed all at once or not at all. -/
theorem wp_gcMarkPagesObsoleted (env : Env) (pages : List ℕ) (checkpoint : Option ℕ) (s : State) :
    (gcMarkPagesObsoleted env pages checkpoint).wp
      (fun _ s' => ∃ entries, gcMakeEntries pages checkpoint = some entries ∧
        s'.obsoletedEntries.values = s.obsoletedEntries.values ++ entries ∧
        s'.gcBlockedEntries = s.gcBlockedEntries ∧ s'.freed = s.freed)
      (fun _ s' => s'.obsoletedEntries.values = s.obsoletedEntries.values ∧
        s'.gcBlockedEntries = s.gcBlockedEntries ∧ s'.freed = s.freed) s := by
  rw [gcMarkPagesObsoleted, wp_bind, wp_get]
  have hreserve := wp_stackReserve env s s.obsoletedEntries
    (s.obsoletedEntries.values.length + pages.length + 1)
  refine wp_seq (wp_mono hreserve (fun _ _ h => h) ?_) ?_
  · rintro e s₁ ⟨-, n, rfl⟩
    exact ⟨rfl, rfl, rfl⟩
  rintro stack s₁ ⟨hstack, n, rfl⟩
  rw [wp_bind, wp_modify]
  rcases gcMakeEntries pages checkpoint with _ | entries
  · exact ⟨hstack, rfl, rfl⟩
  · rw [Option.elim_some, wp_modify]
    exact ⟨entries, rfl, by rw [hstack], rfl, rfl⟩

/-- In order, and every entry that was listed waits or is freed. -/
structure Accounted (c : Collector) : Prop where
  orderly : Orderly c.world c.state
  marked : c.state.waiting + (c.state.freed : Multiset ℕ) = c.marked

/-- Entries that are listed wait from then on. -/
theorem Accounted.mark (h : Accounted c) {pages : List ℕ} {checkpoint : Option ℕ}
    (hs : Steady c (.mark env pages checkpoint)) :
    Accounted ((gcMarkPagesObsoleted env pages checkpoint).run
      (fun _ s' => ⟨s', env, c.marked + ((gcMakeEntries pages checkpoint).getD [] : List ℕ)⟩)
      (fun _ s' => ⟨s', env, c.marked⟩) c.state) := by
  obtain ⟨hon, hbegan⟩ := hs
  have ho := hon.orderly h.orderly
  refine run_of_wp (wp_gcMarkPagesObsoleted env pages checkpoint c.state) ?_ ?_
  · rintro _ s' ⟨entries, hentries, hlisted, hgroups, hfreed⟩
    have hgroup : ∀ g, s'.group g = c.state.group g := fun g => by
      rw [State.group, hgroups, State.group]
    refine ⟨⟨fun entry he => ?_, fun g hg entry he => ho.grouped g hg entry (hgroup g ▸ he)⟩, ?_⟩
    · simp only [hlisted, List.mem_append, hgroup] at he
      rcases he with (he | he) | he
      · exact ho.began entry (.inl he)
      · exact hbegan entries hentries entry he
      · exact ho.began entry (.inr he)
    · have hmarked := h.marked
      rw [State.waiting, State.blocked] at hmarked ⊢
      simp only [hlisted, hgroups, hfreed, hentries, Option.getD_some, ← hmarked,
        ← Multiset.coe_add]
      abel
  · rintro _ s' ⟨hlisted, hgroups, hfreed⟩
    have hgroup : ∀ g, s'.group g = c.state.group g := fun g => by
      rw [State.group, hgroups, State.group]
    refine ⟨⟨fun entry he => ?_, fun g hg entry he => ho.grouped g hg entry (hgroup g ▸ he)⟩, ?_⟩
    · simp only [hlisted, hgroup] at he
      exact ho.began entry he
    · have hmarked := h.marked
      rw [State.waiting, State.blocked] at hmarked ⊢
      simp only [hlisted, hgroups, hfreed, hmarked]

/-- What was listed waits or is freed, after a run as before it. -/
theorem Partly.marked (h : Partly env s s') {marked : Multiset ℕ}
    (hmarked : s.waiting + (s.freed : Multiset ℕ) = marked) :
    s'.waiting + (s'.freed : Multiset ℕ) = marked := by
  obtain ⟨freed, hfreed, -, hsum⟩ := h
  rw [hfreed, ← hmarked, ← hsum, ← Multiset.coe_add, add_assoc]

/-- An exact run is one that has done its part. -/
theorem Exact.partly (h : Exact env s s') : Partly env s s' := by
  obtain ⟨⟨freed, hfreed, hdead⟩, hwaiting⟩ := h
  refine ⟨freed, hfreed, fun entry he => ?_, ?_⟩
  · rw [← Multiset.mem_coe, hdead] at he
    exact (Multiset.mem_filter.1 he).2
  · rw [hwaiting, hdead, add_comm]
    exact Multiset.filter_add_not _ _

/-- A run of the collector, however it ends. -/
theorem Accounted.collect (h : Accounted c) {turns : ℕ} (hs : Steady c (.collect env turns)) :
    Accounted ⟨(gcCheckpoints env turns).after c.state, env, c.marked⟩ := by
  obtain ⟨hon, hturns⟩ := hs
  refine (wp_after (I := fun s' => Accounted ⟨s', env, c.marked⟩)).1
    (wp_mono (wp_gcCheckpoints_exact (hon.orderly h.orderly) hturns) ?_ ?_)
  · rintro _ s' ⟨hexact, ho⟩
    exact ⟨ho, hexact.partly.marked h.marked⟩
  · rintro _ s' ⟨-, hpartly, ho⟩
    exact ⟨ho, hpartly.marked h.marked⟩

/-- **Every entry that was ever listed waits or is freed**, in every state that is reached. -/
theorem Accounted.of_reachable (hr : collector.ReachableWith Steady c) : Accounted c := by
  refine hr.invariant ?_ fun c a c' _ h hs hstep => ?_
  · rintro c ⟨hlisted, hgroups, hfreed, hmarked⟩
    have hgroup : ∀ g, (c.state.group g).values = [] := fun g => by
      rw [State.group, hgroups]
      rfl
    refine ⟨⟨fun entry he => ?_, fun g hg entry he => ?_⟩, ?_⟩
    · rw [hlisted] at he
      simp [hgroup] at he
    · rw [hgroup] at he
      cases he
    · rw [State.waiting, State.blocked, hlisted, hgroups, hfreed, hmarked]
      rfl
  · cases a with
    | mark env pages checkpoint =>
      obtain rfl := Option.some.inj hstep
      exact h.mark hs
    | collect env turns =>
      obtain rfl := Option.some.inj hstep
      exact h.collect hs

/-- **The collector frees exactly what is dead.**  After any sequence of listings and runs,
failed ones too, every entry that was listed waits or is freed, once; a run that succeeds frees
those that are dead and no others, and one that fails frees only such. -/
theorem collects_exactly (hr : collector.ReachableWith Steady c) {turns : ℕ}
    (hs : Steady c (.collect env turns)) :
    c.state.waiting + (c.state.freed : Multiset ℕ) = c.marked ∧
      (gcCheckpoints env turns).wp (fun _ s' => Exact env c.state s')
        (fun e s' => e ≠ .turns ∧ Partly env c.state s') c.state := by
  have h := Accounted.of_reachable hr
  exact ⟨h.marked, wp_mono (wp_gcCheckpoints_exact (hs.1.orderly h.orderly) hs.2)
    (fun _ _ h => h.1) fun _ _ h => ⟨h.1, h.2.1⟩⟩

/-- One page, of checkpoint 3 and obsolete from 5 on. -/
def oldPage : Env := { onePage with pginfo := fun _ => some (((3 : ℕ) : Ts), ((5 : ℕ) : Ts)) }

/-- Nothing is listed yet. -/
def mounted : Collector := ⟨{ listed with obsoletedEntries := ⟨[], 0⟩ }, oldPage, 0⟩

/-- It is listed. -/
def oldPageListed : Collector :=
  ⟨{ listed with allocations := 1 }, oldPage, ([8 + gcEntryPage] : List ℕ)⟩

/-- The run after it frees it. -/
theorem collects_exactly_oldPage : oldPageListed.state.waiting +
    (oldPageListed.state.freed : Multiset ℕ) = oldPageListed.marked ∧
      (gcCheckpoints oldPage (turnsNeeded oldPage oldPageListed.state)).wp
        (fun _ s' => Exact oldPage oldPageListed.state s')
        (fun e s' => e ≠ .turns ∧ Partly oldPage oldPageListed.state s') oldPageListed.state := by
  have hentries : gcMakeEntries [8] none = some [8 + gcEntryPage] := by decide
  have hinit : collector.init mounted := ⟨rfl, rfl, rfl, rfl⟩
  have hmark : Steady mounted (.mark oldPage [8] none) := by
    refine ⟨⟨le_rfl, fun _ _ => rfl⟩, fun entries hsome entry he a b hlife => ?_⟩
    obtain rfl := Option.some.inj (hentries.symm.trans hsome)
    obtain rfl := List.mem_singleton.1 he
    obtain ⟨rfl, rfl⟩ := Prod.mk.inj (Option.some.inj (hlife.symm.trans rfl))
    decide
  have hstep : collector.step mounted (.mark oldPage [8] none) = some oldPageListed := by
    rfl
  exact collects_exactly (.step _ (.init hinit) hmark hstep) ⟨⟨le_rfl, fun _ _ => rfl⟩, le_rfl⟩

end Gc
end Sivfs
