/-
# A run of the collector is a fetch and sweeps

Pages and inodes have names that outlive them in `Sivfs.Checkpoint.Lifetimes`; a run of
`sivfs_gc_checkpoints` moves their addresses.  Seen through `name`, which gives the entries
that wait their pages and inodes, a run is made of the steps of the collector there:

| the run | step |
| --- | --- |
| `obsoleted_entries` are taken over | `gcFetch` |
| an entry is pushed onto another group, or freed, and then popped | `gcSweep` |
| a group is made, is deleted when it is empty, an allocation fails | none |

So what holds of all states of that machine holds after every run, wherever it gives up, and
no page goes that a reader or the published checkpoint still leads to: `run_refines`.
-/

import Sivfs.Gc.Runs
import Sivfs.Checkpoint.Lifetimes

namespace Sivfs
namespace Gc

open Call Checkpoint
open Checkout (GcEntry)

/-- The steps of the collector. -/
def Collects (_ : Lifetimes.State) : Lifetimes.Act → Prop
  | .gcFetch | .gcSweep _ _ _ => True
  | _ => False

/-- The stacks of a run, by name. -/
structure Stands (name : ℕ → GcEntry) (s : State) (a : Lifetimes.State) : Prop where
  obsoleted : a.obsoletedEntries = s.obsoletedEntries.values.map name
  groups : ∀ g, a.gcBlockedEntries g = (s.group g).values.map name

/-- The lifetimes that a run reads are those of the pages and inodes, and what it takes for
published is. -/
structure Reads (env : Env) (name : ℕ → GcEntry) (s : State) (a : Lifetimes.State)
    (latest : ℕ) : Prop where
  snapshot : env.latestSnapshot = (latest : Ts)
  published : latest ≤ a.latest.cpTs
  lifetime : ∀ entry ∈ s.waiting, env.lifetime entry =
    (Lifetimes.gcEntryToLifetime a (name entry)).map fun lifetime => ((lifetime.1 : Ts), lifetime.2)

/-! ### The same decisions -/

variable {env : Env} {name : ℕ → GcEntry} {s s' s₀ : State} {a a' a₀ : Lifetimes.State}
  {latest : ℕ} {entry : ℕ} {g ts : Ts}

/-- Both machines choose the same group. -/
theorem reassignTo_eq (h : Reads env name s₀ a₀ latest) (start : ℕ) (b : Ts) :
    reassignTo env start b = Checkout.reassignTo latest env.checkedOut start b := by
  simp only [reassignTo, Checkout.reassignTo, h.snapshot, tsRangeContains,
    Checkout.tsRangeContains, decide_eq_true_eq]
  rfl

/-- And agree on which groups are blocked. -/
theorem stillBlocked_eq (h : Reads env name s₀ a₀ latest) (g : Ts) :
    stillBlocked env g = Checkout.stillBlocked latest env.checkedOut g := by
  simp only [stillBlocked, Checkout.stillBlocked, h.snapshot]

/-! ### What a run has done so far -/

/-- The run from `s₀` to `s` is one from `a₀` to `a`, by steps of the collector. -/
structure Mirrors (name : ℕ → GcEntry) (s₀ : State) (a₀ : Lifetimes.State) (s : State)
    (a : Lifetimes.State) : Prop where
  known : ∀ entry ∈ s.waiting, entry ∈ s₀.waiting
  runs : Lifetimes.machine.RunsWith Collects a₀ a
  stands : Stands name s a
  freed : ∃ freed, s.freed = freed ++ s₀.freed ∧ a.freed = freed.map name ++ a₀.freed ∧
    ∀ entry ∈ freed, entry ∈ s₀.waiting
  lifetime : Lifetimes.gcEntryToLifetime a = Lifetimes.gcEntryToLifetime a₀
  latest : a.latest = a₀.latest

/-- The run has done steps of the collector. -/
def Mirrored (name : ℕ → GcEntry) (s₀ : State) (a₀ : Lifetimes.State) (s : State) : Prop :=
  ∃ a, Mirrors name s₀ a₀ s a

/-- A run begins with nothing done. -/
theorem Mirrors.start (h : Stands name s a) : Mirrors name s a s a :=
  ⟨fun _ h => h, .refl, h, ⟨[], rfl, rfl, by simp⟩, rfl, rfl⟩

/-- The same entries in the same stacks. -/
structure SameStacks (s s' : State) : Prop where
  obsoleted : s'.obsoletedEntries.values = s.obsoletedEntries.values
  groups : ∀ g, (s'.group g).values = (s.group g).values
  freed : s'.freed = s.freed

/-- The stacks say what waits. -/
theorem SameStacks.mem_waiting (h : SameStacks s s') : entry ∈ s'.waiting ↔ entry ∈ s.waiting := by
  simp only [Gc.mem_waiting, h.obsoleted, h.groups]

/-- What concerns no stack is no step of the other machine. -/
theorem Mirrored.same (h : Mirrored name s₀ a₀ s) (hs : SameStacks s s') :
    Mirrored name s₀ a₀ s' := by
  obtain ⟨a, h⟩ := h
  refine ⟨a, fun entry he => h.known entry (hs.mem_waiting.1 he), h.runs, ⟨?_, fun g => ?_⟩, ?_,
    h.lifetime, h.latest⟩
  · rw [hs.obsoleted]
    exact h.stands.obsoleted
  · rw [hs.groups]
    exact h.stands.groups g
  · rw [hs.freed]
    exact h.freed

/-- Allocations concern no stack. -/
theorem Spent.same (h : Spent s s') : SameStacks s s' := by
  obtain ⟨n, rfl⟩ := h
  exact ⟨rfl, fun _ => rfl, rfl⟩

/-- Nor does an empty group. -/
theorem same_ensured (s : State) (g : Ts) : SameStacks s (s.setGroup g (s.group g)) := by
  refine ⟨rfl, fun k => ?_, rfl⟩
  by_cases hk : k = g
  · rw [hk, group_setGroup_self]
  · rw [group_setGroup_of_ne _ hk]

/-- One after the other. -/
theorem SameStacks.trans {s'' : State} (h : SameStacks s s') (h' : SameStacks s' s'') :
    SameStacks s s'' :=
  ⟨h'.obsoleted.trans h.obsoleted, fun g => (h'.groups g).trans (h.groups g),
    h'.freed.trans h.freed⟩

/-- An entry is pushed onto a group. -/
theorem wp_reassign_pushed (env : Env) (s : State) (ts g : Ts) (entry : ℕ) :
    (reassign env ts g entry).wp
      (fun _ s' => s'.obsoletedEntries = s.obsoletedEntries ∧ s'.freed = s.freed ∧
        (s'.group g).values = (s.group g).values ++ [entry] ∧ ∀ k, k ≠ g → s'.group k = s.group k)
      (fun _ s' => SameStacks s s') s := by
  rw [reassign]
  refine wp_seq (wp_mono (wp_gcGetBlockedEntries env s g) (fun _ _ h => h) fun e s₁ h =>
    h.2.same) ?_
  rintro stack s₁ ⟨rfl, n, rfl⟩
  have hsame := (same_ensured s g).trans (Spent.same ⟨n, rfl⟩)
  refine wp_seq (wp_mono (wp_stackPush env _ (s.group g) entry) (fun _ _ h => h) fun e s₂ h =>
    hsame.trans h.2.same) ?_
  rintro stack s₂ ⟨hstack, m, rfl⟩
  rw [wp_modify]
  refine ⟨rfl, rfl, ?_, fun k hk => ?_⟩
  · exact (congrArg Stack.values (group_setGroup_self g stack)).trans hstack
  · exact (group_setGroup_of_ne stack hk).trans (group_setGroup_of_ne _ hk)

/-! ### Sweeping -/

theorem popGroup_values {rest : List ℕ} (h : (s.group ts).values = rest ++ [entry]) (k : Ts) :
    ((s.popGroup ts).group k).values = if k = ts then rest else (s.group k).values := by
  split_ifs with hk
  · rw [hk, State.popGroup, group_setGroup_self, h, List.dropLast_concat]
  · rw [State.popGroup, group_setGroup_of_ne _ hk]

/-- The run goes on by one step. -/
theorem Mirrors.step (h : Mirrors name s₀ a₀ s a) {act : Lifetimes.Act} (hact : Collects a act)
    (hstep : Lifetimes.machine.step a act = some a') (hsub : ∀ e ∈ s'.waiting, e ∈ s.waiting)
    (hstands : Stands name s' a')
    (hfreed : ∃ new, s'.freed = new ++ s.freed ∧ a'.freed = new.map name ++ a.freed ∧
      ∀ e ∈ new, e ∈ s.waiting)
    (hlifetime : Lifetimes.gcEntryToLifetime a' = Lifetimes.gcEntryToLifetime a)
    (hlatest : a'.latest = a.latest) : Mirrors name s₀ a₀ s' a' := by
  obtain ⟨new, hnew, hnew', hnewOld⟩ := hfreed
  obtain ⟨freed, hfreed, hfreed', hfreedOld⟩ := h.freed
  refine ⟨fun e he => h.known e (hsub e he), h.runs.step act hact hstep, hstands,
    ⟨new ++ freed, ?_, ?_, fun e he => ?_⟩, hlifetime.trans h.lifetime, hlatest.trans h.latest⟩
  · rw [hnew, hfreed, List.append_assoc]
  · rw [hnew', hfreed', List.map_append, List.append_assoc]
  · rcases List.mem_append.1 he with he | he
    · exact h.known e (hnewOld e he)
    · exact hfreedOld e he

/-- The top entry of a group is freed and popped. -/
theorem Mirrors.free {rest : List ℕ} (h : Mirrors name s₀ a₀ s a)
    (hrest : (s.group ts).values = rest ++ [entry]) (htype : (gcEntryToType entry).isSome)
    {act : Lifetimes.Act} (hact : Collects a act) (hstep : Lifetimes.machine.step a act =
      some (Lifetimes.reassign a ts invalidTs (name entry))) :
    Mirrored name s₀ a₀ (State.popGroup { s.gcFreeEntry entry with didGc := true } ts) := by
  have hgroup : ∀ k, ((State.popGroup { s.gcFreeEntry entry with didGc := true } ts).group k).values
      = if k = ts then rest else (s.group k).values := popGroup_values hrest
  have hwaits : entry ∈ s.waiting := mem_waiting.2 (.inr ⟨ts, by rw [hrest]; simp⟩)
  rw [Lifetimes.reassign, if_pos rfl] at hstep
  refine ⟨_, h.step hact hstep (fun e he => ?_) ⟨h.stands.obsoleted, fun k => ?_⟩
    ⟨[entry], ?_, rfl, by simpa using hwaits⟩ rfl rfl⟩
  · simp only [mem_waiting, hgroup] at he ⊢
    refine he.imp_right fun ⟨k, hk⟩ => ?_
    split_ifs at hk with hkts
    · exact ⟨ts, by rw [hrest]; exact List.mem_append_left _ hk⟩
    · exact ⟨k, hk⟩
  · rw [hgroup]
    simp only [Lifetimes.State.pop, Function.update_apply, h.stands.groups]
    split_ifs
    · rw [hrest, List.map_append, List.map_singleton, List.dropLast_concat]
    · rfl
  · show (s.gcFreeEntry entry).freed = [entry] ++ s.freed
    simp only [State.gcFreeEntry, htype, if_true, List.singleton_append]

/-- It is popped after it has been pushed onto another group. -/
theorem Mirrors.push {rest : List ℕ} (h : Mirrors name s₀ a₀ s a)
    (hrest : (s.group ts).values = rest ++ [entry]) (hne : ts ≠ g) (hvalid : g ≠ invalidTs)
    {act : Lifetimes.Act} (hact : Collects a act)
    (hstep : Lifetimes.machine.step a act = some (Lifetimes.reassign a ts g (name entry)))
    (hobs : s'.obsoletedEntries = s.obsoletedEntries) (hfreed : s'.freed = s.freed)
    (hpush : (s'.group g).values = (s.group g).values ++ [entry])
    (hother : ∀ k, k ≠ g → s'.group k = s.group k) : Mirrored name s₀ a₀ (s'.popGroup ts) := by
  have hgroup : ∀ k, ((s'.popGroup ts).group k).values = if k = ts then rest else
      if k = g then (s.group k).values ++ [entry] else (s.group k).values := by
    intro k
    rw [popGroup_values (by rw [hother ts hne, hrest])]
    split_ifs with hkts hkg
    · rfl
    · rw [hkg, hpush]
    · rw [hother k hkg]
  have hobs' : (s'.popGroup ts).obsoletedEntries = s.obsoletedEntries := hobs
  rw [Lifetimes.reassign, if_neg hvalid] at hstep
  refine ⟨_,
    h.step hact hstep (fun e he => ?_) ⟨?_, fun k => ?_⟩ ⟨[], hfreed, rfl, by simp⟩ rfl rfl⟩
  · simp only [mem_waiting, hobs', hgroup] at he ⊢
    refine he.imp_right fun ⟨k, hk⟩ => ?_
    split_ifs at hk with hkts hkg
    · exact ⟨ts, by rw [hrest]; exact List.mem_append_left _ hk⟩
    · rcases List.mem_append.1 hk with hk | hk
      · exact ⟨k, hk⟩
      · rw [List.mem_singleton.1 hk]
        exact ⟨ts, by rw [hrest]; simp⟩
    · exact ⟨k, hk⟩
  · rw [hobs']
    exact h.stands.obsoleted
  · rw [hgroup]
    simp only [Lifetimes.State.pop, Lifetimes.State.push, Function.update_apply, h.stands.groups,
      if_neg hne]
    split_ifs with hkts hkg
    · rw [hrest, List.map_append, List.map_singleton, List.dropLast_concat]
    · rw [hkg, List.map_append, List.map_singleton]
    · rfl

/-- **A turn of the inner loop is a sweep.** -/
theorem Mirrored.sweep (hr : Reads env name s₀ a₀ latest) (h : Mirrored name s₀ a₀ s)
    (hts : stillBlocked env ts = false) (htop : (s.group ts).values.getLast? = some entry) :
    (gcOrReassignEntry env ts entry).wp (fun _ s' => Mirrored name s₀ a₀ (s'.popGroup ts))
      (fun _ => Mirrored name s₀ a₀) s := by
  obtain ⟨a, h⟩ := h
  obtain ⟨rest, hrest⟩ := List.getLast?_eq_some_iff.1 htop
  have hwaits : entry ∈ s.waiting := mem_waiting.2 (.inr ⟨ts, by rw [hrest]; simp⟩)
  rw [gcOrReassignEntry]
  cases hlife : env.lifetime entry with
  | none => exact ⟨a, h⟩
  | some lifetime =>
    obtain ⟨c, b⟩ := lifetime
    have hname := hr.lifetime entry (h.known entry hwaits)
    rw [hlife] at hname
    obtain ⟨⟨start, stop⟩, hgc, hpair⟩ := Option.map_eq_some_iff.1 hname.symm
    obtain ⟨rfl, rfl⟩ := Prod.mk.inj hpair
    have hact : Collects a (.gcSweep latest env.checkedOut ts) := trivial
    have hstep : Lifetimes.machine.step a (.gcSweep latest env.checkedOut ts) =
        some (Lifetimes.reassign a ts (reassignTo env start stop) (name entry)) := by
      have hgroup : (a.gcBlockedEntries ts).getLast? = some (name entry) := by
        rw [h.stands.groups, hrest]
        simp
      have hblocked : ¬(a.latest.cpTs < latest ∨
          Checkout.stillBlocked latest env.checkedOut ts = true) := by
        rw [h.latest, ← stillBlocked_eq hr, hts]
        simpa using hr.published
      simp only [Lifetimes.machine, Lifetimes.step, if_neg hblocked, hgroup, h.lifetime, hgc,
        Option.map_some, reassignTo_eq hr]
    rw [Option.elim_some]
    split_ifs with hinvalid
    · rw [wp_modify]
      rw [hinvalid] at hstep
      have htype : (gcEntryToType entry).isSome := by
        rw [Env.lifetime] at hlife
        obtain ⟨t, ht, -⟩ := Option.bind_eq_some_iff.1 hlife
        rw [ht]
        rfl
      exact h.free hrest htype hact hstep
    · have hne : ts ≠ reassignTo env start stop := by
        intro heq
        have hblocked := (reassignTo_spec hinvalid).1.stillBlocked
        rw [← heq, hts] at hblocked
        cases hblocked
      refine wp_mono (wp_reassign_pushed env s ts _ entry) ?_ fun e s' hs => Mirrored.same ⟨a, h⟩ hs
      rintro _ s' ⟨hobs, hfreed, hpush, hother⟩
      exact h.push hrest hne hinvalid hact hstep hobs hfreed hpush hother

/-- A group that is drained. -/
theorem wp_drainGroup_mirrored (hr : Reads env name s₀ a₀ latest)
    (hts : stillBlocked env ts = false) (n : ℕ) (h : Mirrored name s₀ a₀ s) :
    (drainGroup env ts n).wp (fun _ s' => Mirrored name s₀ a₀ s' ∧ (s'.group ts).values = [])
      (fun _ => Mirrored name s₀ a₀) s := by
  induction n generalizing s with
  | zero => exact h
  | succ n ih =>
    rw [drainGroup, wp_bind, wp_get]
    cases htop : (s.group ts).values.getLast? with
    | none => exact ⟨h, List.getLast?_eq_none_iff.1 htop⟩
    | some entry =>
      refine wp_seq (h.sweep hr hts htop) fun _ s₁ h₁ => ?_
      rw [wp_bind, wp_modify]
      exact ih h₁

/-- An empty group is deleted. -/
theorem same_deleted (hempty : (s.group ts).values = []) :
    SameStacks s { s with gcBlockedEntries := s.gcBlockedEntries.delete ts } := by
  refine ⟨rfl, fun k => ?_, rfl⟩
  by_cases hk : k = ts
  · rw [hk, hempty]
    simp [State.group]
  · simp only [State.group, RadixTree.lookup_delete_of_ne _ hk]

/-- **The iteration is mirrored**, wherever it ends. -/
theorem keeps_gcGroups_mirrored (hr : Reads env name s₀ a₀ latest) (turns n : ℕ) (c : Option Ts) :
    Keeps (Mirrored name s₀ a₀) (gcGroups env turns n c) := by
  induction n generalizing c with
  | zero => exact keeps_fail _
  | succ n ih =>
    refine keeps_bind keeps_get fun _ => keeps_elim (keeps_pure _) fun slot _ => ?_
    split_ifs with hblocked
    · exact ih _
    · refine keeps_iff.2 fun s h => ?_
      refine wp_seq (wp_drainGroup_mirrored hr (by simpa using hblocked) turns h) ?_
      rintro _ s₁ ⟨h₁, hempty⟩
      rw [wp_bind, wp_modify]
      exact keeps_iff.1 (ih _) _ (h₁.same (same_deleted hempty))

/-- What is listed goes to the group that is not sorted yet. -/
theorem Mirrored.fetch (h : Mirrored name s₀ a₀ s) (hobs : s'.obsoletedEntries.values = [])
    (hfreed : s'.freed = s.freed) (hgroup : ∀ k, (s'.group k).values =
      if k = invalidTs then (s.group invalidTs).values ++ s.obsoletedEntries.values
      else (s.group k).values) : Mirrored name s₀ a₀ s' := by
  obtain ⟨a, h⟩ := h
  have hact : Collects a .gcFetch := trivial
  refine ⟨_, h.step hact rfl (fun e he => ?_) ⟨?_, fun k => ?_⟩ ⟨[], hfreed, rfl, by simp⟩ rfl rfl⟩
  · simp only [mem_waiting, hgroup, hobs] at he ⊢
    rcases he with he | ⟨k, hk⟩
    · cases he
    · split_ifs at hk
      · exact (List.mem_append.1 hk).symm.imp_right fun hk => ⟨invalidTs, hk⟩
      · exact .inr ⟨k, hk⟩
  · rw [hobs]
    rfl
  · rw [hgroup]
    simp only [Lifetimes.State.fetch, Function.update_apply, h.stands.groups, h.stands.obsoleted]
    split_ifs
    · rw [List.map_append]
    · rfl

/-- Step 0 is a fetch. -/
theorem keeps_takeObsoleted_mirrored : Keeps (Mirrored name s₀ a₀) (takeObsoleted env) := by
  refine keeps_iff.2 fun s h => ?_
  rw [takeObsoleted]
  refine wp_seq (wp_mono (wp_gcGetBlockedEntries env s invalidTs) (fun _ _ h => h) fun e s₁ hs =>
    h.same hs.2.same) ?_
  rintro stack s₁ ⟨rfl, n, rfl⟩
  have hsame := (same_ensured s invalidTs).trans (Spent.same ⟨n, rfl⟩)
  rw [wp_bind, wp_get]
  refine wp_seq (wp_mono (wp_stackPushAll env _ (s.group invalidTs) s.obsoletedEntries)
    (fun _ _ h => h) fun e s₂ hs => h.same (hsame.trans hs.2.same)) ?_
  rintro stack s₂ ⟨hstack, m, rfl⟩
  rw [wp_modify]
  refine h.fetch rfl rfl fun k => ?_
  split_ifs with hk
  · rw [hk, ← hstack]
    exact congrArg Stack.values (group_setGroup_self invalidTs stack)
  · exact congrArg Stack.values ((group_setGroup_of_ne stack hk).trans (group_setGroup_of_ne _ hk))

/-- **A run of the collector is made of its steps**, whether it fails or not. -/
theorem keeps_gcCheckpoints_mirrored (hr : Reads env name s₀ a₀ latest) (turns : ℕ) :
    Keeps (Mirrored name s₀ a₀) (gcCheckpoints env turns) := by
  have hspent : ∀ {α : Type} {m : Call State Halt α} {P : State → α → Prop},
      (∀ s, m.wp (fun v s' => P s v ∧ Spent s s') (NoMemory s) s) →
        Keeps (Mirrored name s₀ a₀) m := fun hm =>
    keeps_iff.2 fun s h => wp_mono (hm s) (fun _ _ hs => h.same hs.2.same) fun _ _ hs =>
      h.same hs.2.same
  refine keeps_bind (keeps_modify fun _ h => h.same ⟨rfl, fun _ => rfl, rfl⟩) fun _ =>
    keeps_bind (keeps_require _ _) fun _ => keeps_bind (keeps_require _ _) fun _ =>
      keeps_bind keeps_takeObsoleted_mirrored fun _ => keeps_bind keeps_get fun _ => ?_
  split_ifs
  · exact keeps_pure _
  · exact keeps_bind (hspent (wp_newStack env)) fun versions =>
      keeps_bind (hspent fun s => wp_getCheckedOutVersions env s env.checkedOut versions) fun _ =>
        keeps_bind (keeps_gcGroups_mirrored hr _ _ _) fun _ => keeps_bind keeps_get fun _ =>
          keeps_pure _

/-! ### What that is good for -/

/-- Steps of the collector are steps. -/
theorem Mirrors.reachable (h : Mirrors name s₀ a₀ s a) (ha : Lifetimes.machine.Reachable a₀) :
    Lifetimes.machine.Reachable a :=
  Machine.ReachableWith.trans ha (h.runs.mono fun _ _ _ => trivial)

/-- No page that the published checkpoint or a checked out one leads to is dead. -/
theorem not_dead_of_reaches (hr : Reads env name s₀ a₀ latest)
    (ha : Lifetimes.machine.Reachable a₀) (hwaits : entry ∈ s₀.waiting) {page : ℕ}
    (hpage : name entry = .page page) {cp : Cp} (hcp : cp ∈ a₀.published)
    (huse : latest ≤ cp.cpTs ∨ (cp.cpTs : Ts) ∈ env.checkedOut)
    (hreach : Lifetimes.Reaches a₀.heap cp.root page) : ¬dead env entry = true := by
  have hinv : Lifetimes.Inv a₀ := ha.invariant (I := fun a => Lifetimes.Inv a)
    (fun _ h => Lifetimes.Init.inv h) fun _ _ _ _ h hstep => h.step hstep
  obtain ⟨hstart, hstop⟩ := hinv.bracketed.lifetime cp hcp page hreach
  intro hdead
  obtain ⟨a, b, hlife, hle, hno⟩ := dead_iff.1 hdead
  rw [hr.lifetime entry hwaits, hpage] at hlife
  obtain ⟨rfl, rfl⟩ := Prod.mk.inj (Option.some.inj hlife)
  rcases huse with hlatest | hreader
  · rw [hr.snapshot] at hle
    exact absurd (hstop.trans_le hle) (not_lt.2 (by exact_mod_cast hlatest))
  · exact hno _ hreader ⟨by exact_mod_cast hstart, hstop⟩

/-- **A run of the collector refines its steps, and spares what is in use.**  Whichever
allocations fail, the run takes the stacks to those of a state that is reached by steps of the
collector, and frees no page that the published checkpoint or a checked out one leads to. -/
theorem run_refines (ha : Lifetimes.machine.Reachable a) (hstands : Stands name s a)
    (hr : Reads env name s a latest) (turns : ℕ) : ∃ a' freed,
      Lifetimes.machine.RunsWith Collects a a' ∧ Lifetimes.machine.Reachable a' ∧
      Stands name ((gcCheckpoints env turns).after s) a' ∧
      ((gcCheckpoints env turns).after s).freed = freed ++ s.freed ∧
      a'.freed = freed.map name ++ a.freed ∧
      ∀ page, .page page ∈ freed.map name → ∀ cp ∈ a.published,
        latest ≤ cp.cpTs ∨ (cp.cpTs : Ts) ∈ env.checkedOut →
          ¬Lifetimes.Reaches a.heap cp.root page := by
  obtain ⟨a', h⟩ := keeps_gcCheckpoints_mirrored hr turns s ⟨a, .start hstands⟩
  obtain ⟨freed, hfreed, hfreed', hwaits⟩ := h.freed
  have hnone : OnlyDead env s s := ⟨[], rfl, by simp⟩
  obtain ⟨freed₁, hfreed₁, hdead⟩ := keeps_gcCheckpoints turns s hnone
  obtain rfl := List.append_cancel_right (hfreed.symm.trans hfreed₁)
  refine ⟨a', freed, h.runs, h.reachable ha, h.stands, hfreed, hfreed', ?_⟩
  intro page hpage cp hcp huse hreach
  obtain ⟨entry, he, hname⟩ := List.mem_map.1 hpage
  exact not_dead_of_reaches hr ha (hwaits entry he) hname hcp huse hreach (hdead entry he)

/-- A commit and a checkpoint. -/
def oneCheckpoint : List Lifetimes.Act :=
  [.commit false [⟨1, 8, 0, 0, 7⟩],
    .makeCheckpoint ⟨none, ⟨fun _ => false, fun _ => false⟩, none, none⟩]

/-- The inode of the first checkpoint, that was replaced at `1`. -/
def firstInode : Env := { onePage with latestSnapshot := 1, iinfo := fun _ => some (0, 1) }

/-- It is listed. -/
def firstListed : State := { listed with obsoletedEntries := ⟨[8 + gcEntryInode], 4⟩ }

theorem run_refines_firstListed : ∃ a, ∃ a' freed,
    Lifetimes.machine.RunsWith Collects a a' ∧ Lifetimes.machine.Reachable a' ∧
      Stands (fun _ => .inode 0) ((gcCheckpoints firstInode 4).after firstListed) a' ∧
      ((gcCheckpoints firstInode 4).after firstListed).freed = freed ++ firstListed.freed ∧
      a'.freed = freed.map (fun _ => .inode 0) ++ a.freed ∧
      ∀ page, .page page ∈ freed.map (fun _ => GcEntry.inode 0) → ∀ cp ∈ a.published,
        1 ≤ cp.cpTs ∨ (cp.cpTs : Ts) ∈ firstInode.checkedOut →
          ¬Lifetimes.Reaches a.heap cp.root page := by
  have hrun : (Lifetimes.machine.run (fun _ _ => true) Lifetimes.mounted oneCheckpoint).map
      (fun a => (a.obsoletedEntries, Lifetimes.gcEntryToLifetime a (.inode 0), a.latest.cpTs)) =
        some ([.inode 0], some (0, ((1 : ℕ) : Ts)), 1) := by decide +kernel
  have hblocked : (Lifetimes.machine.run (fun _ _ => true) Lifetimes.mounted oneCheckpoint).map
      (fun a => a.gcBlockedEntries) = some fun _ => [] := by rfl
  obtain ⟨a, ha, hrun⟩ := Option.map_eq_some_iff.1 hrun
  obtain ⟨hobs, hlife, hlatest⟩ : a.obsoletedEntries = [.inode 0] ∧
      Lifetimes.gcEntryToLifetime a (.inode 0) = some (0, ((1 : ℕ) : Ts)) ∧ a.latest.cpTs = 1 := by
    simpa only [Prod.mk.injEq] using hrun
  rw [ha] at hblocked
  have hgroups : a.gcBlockedEntries = fun _ => [] := Option.some.inj hblocked
  have hreach : Lifetimes.machine.Reachable a :=
    Machine.ReachableWith.run (fun _ _ _ => trivial) (.init ⟨rfl, rfl, rfl, fun _ => rfl, rfl⟩) ha
  have hstands : Stands (fun _ => .inode 0) firstListed a :=
    ⟨hobs, fun g => by rw [hgroups]; rfl⟩
  refine ⟨a, run_refines hreach hstands ⟨rfl, hlatest.ge, fun entry he => ?_⟩ 4⟩
  obtain rfl : entry = 8 + gcEntryInode := by
    simpa [mem_waiting, firstListed, State.group, listed, RadixTree.lookup_empty] using he
  rw [hlife]
  rfl

end Gc
end Sivfs
