/-
# Lifetimes of pages

The machine of commits, attempts to make a checkpoint (`sivfs_make_checkpoint`) and
runs of the collector (`sivfs_gc_checkpoints`), with the trees of all checkpoints,
`obsoleted_ts` of their pages, `obsoleted_entries` and the stacks of
`gc_blocked_entries`.  A page is named by its allocation and keeps its name when it is
freed.

| step | stacks |
| --- | --- |
| an attempt that succeeds | `obsoleted_pages` and the prior inode go to `obsoleted_entries` |
| an attempt that fails | none, but pages stay stamped |
| `gcFetch` | `obsoleted_entries` go to the stack of `SIVFS_INVALID_TS` |
| `gcSweep` | the top of a stack is freed or goes to another stack |

A run of the collector is a `gcFetch` and any number of `gcSweep`, up to where it
ends or gives up, while commits and attempts go on; the versions it finds checked out
are arbitrary.

`lifetimes_bracketed` says that lifetimes bracket reachability and that every obsolete page is
on one stack, once.
-/

import Sivfs.Checkpoint.Ledger
import Sivfs.Checkout.Machine

open PathCopy

namespace Sivfs
namespace Checkpoint
namespace Lifetimes

open Checkout (GcEntry reassignTo stillBlocked)

/-! ### The machine -/

/-- The shared state with every checkpoint and the stacks of the collector. -/
structure State extends Shared where
  /-- The checkpoints that were published; an inode is named by its place. -/
  published : List Cp
  /-- `obsoleted_ts` of the inodes. -/
  cpObsoletedTs : ℕ → Ts
  obsoletedEntries : List GcEntry
  gcBlockedEntries : Ts → List GcEntry
  /-- What `sivfs_gc_free_entry` was called on. -/
  freed : List GcEntry

/-- What happens. -/
inductive Act where
  /-- A commit, aborted or not, whose write-set the kernel has tagged. -/
  | commit (aborted : Bool) (ws : List WsEntry)
  | makeCheckpoint (faults : MakeFaults)
  | gcFetch
  /-- `sivfs_gc_or_reassign_entry` on the top of group `g`, with `latest_snapshot` as
  it was read. -/
  | gcSweep (latest : ℕ) (seen : List Ts) (g : Ts)

/-- `sivfs_make_checkpoint` after the pages are built. -/
def insertCheckpoint (faults : MakeFaults) (s : State) (b : Build) : State :=
  match faults.insert with
  | some _ => { s with heap := b.heap }
  | none =>
    let prior := s.published.length - 1
    let cpObsoletedTs := Function.update s.cpObsoletedTs prior (s.masterTs : Ts)
    match faults.mark with
    | some _ => { s with heap := b.heap, cpObsoletedTs := cpObsoletedTs }
    | none => { s with
        heap := b.heap
        cpObsoletedTs := cpObsoletedTs
        obsoletedEntries :=
          s.obsoletedEntries ++ b.obsoletedPages.reverse.map .page ++ [.inode prior]
        latest := ⟨b.root, s.masterTs⟩
        published := s.published ++ [⟨b.root, s.masterTs⟩] }

/-- `sivfs_make_checkpoint`. -/
def makeCheckpoint (faults : MakeFaults) (s : State) : State :=
  if s.masterTs = s.latest.cpTs then s
  else
    match faults.setup with
    | some _ => s
    | none =>
      match applyLog faults.pages s.log s.latest.cpTs s.masterTs ⟨s.heap, s.latest.root, []⟩ with
      | (b, .error _) => { s with heap := b.heap }
      | (b, .ok ()) => insertCheckpoint faults s b

/-- `sivfs_gc_entry_to_lifetime`. -/
def gcEntryToLifetime (s : State) : GcEntry → Option (ℕ × Ts)
  | .page p => some ((s.heap.page p).checkpointTs, s.heap.obsoletedTs p)
  | .inode c => (s.published[c]?).map fun cp => (cp.cpTs, s.cpObsoletedTs c)

/-- `sivfs_stack_push` on group `g`. -/
def State.push (s : State) (g : Ts) (e : GcEntry) : State :=
  { s with gcBlockedEntries :=
      Function.update s.gcBlockedEntries g (s.gcBlockedEntries g ++ [e]) }

/-- `sivfs_stack_pop` of group `g`. -/
def State.pop (s : State) (g : Ts) : State :=
  { s with gcBlockedEntries :=
      Function.update s.gcBlockedEntries g (s.gcBlockedEntries g).dropLast }

/-- `sivfs_stack_push_all` of `obsoleted_entries` on the group that is not sorted yet. -/
def State.fetch (s : State) : State :=
  { s with
    gcBlockedEntries := Function.update s.gcBlockedEntries invalidTs
      (s.gcBlockedEntries invalidTs ++ s.obsoletedEntries)
    obsoletedEntries := [] }

/-- The top entry `e` of group `g` is freed, or pushed to group `r` and popped. -/
def reassign (s : State) (g r : Ts) (e : GcEntry) : State :=
  if r = invalidTs then State.pop { s with freed := e :: s.freed } g else (s.push r e).pop g

/-- One step. -/
def step (s : State) : Act → Option State
  | .commit aborted ws =>
    if ∀ ent ∈ ws, ent.fileOffset % wordBytes = 0 then
      some { s with
        log := s.log ++ [⟨s.masterTs + 1, aborted, ws⟩]
        masterTs := s.masterTs + 1 }
    else none
  | .makeCheckpoint faults => some (makeCheckpoint faults s)
  | .gcFetch => some s.fetch
  | .gcSweep latest seen g =>
    if s.latest.cpTs < latest ∨ stillBlocked latest seen g then none
    else
      match (s.gcBlockedEntries g).getLast? with
      | none => none
      | some e =>
        (gcEntryToLifetime s e).map fun lifetime =>
          reassign s g (reassignTo latest seen lifetime.1 lifetime.2) e

/-- After mounting: an empty checkpoint at time `0`, and empty stacks. -/
def Init (s : State) : Prop :=
  s.toShared = ⟨[], 0, ⟨0, fun _ => blankPage⟩, ⟨none, 0⟩⟩ ∧ s.published = [⟨none, 0⟩] ∧
    s.obsoletedEntries = [] ∧ (∀ g, s.gcBlockedEntries g = []) ∧ s.freed = []

/-- Commits, attempts to make a checkpoint, and the collector. -/
def machine : Machine State Act where
  init := Init
  step := step

/-- Attempts are those of the machine without the collector. -/
theorem makeCheckpoint_toShared (faults : MakeFaults) (s : State) :
    (makeCheckpoint faults s).toShared = (Checkpoint.makeCheckpoint faults s.toShared).1 := by
  rw [makeCheckpoint, Checkpoint.makeCheckpoint]
  split_ifs
  · rfl
  · cases faults.setup with
    | some e => rfl
    | none =>
      rcases applyLog faults.pages s.log s.latest.cpTs s.masterTs ⟨s.heap, s.latest.root, []⟩ with
        ⟨b, e | ⟨⟩⟩
      · rfl
      · simp only [insertCheckpoint]
        cases faults.insert with
        | some e => rfl
        | none => cases faults.mark <;> rfl

/-! ### Lifetimes and stacks -/

/-- Page `id` is in the tree. -/
def Reaches (h : Heap) (root : Option Ref) (id : ℕ) : Prop := ∃ ρ, At h root ρ id

/-- The stacks: `obsoleted_entries` and the groups. -/
def State.stackAt (s : State) : Option Ts → List GcEntry
  | none => s.obsoletedEntries
  | some g => s.gcBlockedEntries g

/-- An entry is on one stack, once. -/
def Once (stack : Option Ts → List GcEntry) (e : GcEntry) : Prop :=
  ∃ k, (stack k).count e = 1 ∧ ∀ k', k' ≠ k → e ∉ stack k'

/-- Lifetimes bracket reachability, and obsolete pages are tracked exactly once. -/
structure Bracketed (s : State) : Prop where
  lifetime : ∀ cp ∈ s.published, ∀ id, Reaches s.heap cp.root id →
    (s.heap.page id).checkpointTs ≤ cp.cpTs ∧ (cp.cpTs : Ts) < s.heap.obsoletedTs id
  once : ∀ id, (∃ cp ∈ s.published, Reaches s.heap cp.root id) →
    ¬Reaches s.heap s.latest.root id → .page id ∉ s.freed → Once s.stackAt (.page id)
  latest : ∀ id, Reaches s.heap s.latest.root id → ∀ k, .page id ∉ s.stackAt k

/-! ### The invariant -/

/-- A change since the latest checkpoint is to be made below page `id`. -/
def Due (s : State) (id : ℕ) : Prop :=
  OnPath s.heap s.latest.root (liveEntries (s.log.drop s.latest.cpTs)) id

/-- What every step keeps.  A page that is stamped in vain is due, so that the next
checkpoint will not lead to it. -/
structure Inv (s : State) : Prop where
  shared : SharedOk s.toShared
  cps : ∀ cp ∈ s.published, CpOk s.toShared cp ∧ cp.cpTs ≤ s.latest.cpTs
  latest : s.latest ∈ s.published
  home : ∃ home : ℕ → List ℕ, ∀ cp ∈ s.published, ∀ ρ id, At s.heap cp.root ρ id → home id = ρ
  gone : ∀ cp ∈ s.published, ∀ id, Reaches s.heap cp.root id → ¬Reaches s.heap s.latest.root id →
    (cp.cpTs : Ts) < s.heap.obsoletedTs id
  live : ∀ id, Reaches s.heap s.latest.root id → s.heap.obsoletedTs id = invalidTs ∨
    ((s.latest.cpTs : Ts) < s.heap.obsoletedTs id ∧ Due s id)
  listed : ∀ id k, .page id ∈ s.stackAt k →
    id < s.heap.next ∧ ¬Reaches s.heap s.latest.root id
  once : ∀ id, (∃ cp ∈ s.published, Reaches s.heap cp.root id) →
    ¬Reaches s.heap s.latest.root id → .page id ∉ s.freed → Once s.stackAt (.page id)

section Steps

variable {s s' : State}

/-- The pages of a checkpoint exist. -/
theorem CpOk.at_lt {s : Shared} {cp : Cp} (h : CpOk s cp) (hok : HeapOk s.heap) {ρ : List ℕ}
    {id : ℕ} (hat : At s.heap cp.root ρ id) : id < s.heap.next :=
  follow_mem hok.closed (fun r hr => (h.root r hr).1) ρ _ hat

/-- The pages of a checkpoint are not younger than it. -/
theorem CpOk.at_ts {s : Shared} {cp : Cp} (h : CpOk s cp) (hok : HeapOk s.heap) {ρ : List ℕ}
    {id : ℕ} (hat : At s.heap cp.root ρ id) : (s.heap.page id).checkpointTs ≤ cp.cpTs :=
  follow_mem (p := fun r => s.heap.checkpointTs r ≤ cp.cpTs)
    (fun r k c hr hc => (hok.mono r k c hc).trans hr) (fun r hr => (h.root r hr).2.2) ρ _ hat

/-- An attempt moves no page of a checkpoint. -/
theorem CpOk.at_iff {s : Shared} {cp : Cp} (h : CpOk s cp) (hok : HeapOk s.heap) {heap : Heap}
    (hf : Frozen s.heap.next s.heap heap) {ρ : List ℕ} {id : ℕ} :
    At heap cp.root ρ id ↔ At s.heap cp.root ρ id := by
  rw [At, At, hf.follow hok.closed fun r hr => (h.root r hr).1]

theorem Inv.prior (h : Inv s) : Prior s.heap.next s.heap s.latest.root := by
  refine ⟨fun ρ id hat => CpOk.at_lt h.shared.latest h.shared.heap hat,
    fun ρ ρ' id hat hat' => ?_⟩
  obtain ⟨home, hhome⟩ := h.home
  rw [← hhome _ h.latest ρ id hat, ← hhome _ h.latest ρ' id hat']

/-- Lifetimes bracket reachability. -/
theorem Inv.bracketed (h : Inv s) : Bracketed s := by
  refine ⟨fun cp hcp id hid => ⟨?_, ?_⟩, h.once, fun id hid k hk => (h.listed id k hk).2 hid⟩
  · obtain ⟨ρ, hat⟩ := hid
    exact CpOk.at_ts (h.cps cp hcp).1 h.shared.heap hat
  · by_cases hlive : Reaches s.heap s.latest.root id
    · have hle : (cp.cpTs : Ts) ≤ s.latest.cpTs := WithTop.coe_le_coe.2 (h.cps cp hcp).2
      rcases h.live id hlive with hinv | ⟨hlt, -⟩
      · rw [hinv]
        exact WithTop.coe_lt_top _
      · exact hle.trans_lt hlt
    · exact h.gone cp hcp id hid hlive

/-- A commit. -/
theorem Inv.commit (h : Inv s) (l : LogEntry) (hl : l.ts = s.masterTs + 1) :
    Inv { s with log := s.log ++ [l], masterTs := s.masterTs + 1 } := by
  have hlen := h.shared.masterTs
  have hle := h.shared.latest.le
  refine ⟨⟨h.shared.log.append (by omega), ?_, h.shared.heap, h.shared.latest.commit l hl⟩,
    fun cp hcp => ⟨(h.cps cp hcp).1.commit l hl, (h.cps cp hcp).2⟩, h.latest, h.home, h.gone,
    fun id hid => (h.live id hid).imp_right fun hdue => ⟨hdue.1, hdue.2.mono fun ent hent => ?_⟩,
    h.listed, h.once⟩
  · show s.masterTs + 1 = (s.log ++ [l]).length
    rw [List.length_append, List.length_singleton, hlen]
  · show ent ∈ liveEntries ((s.log ++ [l]).drop s.latest.cpTs)
    rw [List.drop_append_of_le_length (by omega), liveEntries, List.filter_append,
      List.flatMap_append]
    exact List.mem_append_left _ hent

/-- An attempt that fails. -/
theorem Inv.fail (h : Inv s) {heap : Heap} {cpObsoletedTs : ℕ → Ts}
    (hne : s.masterTs ≠ s.latest.cpTs) (hok : HeapOk heap)
    (hf : Frozen s.heap.next s.heap heap)
    (hst : Stamps s.heap.next s.masterTs s.heap s.latest.root
      (liveEntries (s.log.drop s.latest.cpTs)) heap) :
    Inv { s with heap := heap, cpObsoletedTs := cpObsoletedTs } := by
  have hat : ∀ cp ∈ s.published, ∀ {ρ id}, At heap cp.root ρ id ↔ At s.heap cp.root ρ id :=
    fun cp hcp _ _ => CpOk.at_iff (h.cps cp hcp).1 h.shared.heap hf
  have hreach : ∀ cp ∈ s.published, ∀ id, Reaches heap cp.root id ↔ Reaches s.heap cp.root id :=
    fun cp hcp id => exists_congr fun ρ => hat cp hcp
  have hlt : ∀ cp ∈ s.published, ∀ id, Reaches s.heap cp.root id → id < s.heap.next :=
    fun cp hcp id ⟨ρ, hρ⟩ => CpOk.at_lt (h.cps cp hcp).1 h.shared.heap hρ
  obtain ⟨home, hhome⟩ := h.home
  refine ⟨⟨h.shared.log, h.shared.masterTs, hok, h.shared.latest.frozen h.shared.heap hf _⟩,
    fun cp hcp => ⟨(h.cps cp hcp).1.frozen h.shared.heap hf _, (h.cps cp hcp).2⟩, h.latest,
    ⟨home, fun cp hcp ρ id hρ => hhome cp hcp ρ id ((hat cp hcp).1 hρ)⟩,
    fun cp hcp id hid hno => ?_, fun id hid => ?_, fun id k hk => ?_, fun id hid hno hfree => ?_⟩
  · replace hid := (hreach cp hcp id).1 hid
    replace hno := fun hl => hno ((hreach _ h.latest id).2 hl)
    rcases hst id (hlt cp hcp id hid) with heq | ⟨-, ent, -, ρ, -, hρ⟩
    · show (cp.cpTs : Ts) < heap.obsoletedTs id
      rw [heq]
      exact h.gone cp hcp id hid hno
    · exact absurd ⟨ρ, hρ⟩ hno
  · replace hid := (hreach _ h.latest id).1 hid
    have hdue : ∀ {id}, OnPath s.heap s.latest.root (liveEntries (s.log.drop s.latest.cpTs)) id →
        OnPath heap s.latest.root (liveEntries (s.log.drop s.latest.cpTs)) id :=
      fun ⟨ent, hent, ρ, hpre, hρ⟩ => ⟨ent, hent, ρ, hpre, (hat _ h.latest).2 hρ⟩
    show heap.obsoletedTs id = invalidTs ∨ (s.latest.cpTs : Ts) < heap.obsoletedTs id ∧ _
    rcases hst id (hlt _ h.latest id hid) with heq | ⟨heq, hon⟩
    · rw [heq]
      exact (h.live id hid).imp_right fun hd => ⟨hd.1, hdue hd.2⟩
    · rw [heq]
      refine .inr ⟨WithTop.coe_lt_coe.2 ?_, hdue hon⟩
      exact lt_of_le_of_ne h.shared.latest.le (Ne.symm hne)
  · obtain ⟨hid, hno⟩ := h.listed id k hk
    exact ⟨hid.trans_le hf.next_le, fun hl => hno ((hreach _ h.latest id).1 hl)⟩
  · obtain ⟨cp, hcp, hid⟩ := hid
    exact h.once id ⟨cp, hcp, (hreach cp hcp id).1 hid⟩
      (fun hl => hno ((hreach _ h.latest id).2 hl)) hfree

/-- Where the pages of an attempt that succeeds come from. -/
theorem Inv.succeed_cases (h : Inv s) {ents : List WsEntry} {b : Build}
    (hb : Applied s.heap.next s.masterTs (· < s.masterTs) s.heap s.latest.root ents b) {ρ : List ℕ}
    {id : ℕ} (hat : At b.heap b.root ρ id) :
    s.heap.next ≤ id ∨ (At s.heap s.latest.root ρ id ∧ id ∉ b.obsoletedPages) := by
  rcases Nat.lt_or_ge id s.heap.next with hid | hid
  · have hold := hb.ledger.old ρ id hid hat
    refine .inr ⟨hold, fun hmem => ?_⟩
    obtain ⟨ρ', hat', hno⟩ := (hb.ledger.mem id).1 hmem
    obtain rfl := h.prior.sole ρ' ρ id hat' hold
    exact hno hat
  · exact .inl hid

/-- A page that is replaced was in the latest checkpoint and is not in the new one. -/
theorem Inv.obsoleted_iff (h : Inv s) {ents : List WsEntry} {b : Build}
    (hb : Applied s.heap.next s.masterTs (· < s.masterTs) s.heap s.latest.root ents b) {id : ℕ} :
    id ∈ b.obsoletedPages ↔ Reaches s.heap s.latest.root id ∧ ¬Reaches b.heap b.root id := by
  constructor
  · intro hmem
    obtain ⟨ρ, hat, -⟩ := (hb.ledger.mem id).1 hmem
    refine ⟨⟨ρ, hat⟩, fun ⟨ρ', hat'⟩ => ?_⟩
    rcases h.succeed_cases hb hat' with hge | ⟨-, hno⟩
    · exact absurd (h.prior.below ρ id hat) (not_lt.2 hge)
    · exact hno hmem
  · rintro ⟨⟨ρ, hat⟩, hno⟩
    exact (hb.ledger.mem id).2 ⟨ρ, hat, fun hat' => hno ⟨ρ, hat'⟩⟩

/-- The stacks after an attempt that succeeds. -/
theorem Inv.once_push (h : Inv s) {ids : List ℕ} {prior id : ℕ} {s' : State}
    (hobs : s'.obsoletedEntries =
      s.obsoletedEntries ++ ids.reverse.map .page ++ [.inode prior])
    (hgc : s'.gcBlockedEntries = s.gcBlockedEntries) (hnodup : ids.Nodup)
    (hids : ∀ id ∈ ids, Reaches s.heap s.latest.root id)
    (hid : id ∉ ids → Once s.stackAt (.page id)) : Once s'.stackAt (.page id) := by
  have hother : ∀ g, s'.stackAt (some g) = s.stackAt (some g) := fun g => congrFun hgc g
  have hcount : (s'.stackAt none).count (.page id) =
      (s.stackAt none).count (.page id) + ids.count id := by
    show s'.obsoletedEntries.count _ = s.obsoletedEntries.count _ + _
    rw [hobs, List.count_append, List.count_append,
      List.count_map_of_injective _ _ (fun a b hab => GcEntry.page.inj hab), List.count_reverse]
    simp
  by_cases hmem : id ∈ ids
  · have hnone : ∀ k, .page id ∉ s.stackAt k := fun k hk => (h.listed id k hk).2 (hids id hmem)
    refine ⟨none, ?_, fun k hk => ?_⟩
    · rw [hcount, List.count_eq_zero_of_not_mem (hnone none), hnodup.count, if_pos hmem]
    · cases k with
      | none => exact absurd rfl hk
      | some g =>
        rw [hother]
        exact hnone _
  · have hzero : ids.count id = 0 := List.count_eq_zero_of_not_mem hmem
    have hmem_iff : ∀ k, .page id ∈ s'.stackAt k ↔ .page id ∈ s.stackAt k := by
      intro k
      cases k with
      | none => rw [← List.count_pos_iff, ← List.count_pos_iff, hcount, hzero, Nat.add_zero]
      | some g => rw [hother]
    obtain ⟨k, hk, hrest⟩ := hid hmem
    refine ⟨k, ?_, fun k' hk' hin => hrest k' hk' ((hmem_iff k').1 hin)⟩
    cases k with
    | none => rw [hcount, hzero, hk]
    | some g => rw [hother, hk]

/-- An attempt that succeeds. -/
theorem Inv.succeed (h : Inv s) {b : Build} {cpObsoletedTs : ℕ → Ts} {prior : ℕ}
    (hne : s.masterTs ≠ s.latest.cpTs)
    (hok : SharedOk { s.toShared with heap := b.heap, latest := ⟨b.root, s.masterTs⟩ })
    (hf : Frozen s.heap.next s.heap b.heap)
    (hb : Applied s.heap.next s.masterTs (· < s.masterTs) s.heap s.latest.root
      (liveEntries (s.log.drop s.latest.cpTs)) b) :
    Inv { s with
      heap := b.heap
      cpObsoletedTs := cpObsoletedTs
      obsoletedEntries :=
        s.obsoletedEntries ++ b.obsoletedPages.reverse.map .page ++ [.inode prior]
      latest := ⟨b.root, s.masterTs⟩
      published := s.published ++ [⟨b.root, s.masterTs⟩] } := by
  have hlt : s.latest.cpTs < s.masterTs := lt_of_le_of_ne h.shared.latest.le (Ne.symm hne)
  have hat : ∀ cp ∈ s.published, ∀ {ρ id}, At b.heap cp.root ρ id ↔ At s.heap cp.root ρ id :=
    fun cp hcp _ _ => CpOk.at_iff (h.cps cp hcp).1 h.shared.heap hf
  have hreach : ∀ cp ∈ s.published, ∀ id, Reaches b.heap cp.root id ↔ Reaches s.heap cp.root id :=
    fun cp hcp id => exists_congr fun ρ => hat cp hcp
  have hbelow : ∀ cp ∈ s.published, ∀ id, Reaches s.heap cp.root id → id < s.heap.next :=
    fun cp hcp id ⟨ρ, hρ⟩ => CpOk.at_lt (h.cps cp hcp).1 h.shared.heap hρ
  have hnew : ∀ id, id < s.heap.next → ¬Reaches s.heap s.latest.root id →
      ¬Reaches b.heap b.root id := by
    rintro id hid hno ⟨ρ, hρ⟩
    exact hno ⟨ρ, hb.ledger.old ρ id hid hρ⟩
  have hstamp : ∀ id < s.heap.next, id ∉ b.obsoletedPages →
      b.heap.obsoletedTs id = s.heap.obsoletedTs id := fun id hid hmem => by
    rw [hb.ledger.stamped id hid, if_neg hmem]
  obtain ⟨home, hhome⟩ := h.home
  obtain ⟨label, hbuild⟩ := hb.building
  refine ⟨hok, fun cp hcp => ?_, List.mem_append_right _ (List.mem_singleton_self _),
    ⟨fun id => if id < s.heap.next then home id else label (.page id), fun cp hcp ρ id hρ => ?_⟩,
    fun cp hcp id hid hno => ?_, fun id hid => ?_, fun id k hk => ?_, fun id hid hno hfree => ?_⟩
  · rcases List.mem_append.1 hcp with hcp | hcp
    · exact ⟨(h.cps cp hcp).1.frozen h.shared.heap hf _, (h.cps cp hcp).2.trans hlt.le⟩
    · obtain rfl := List.mem_singleton.1 hcp
      exact ⟨hok.latest, le_rfl⟩
  · show (if id < s.heap.next then home id else label (.page id)) = ρ
    rcases List.mem_append.1 hcp with hcp | hcp
    · have hρ' := (hat cp hcp).1 hρ
      rw [if_pos (hbelow cp hcp id ⟨ρ, hρ'⟩)]
      exact hhome cp hcp ρ id hρ'
    · obtain rfl := List.mem_singleton.1 hcp
      rcases h.succeed_cases hb hρ with hge | ⟨hold, -⟩
      · rw [if_neg (not_lt.2 hge)]
        exact hbuild.labelled.eq_of_follow hρ hge
      · rw [if_pos (h.prior.below ρ id hold)]
        exact hhome _ h.latest ρ id hold
  · show (cp.cpTs : Ts) < b.heap.obsoletedTs id
    rcases List.mem_append.1 hcp with hcp | hcp
    · replace hid := (hreach cp hcp id).1 hid
      have hid' := hbelow cp hcp id hid
      by_cases hl : Reaches s.heap s.latest.root id
      · rw [hb.ledger.stamped id hid', if_pos ((h.obsoleted_iff hb).2 ⟨hl, hno⟩)]
        exact WithTop.coe_lt_coe.2 ((h.cps cp hcp).2.trans_lt hlt)
      · rw [hstamp id hid' fun hmem => hl ((h.obsoleted_iff hb).1 hmem).1]
        exact h.gone cp hcp id hid hl
    · obtain rfl := List.mem_singleton.1 hcp
      exact absurd hid hno
  · obtain ⟨ρ, hρ⟩ := hid
    left
    show b.heap.obsoletedTs id = invalidTs
    rcases h.succeed_cases hb hρ with hge | ⟨hold, hmem⟩
    · exact hb.ledger.own id hge (CpOk.at_lt hok.latest hok.heap hρ)
    · rw [hstamp id (h.prior.below ρ id hold) hmem]
      rcases h.live id ⟨ρ, hold⟩ with hinv | ⟨-, ent, hent, ρ', hpre, hρ'⟩
      · exact hinv
      · obtain rfl := h.prior.sole ρ' ρ id hρ' hold
        obtain ⟨j, hj, hjρ⟩ := hb.covered ent hent ρ' hpre
        obtain rfl : j = id := by simpa using hjρ.symm.trans hρ
        exact absurd (h.prior.below ρ' j hold) (not_lt.2 hj)
  · show id < b.heap.next ∧ ¬Reaches b.heap b.root id
    have hold : .page id ∈ s.stackAt k → id < b.heap.next ∧ ¬Reaches b.heap b.root id := by
      intro hk
      obtain ⟨hid, hno⟩ := h.listed id k hk
      exact ⟨hid.trans_le hf.next_le, hnew id hid hno⟩
    cases k with
    | none =>
      have hk' : .page id ∈ s.obsoletedEntries ++ b.obsoletedPages.reverse.map GcEntry.page ++
        [.inode prior] := hk
      simp only [List.mem_append, List.mem_map, List.mem_reverse, List.mem_singleton,
        GcEntry.page.injEq, exists_eq_right, reduceCtorEq, or_false] at hk'
      rcases hk' with hk' | hk'
      · exact hold hk'
      · obtain ⟨⟨ρ, hρ⟩, hno⟩ := (h.obsoleted_iff hb).1 hk'
        exact ⟨(h.prior.below ρ id hρ).trans_le hf.next_le, hno⟩
    | some g => exact hold hk
  · refine h.once_push rfl rfl hb.ledger.nodup (fun j hj => ((h.obsoleted_iff hb).1 hj).1)
      fun hmem => ?_
    obtain ⟨cp, hcp, hid⟩ := hid
    rcases List.mem_append.1 hcp with hcp | hcp
    · replace hid := (hreach cp hcp id).1 hid
      exact h.once id ⟨cp, hcp, hid⟩ (fun hl => hmem ((h.obsoleted_iff hb).2 ⟨hl, hno⟩)) hfree
    · obtain rfl := List.mem_singleton.1 hcp
      exact absurd hid hno

/-- How an attempt ends. -/
inductive Makes (s : State) : State → Prop where
  | nothing : Makes s s
  | fail {heap : Heap} {cpObsoletedTs : ℕ → Ts} : s.masterTs ≠ s.latest.cpTs → HeapOk heap →
      Frozen s.heap.next s.heap heap →
      Stamps s.heap.next s.masterTs s.heap s.latest.root
        (liveEntries (s.log.drop s.latest.cpTs)) heap →
      Makes s { s with heap := heap, cpObsoletedTs := cpObsoletedTs }
  | succeed {b : Build} {cpObsoletedTs : ℕ → Ts} {prior : ℕ} : s.masterTs ≠ s.latest.cpTs →
      SharedOk { s.toShared with heap := b.heap, latest := ⟨b.root, s.masterTs⟩ } →
      Frozen s.heap.next s.heap b.heap →
      Applied s.heap.next s.masterTs (· < s.masterTs) s.heap s.latest.root
        (liveEntries (s.log.drop s.latest.cpTs)) b →
      Makes s { s with
        heap := b.heap
        cpObsoletedTs := cpObsoletedTs
        obsoletedEntries :=
          s.obsoletedEntries ++ b.obsoletedPages.reverse.map .page ++ [.inode prior]
        latest := ⟨b.root, s.masterTs⟩
        published := s.published ++ [⟨b.root, s.masterTs⟩] }

/-- **What an attempt does**, successful or not. -/
theorem Inv.makes (h : Inv s) (faults : MakeFaults) : Makes s (makeCheckpoint faults s) := by
  have hshared := (h.shared.makeCheckpoint faults).1
  rw [← makeCheckpoint_toShared] at hshared
  unfold makeCheckpoint at hshared ⊢
  split_ifs at hshared ⊢ with heq
  · exact .nothing
  · cases hsetup : faults.setup with
    | some e => exact .nothing
    | none =>
      have hends := h.shared.applyLog_ends heq faults.pages
      have hset := h.shared.applyLog_settles heq h.prior faults.pages
      simp only [hsetup] at hshared
      rcases hres : applyLog faults.pages s.log s.latest.cpTs s.masterTs
        ⟨s.heap, s.latest.root, []⟩ with ⟨b, e | ⟨⟩⟩
      · rw [hres] at hends hset
        exact .fail heq hends.1 hends.2.1 hset
      · rw [hres] at hends hset
        obtain ⟨⟨label, ha⟩, hf, -⟩ := hends
        simp only [hres] at hshared
        simp only [insertCheckpoint] at hshared ⊢
        cases hins : faults.insert with
        | some e => exact .fail heq ha.ok hf hset.ledger.stamps
        | none =>
          simp only [hins] at hshared
          cases hmark : faults.mark with
          | some e => exact .fail heq ha.ok hf hset.ledger.stamps
          | none =>
            simp only [hmark] at hshared
            exact .succeed heq hshared hf hset

theorem Inv.of_makes (h : Inv s) (hm : Makes s s') : Inv s' := by
  cases hm with
  | nothing => exact h
  | fail hne hok hf hst => exact h.fail hne hok hf hst
  | succeed hne hok hf hb => exact h.succeed hne hok hf hb

/-- The collector moves and frees entries, and nothing else. -/
structure Moves (s s' : State) : Prop where
  shared : s'.toShared = s.toShared
  published : s'.published = s.published
  freed : ∀ e ∈ s.freed, e ∈ s'.freed
  sub : ∀ e k, e ∈ s'.stackAt k → ∃ k, e ∈ s.stackAt k
  once : ∀ e, Once s.stackAt e → e ∉ s'.freed → Once s'.stackAt e

/-- A step of the collector. -/
theorem Inv.moves (h : Inv s) (hm : Moves s s') : Inv s' := by
  have hheap : s'.heap = s.heap := congrArg Shared.heap hm.shared
  have hlatest : s'.latest = s.latest := congrArg Shared.latest hm.shared
  have hlog : s'.log = s.log := congrArg Shared.log hm.shared
  refine ⟨?_, ?_, ?_, ?_, ?_, fun id hid => ?_, fun id k hk => ?_, fun id hid hno hfree => ?_⟩
  · rw [hm.shared]
    exact h.shared
  · rw [hm.published, hm.shared]
    exact h.cps
  · rw [hm.published, hlatest]
    exact h.latest
  · rw [hm.published, hheap]
    exact h.home
  · rw [hm.published, hheap, hlatest]
    exact h.gone
  · rw [hheap, hlatest] at hid
    rw [Due, hheap, hlatest, hlog]
    exact h.live id hid
  · obtain ⟨k, hk⟩ := hm.sub _ k hk
    rw [hheap, hlatest]
    exact h.listed id k hk
  · rw [hm.published, hheap] at hid
    rw [hheap, hlatest] at hno
    exact hm.once _ (h.once id hid hno fun hf => hfree (hm.freed _ hf)) hfree

/-- `obsoleted_entries` are fetched. -/
theorem moves_fetch (s : State) : Moves s s.fetch := by
  have hnone : s.fetch.stackAt none = [] := rfl
  have hinv : s.fetch.stackAt (some invalidTs) = s.stackAt (some invalidTs) ++ s.stackAt none := by
    simp only [State.fetch, State.stackAt, Function.update_self]
  have hother : ∀ g, g ≠ invalidTs → s.fetch.stackAt (some g) = s.stackAt (some g) :=
    fun g hg => by simp only [State.fetch, State.stackAt, Function.update_of_ne hg]
  refine ⟨rfl, rfl, fun e he => he, fun e k he => ?_, fun e honce _ => ?_⟩
  · rcases k with _ | g
    · simp [hnone] at he
    · rcases eq_or_ne g invalidTs with rfl | hg
      · rw [hinv] at he
        rcases List.mem_append.1 he with he | he
        · exact ⟨_, he⟩
        · exact ⟨_, he⟩
      · rw [hother g hg] at he
        exact ⟨_, he⟩
  · obtain ⟨k, hk, hrest⟩ := honce
    have hnil : ∀ {k'}, k' ≠ k → (s.stackAt k').count e = 0 := fun hk' =>
      List.count_eq_zero_of_not_mem (hrest _ hk')
    by_cases hg : ∃ g, k = some g ∧ g ≠ invalidTs
    · obtain ⟨g, rfl, hg⟩ := hg
      refine ⟨some g, by rw [hother g hg, hk], fun k' hk' => ?_⟩
      rcases k' with _ | g'
      · simp [hnone]
      · rcases eq_or_ne g' invalidTs with rfl | hg'
        · rw [hinv, List.mem_append, not_or]
          exact ⟨hrest _ hk', hrest _ (by simp)⟩
        · rw [hother g' hg']
          exact hrest _ hk'
    · refine ⟨some invalidTs, ?_, fun k' hk' => ?_⟩
      · rw [hinv, List.count_append]
        rcases k with _ | g
        · rw [hk, hnil (by simp)]
        · obtain rfl : g = invalidTs := by
            by_contra hne
            exact hg ⟨g, rfl, hne⟩
          rw [hk, hnil (by simp)]
      · rcases k' with _ | g'
        · simp [hnone]
        · have hg' : g' ≠ invalidTs := fun heq => hk' (congrArg some heq)
          rw [hother g' hg']
          refine hrest _ fun heq => hg ⟨g', heq.symm, hg'⟩

/-- An entry that is on top of one stack is moved to another. -/
theorem Once.move {stack stack' : Option Ts → List GcEntry} {g r : Option Ts} {e e' : GcEntry}
    {rest : List GcEntry} (hg : stack g = rest ++ [e]) (hgr : g ≠ r) (hg' : stack' g = rest)
    (hr' : stack' r = stack r ++ [e]) (hother : ∀ k, k ≠ g → k ≠ r → stack' k = stack k)
    (h : Once stack e') : Once stack' e' := by
  obtain ⟨k, hk, hrest⟩ := h
  have hkeep : ∀ k', e' ≠ e → (stack' k').count e' = (stack k').count e' := by
    intro k' hne
    by_cases hk'g : k' = g
    · subst hk'g
      simp [hg', hg, List.count_append, Ne.symm hne]
    · by_cases hk'r : k' = r
      · subst hk'r
        simp [hr', List.count_append, Ne.symm hne]
      · rw [hother k' hk'g hk'r]
  by_cases he : e' = e
  · subst he
    have hkg : k = g := by
      by_contra hne
      exact hrest g (Ne.symm hne) (by simp [hg])
    subst hkg
    have hgone : e' ∉ rest := by
      intro hmem
      have hpos := List.count_pos_iff.2 hmem
      rw [hg, List.count_append, List.count_singleton_self] at hk
      omega
    refine ⟨r, ?_, fun k' hk' => ?_⟩
    · rw [hr', List.count_append, List.count_singleton_self,
        List.count_eq_zero_of_not_mem (hrest r (Ne.symm hgr))]
    · by_cases hk'g : k' = k
      · rw [hk'g, hg']
        exact hgone
      · rw [hother k' hk'g hk']
        exact hrest k' hk'g
  · refine ⟨k, (hkeep k he).trans hk, fun k' hk' => ?_⟩
    rw [← List.count_eq_zero, hkeep k' he, List.count_eq_zero]
    exact hrest k' hk'

theorem push_stackAt (s : State) (r : Ts) (e : GcEntry) (k : Option Ts) :
    (s.push r e).stackAt k = if k = some r then s.stackAt k ++ [e] else s.stackAt k := by
  rcases k with _ | g
  · rfl
  · by_cases hg : g = r
    · subst hg
      simp [State.stackAt, State.push]
    · simp [State.stackAt, State.push, hg]

theorem pop_stackAt (s : State) (g : Ts) (k : Option Ts) :
    (s.pop g).stackAt k = if k = some g then (s.stackAt k).dropLast else s.stackAt k := by
  rcases k with _ | g'
  · rfl
  · by_cases hg : g' = g
    · subst hg
      simp [State.stackAt, State.pop]
    · simp [State.stackAt, State.pop, hg]

/-- The top of a stack is freed. -/
theorem moves_free {g : Ts} {e : GcEntry} {rest : List GcEntry}
    (hg : s.stackAt (some g) = rest ++ [e]) :
    Moves s (State.pop { s with freed := e :: s.freed } g) := by
  have hpop : ∀ k, (State.pop { s with freed := e :: s.freed } g).stackAt k =
      if k = some g then rest else s.stackAt k := by
    intro k
    rw [pop_stackAt]
    split_ifs with hk
    · subst hk
      exact (congrArg List.dropLast hg).trans List.dropLast_concat
    · rfl
  refine ⟨rfl, rfl, fun e' he' => List.mem_cons_of_mem _ he', fun e' k he' => ?_,
    fun e' honce hfree => ?_⟩
  · rw [hpop] at he'
    split_ifs at he' with hk
    · exact ⟨some g, hg ▸ List.mem_append_left _ he'⟩
    · exact ⟨k, he'⟩
  · have hne : e' ≠ e := fun heq => hfree (heq ▸ List.mem_cons_self)
    have hcount : ∀ k, ((State.pop { s with freed := e :: s.freed } g).stackAt k).count e' =
        (s.stackAt k).count e' := by
      intro k
      rw [hpop]
      split_ifs with hk
      · simp [hk, hg, List.count_append, Ne.symm hne]
      · rfl
    obtain ⟨k, hk, hother⟩ := honce
    refine ⟨k, (hcount k).trans hk, fun k' hk' => ?_⟩
    rw [← List.count_eq_zero, hcount, List.count_eq_zero]
    exact hother k' hk'

/-- The top of a stack goes to another stack. -/
theorem moves_push {g r : Ts} {e : GcEntry} {rest : List GcEntry}
    (hg : s.stackAt (some g) = rest ++ [e]) : Moves s ((s.push r e).pop g) := by
  rcases eq_or_ne g r with rfl | hgr
  · have hsame : (s.push g e).pop g = s := by
      simp only [State.push, State.pop, Function.update_self, List.dropLast_concat,
        Function.update_idem, Function.update_eq_self]
    rw [hsame]
    exact ⟨rfl, rfl, fun _ he => he, fun _ k he => ⟨k, he⟩, fun _ h _ => h⟩
  · have hgr' : some g ≠ some r := by simpa using hgr
    have hg' : ((s.push r e).pop g).stackAt (some g) = rest := by
      rw [pop_stackAt, if_pos rfl, push_stackAt, if_neg hgr', hg, List.dropLast_concat]
    have hr' : ((s.push r e).pop g).stackAt (some r) = s.stackAt (some r) ++ [e] := by
      rw [pop_stackAt, if_neg (Ne.symm hgr'), push_stackAt, if_pos rfl]
    have hother : ∀ k, k ≠ some g → k ≠ some r →
        ((s.push r e).pop g).stackAt k = s.stackAt k := by
      intro k hkg hkr
      rw [pop_stackAt, if_neg hkg, push_stackAt, if_neg hkr]
    refine ⟨rfl, rfl, fun _ he => he, fun e' k he' => ?_,
      fun e' h _ => h.move hg hgr' hg' hr' hother⟩
    by_cases hkg : k = some g
    · rw [hkg, hg'] at he'
      exact ⟨some g, hg ▸ List.mem_append_left _ he'⟩
    · by_cases hkr : k = some r
      · rw [hkr, hr'] at he'
        rcases List.mem_append.1 he' with he' | he'
        · exact ⟨_, he'⟩
        · exact ⟨some g, hg ▸ List.mem_append_right _ he'⟩
      · rw [hother k hkg hkr] at he'
        exact ⟨k, he'⟩

/-- A turn of `sivfs_gc_or_reassign_entry`. -/
theorem moves_reassign {g r : Ts} {e : GcEntry} (htop : (s.gcBlockedEntries g).getLast? = some e) :
    Moves s (reassign s g r e) := by
  obtain ⟨rest, hg⟩ := List.getLast?_eq_some_iff.1 htop
  unfold reassign
  split_ifs
  · exact moves_free hg
  · exact moves_push hg

/-- **What a step is**: a commit, an attempt, or a move of the collector. -/
theorem Inv.turn (h : Inv s) {a : Act} (hstep : step s a = some s') :
    (∃ l : LogEntry, l.ts = s.masterTs + 1 ∧
      s' = { s with log := s.log ++ [l], masterTs := s.masterTs + 1 }) ∨
    Makes s s' ∨ Moves s s' := by
  cases a with
  | commit aborted ws =>
    simp only [Lifetimes.step] at hstep
    split_ifs at hstep
    obtain rfl := Option.some.inj hstep
    exact .inl ⟨_, rfl, rfl⟩
  | makeCheckpoint faults =>
    obtain rfl := Option.some.inj hstep
    exact .inr (.inl (h.makes faults))
  | gcFetch =>
    obtain rfl := Option.some.inj hstep
    exact .inr (.inr (moves_fetch s))
  | gcSweep latest seen g =>
    simp only [Lifetimes.step] at hstep
    split_ifs at hstep
    cases htop : (s.gcBlockedEntries g).getLast? with
    | none => simp [htop] at hstep
    | some e =>
      simp only [htop] at hstep
      obtain ⟨lifetime, -, rfl⟩ := Option.map_eq_some_iff.1 hstep
      exact .inr (.inr (moves_reassign htop))

/-- **Every step keeps the invariant.** -/
theorem Inv.step (h : Inv s) {a : Act} (hstep : step s a = some s') : Inv s' := by
  rcases h.turn hstep with ⟨l, hl, rfl⟩ | hm | hm
  · exact h.commit l hl
  · exact h.of_makes hm
  · exact h.moves hm

theorem Init.inv (h : Init s) : Inv s := by
  obtain ⟨hs, hpub, hobs, hgc, hfree⟩ := h
  have hheap : s.heap = ⟨0, fun _ => blankPage⟩ := congrArg Shared.heap hs
  have hlatest : s.latest = ⟨none, 0⟩ := congrArg Shared.latest hs
  have hcp : CpOk s.toShared ⟨none, 0⟩ := by
    rw [hs]
    refine ⟨by simp, le_rfl, fun ino off _ j _ => ?_⟩
    show (Heap.contents _ none (pathOf ino off)) j = 0
    rw [Heap.contents, follow_none]
  have hno : ∀ {ρ id}, ¬At s.heap none ρ id := by simp [At]
  have hempty : ∀ k, s.stackAt k = [] := by
    rintro (_ | g)
    · exact hobs
    · exact hgc g
  refine ⟨⟨?_, ?_, ?_, hlatest ▸ hcp⟩, ?_, ?_, ⟨fun _ => [], ?_⟩, ?_, ?_, ?_, ?_⟩
  · rw [hs]
    trivial
  · rw [hs]
    rfl
  · rw [hheap]
    exact heapOk_empty
  · simp only [hpub, hlatest, List.mem_singleton, forall_eq]
    exact ⟨hcp, le_rfl⟩
  · simp [hpub, hlatest]
  · simp only [hpub, List.mem_singleton, forall_eq]
    exact fun ρ id hat => absurd hat hno
  · simp only [hpub, List.mem_singleton, forall_eq]
    rintro id ⟨ρ, hat⟩
    exact absurd hat hno
  · rw [hlatest]
    rintro id ⟨ρ, hat⟩
    exact absurd hat hno
  · simp [hempty]
  · simp only [hpub, List.mem_singleton, exists_eq_left]
    rintro id ⟨ρ, hat⟩
    exact absurd hat hno

/-- **Lifetimes bracket reachability, and obsolete pages are tracked exactly once**, in
every state that commits, attempts to make a checkpoint and the collector reach. -/
theorem lifetimes_bracketed (h : machine.Reachable s) : Bracketed s :=
  (h.invariant (I := fun s => Inv s) (fun _ hs => Init.inv hs)
    fun _ _ _ _ hi hstep => hi.step hstep).bracketed

end Steps

/-- After mounting. -/
def mounted : State where
  log := []
  masterTs := 0
  heap := ⟨0, fun _ => blankPage⟩
  latest := ⟨none, 0⟩
  published := [⟨none, 0⟩]
  cpObsoletedTs := fun _ => invalidTs
  obsoletedEntries := []
  gcBlockedEntries := fun _ => []
  freed := []

/-- A page is stamped by an attempt that runs out of memory, replaced by the next one,
fetched by the collector and kept for a thread that has version `1` checked out. -/
def twoCheckpoints : List Act :=
  [.commit false [⟨1, 8, 0, 0, 7⟩],
    .makeCheckpoint ⟨none, ⟨fun _ => false, fun _ => false⟩, none, none⟩,
    .commit false [⟨1, 16, 0, 0, 9⟩],
    .makeCheckpoint ⟨none, ⟨fun n => n = 9, fun _ => false⟩, none, none⟩,
    .makeCheckpoint ⟨none, ⟨fun _ => false, fun _ => false⟩, none, none⟩,
    .gcFetch, .gcSweep 2 [((1 : ℕ) : Ts)] invalidTs, .gcSweep 2 [((1 : ℕ) : Ts)] invalidTs]

/-- After `twoCheckpoints` page `6` waits for version `1`. -/
theorem lifetimes_bracketed_twoCheckpoints :
    ∃ s, machine.Reachable s ∧ s.published.map Cp.cpTs = [0, 1, 2] ∧
    s.gcBlockedEntries ((1 : ℕ) : Ts) = [.inode 1, .page 6] ∧ Bracketed s := by
  have h : (machine.run (fun _ _ => true) mounted twoCheckpoints).map
      (fun s => (s.published.map Cp.cpTs, s.gcBlockedEntries ((1 : ℕ) : Ts))) =
      some ([0, 1, 2], [.inode 1, .page 6]) := by decide +kernel
  obtain ⟨s, hs, h⟩ := Option.map_eq_some_iff.1 h
  simp only [Prod.mk.injEq] at h
  have hreach : machine.Reachable s :=
    Machine.ReachableWith.run (fun _ _ _ => trivial)
      (.init ⟨rfl, rfl, rfl, fun _ => rfl, rfl⟩) hs
  exact ⟨s, hreach, h.1, h.2, lifetimes_bracketed hreach⟩

end Lifetimes
end Checkpoint
end Sivfs
