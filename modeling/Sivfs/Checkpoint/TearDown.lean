/-
# Unmounting

`sivfs_destroy_checkpoints` (`kern/sivfs_checkpoints.c`) after any run of the machine of
commits, attempts to make a checkpoint and runs of the collector.

| freed | by |
| --- | --- |
| the pages of the latest checkpoint | `__sivfs_checkpoint_root_free` |
| its inode | `iput` |
| what the collector has not freed | a walk over `gc_blocked_entries` |
| what it has not fetched | a walk over `obsoleted_entries` |

`freed_once` says that these and what the collector has freed before are all the pages and
inodes of the checkpoints that were published, each once.  The pages that are left are those
that attempts made which published nothing (`leaked_pages`): the count of
`sivfs_ncheckpoint_pages` that is reported at the end.
-/

import Sivfs.Checkpoint.Spread
import Sivfs.Checkpoint.Lifetimes
import Sivfs.Lib.Batches

open PathCopy

namespace Sivfs
namespace Checkpoint
namespace Lifetimes

open Checkout (GcEntry)

/-! ### A tree is freed -/

/-- `__sivfs_checkpoint_root_free`: the pages under `r` that are put, in this order.  Above
the leaves there is no call for a leaf. -/
def checkpointRootFree (h : Heap) : ℕ → Ref → List ℕ
  | _, .zero _ => []
  | 0, .page id => [id]
  | level + 1, .page id =>
    ((List.range childrenPerNode).flatMap fun i =>
      match h.child (.page id) i with
      | none => []
      | some (.zero _) => []
      | some (.page c) => if level = 0 then [c] else checkpointRootFree h level (.page c)) ++ [id]

/-- `_sivfs_checkpoint_root_free`. -/
def rootFree (h : Heap) (root : Option Ref) : List ℕ :=
  root.elim [] (checkpointRootFree h (inoLevels + foffsetLevels - 1))

/-- `sivfs_destroy_checkpoints`: what is freed, and what is left in `gc_blocked_entries`. -/
def destroyCheckpoints (s : State) (gcBlockedEntries : RadixTree Ts (List GcEntry)) :
    List GcEntry × RadixTree Ts (List GcEntry) :=
  let freed := (rootFree s.heap s.latest.root).map .page ++ [.inode (s.published.length - 1)]
  let (freed, gcBlockedEntries) :=
    RadixTree.drain 16 (fun freed slot => freed ++ slot.2) freed gcBlockedEntries
  (freed ++ s.obsoletedEntries, gcBlockedEntries)

/-- The shortcut for leaves is what a call would do. -/
theorem checkpointRootFree_succ (h : Heap) (level id : ℕ) :
    checkpointRootFree h (level + 1) (.page id) =
      ((List.range childrenPerNode).flatMap fun i =>
        (h.child (.page id) i).elim [] (checkpointRootFree h level)) ++ [id] := by
  rw [checkpointRootFree]
  refine congrArg (· ++ [id]) (List.flatMap_congr fun i _ => ?_)
  rcases h.child (.page id) i with _ | _ | c
  · rfl
  · cases level <;> rfl
  · cases level with
    | zero => rfl
    | succ level => rfl

/-- Zero pages lead to no other page. -/
theorem not_at_zero (h : Heap) (l : ℕ) (ρ : List ℕ) (id : ℕ) : ¬At h (some (.zero l)) ρ id := by
  intro hat
  induction ρ generalizing l with
  | nil => simp [At] at hat
  | cons k ρ ih =>
    rw [At, follow_cons] at hat
    rcases mkZeroCheckpointPage_ents l k with hnone | ⟨l', -, hsome⟩
    · rw [show h.child (.zero l) k = none from hnone] at hat
      simp at hat
    · rw [show h.child (.zero l) k = some (.zero l') from hsome] at hat
      exact ih l' hat

/-- **The pages that are put** are those under `r`, as far down as the level goes. -/
theorem mem_checkpointRootFree (h : Heap) (level : ℕ) : ∀ (r : Ref) (id : ℕ),
    id ∈ checkpointRootFree h level r ↔
      ∃ ρ, ρ.length ≤ level ∧ Narrow ρ ∧ At h (some r) ρ id := by
  induction level with
  | zero =>
    intro r id
    cases r with
    | zero l => simp [checkpointRootFree, not_at_zero]
    | page j => simp [checkpointRootFree, At, Narrow, eq_comm]
  | succ level ih =>
    intro r id
    cases r with
    | zero l => simp [checkpointRootFree, not_at_zero]
    | page j =>
      rw [checkpointRootFree_succ, List.mem_append, List.mem_flatMap, List.mem_singleton]
      constructor
      · rintro (⟨i, hi, hmem⟩ | rfl)
        · rcases hc : h.child (.page j) i with _ | c
          · simp [hc] at hmem
          · rw [hc] at hmem
            obtain ⟨ρ, hlen, hnarrow, hat⟩ := (ih c id).1 hmem
            refine ⟨i :: ρ, Nat.succ_le_succ hlen, ?_, by rw [At, follow_cons, hc]; exact hat⟩
            rintro k (_ | ⟨_, hk⟩)
            · exact List.mem_range.1 hi
            · exact hnarrow k hk
        · exact ⟨[], Nat.zero_le _, by simp [Narrow], rfl⟩
      · rintro ⟨ρ, hlen, hnarrow, hat⟩
        rcases ρ with _ | ⟨i, ρ⟩
        · right
          simpa [At, eq_comm] using hat
        · left
          rw [At, follow_cons] at hat
          refine ⟨i, List.mem_range.2 (hnarrow i List.mem_cons_self), ?_⟩
          rcases hc : h.child (.page j) i with _ | c
          · simp [hc] at hat
          · rw [hc] at hat
            exact (ih c id).2 ⟨ρ, Nat.le_of_succ_le_succ hlen,
              fun k hk => hnarrow k (List.mem_cons_of_mem _ hk), hat⟩

/-- **No page is put twice**, if every page is at one place. -/
theorem nodup_checkpointRootFree (h : Heap) (level : ℕ) : ∀ r : Ref, Sole h (some r) →
    (checkpointRootFree h level r).Nodup := by
  induction level with
  | zero =>
    intro r _
    cases r with
    | zero l => exact List.nodup_nil
    | page j => exact List.nodup_singleton j
  | succ level ih =>
    intro r hsole
    cases r with
    | zero l => exact List.nodup_nil
    | page j =>
      have hbelow : ∀ {i id}, id ∈ (h.child (.page j) i).elim [] (checkpointRootFree h level) →
          ∃ ρ, At h (some (.page j)) (i :: ρ) id := by
        intro i id hmem
        rcases hc : h.child (.page j) i with _ | c
        · simp [hc] at hmem
        · rw [hc] at hmem
          obtain ⟨ρ, -, -, hat⟩ := (mem_checkpointRootFree h level c id).1 hmem
          exact ⟨ρ, by rw [At, follow_cons, hc]; exact hat⟩
      rw [checkpointRootFree_succ, List.nodup_append]
      refine ⟨List.nodup_flatMap.2 ⟨fun i _ => ?_, ?_⟩, List.nodup_singleton j, ?_⟩
      · rcases hc : h.child (.page j) i with _ | c
        · exact List.nodup_nil
        · refine ih c fun ρ ρ' id hat hat' => ?_
          have hcons : ∀ {ρ}, At h (some c) ρ id → At h (some (.page j)) (i :: ρ) id := by
            intro ρ hat
            rw [At, follow_cons, hc]
            exact hat
          exact List.tail_eq_of_cons_eq (hsole _ _ id (hcons hat) (hcons hat'))
      · refine List.nodup_range.imp fun {i i'} hne id hmem hmem' => hne ?_
        obtain ⟨ρ, hat⟩ := hbelow hmem
        obtain ⟨ρ', hat'⟩ := hbelow hmem'
        exact List.head_eq_of_cons_eq (hsole _ _ id hat hat')
      · intro id hmem id' hid' heq
        obtain rfl := List.mem_singleton.1 hid'
        obtain ⟨i, -, hmem⟩ := List.mem_flatMap.1 hmem
        obtain ⟨ρ, hat⟩ := hbelow hmem
        exact absurd (hsole (i :: ρ) [] id hat (by rw [heq]; rfl)) (by simp)

/-! ### Who holds an entry -/

/-- The pages and inodes of the checkpoints that were published. -/
def Published (s : State) : GcEntry → Prop
  | .page id => ∃ cp ∈ s.published, Reaches s.heap cp.root id
  | .inode c => c < s.published.length

/-- Those that are not of the latest checkpoint. -/
def Obsolete (s : State) : GcEntry → Prop
  | .page id => (∃ cp ∈ s.published, Reaches s.heap cp.root id) ∧
      ¬Reaches s.heap s.latest.root id
  | .inode c => c + 1 < s.published.length

/-- An entry is on one stack, once, or was freed, once. -/
def Held (s : State) (e : GcEntry) : Prop :=
  (Once s.stackAt e ∧ e ∉ s.freed) ∨ (s.freed.count e = 1 ∧ ∀ k, e ∉ s.stackAt k)

/-- An entry is nowhere. -/
def Untracked (s : State) (e : GcEntry) : Prop := e ∉ s.freed ∧ ∀ k, e ∉ s.stackAt k

/-- The collector holds what is obsolete, once, and nothing else; pages that attempts made
which published nothing are `leaked`. -/
structure Booked (s : State) (leaked : List ℕ) : Prop where
  narrow : ∀ cp ∈ s.published, ∀ ρ id, At s.heap cp.root ρ id → Narrow ρ
  held : ∀ e, Obsolete s e → Held s e
  untracked : ∀ e, ¬Obsolete s e → Untracked s e
  leaked_nodup : leaked.Nodup
  mem_leaked : ∀ id, id ∈ leaked ↔ id < s.heap.next ∧ ¬Published s (.page id)

/-- How an attempt ends, with the pages it makes. -/
inductive Attempted (s : State) : State → Prop where
  | unpublished {heap : Heap} {cpObsoletedTs : ℕ → Ts} : Frozen s.heap.next s.heap heap →
      Attempted s { s with heap := heap, cpObsoletedTs := cpObsoletedTs }
  | published {b : Build} {cpObsoletedTs : ℕ → Ts} : Frozen s.heap.next s.heap b.heap →
      Applied s.heap.next s.masterTs (· < s.masterTs) s.heap s.latest.root
        (liveEntries (s.log.drop s.latest.cpTs)) b → Spread s.heap.next b →
      Attempted s { s with
        heap := b.heap
        cpObsoletedTs := cpObsoletedTs
        obsoletedEntries := s.obsoletedEntries ++
          (b.obsoletedPages.reverse.map .page ++ [.inode (s.published.length - 1)])
        latest := ⟨b.root, s.masterTs⟩
        published := s.published ++ [⟨b.root, s.masterTs⟩] }

section Steps

variable {s s' : State} {leaked : List ℕ}

/-- **What an attempt does with its pages.** -/
theorem attempted (h : Inv s) (hnarrow : ∀ ρ id, At s.heap s.latest.root ρ id → Narrow ρ)
    (faults : MakeFaults) : Attempted s (makeCheckpoint faults s) := by
  unfold makeCheckpoint
  split_ifs with heq
  · exact .unpublished (.refl _ _)
  · cases faults.setup with
    | some e => exact .unpublished (.refl _ _)
    | none =>
      have hends := h.shared.applyLog_ends heq faults.pages
      have hset := h.shared.applyLog_settles heq h.prior faults.pages
      rcases hres : applyLog faults.pages s.log s.latest.cpTs s.masterTs
        ⟨s.heap, s.latest.root, []⟩ with ⟨b, e | ⟨⟩⟩
      · rw [hres] at hends
        exact .unpublished hends.2.1
      · rw [hres] at hends hset
        obtain ⟨-, hf, -⟩ := hends
        simp only [insertCheckpoint]
        cases faults.insert with
        | some e => exact .unpublished hf
        | none =>
          cases faults.mark with
          | some e => exact .unpublished hf
          | none =>
            simp only [List.append_assoc]
            exact .published hf hset (h.shared.applyLog_spread heq hnarrow hres)

/-- Entries that were nowhere are put on `obsoleted_entries`. -/
theorem pushed {new : List GcEntry} (hnodup : new.Nodup) (hnew : ∀ e ∈ new, Untracked s e)
    (hfreed : s'.freed = s.freed) (hobs : s'.obsoletedEntries = s.obsoletedEntries ++ new)
    (hgc : s'.gcBlockedEntries = s.gcBlockedEntries) (e : GcEntry) :
    (e ∈ new → Held s' e) ∧
      (e ∉ new → (Held s e → Held s' e) ∧ (Untracked s e → Untracked s' e)) := by
  have hother : ∀ g, s'.stackAt (some g) = s.stackAt (some g) := fun g => congrFun hgc g
  have hnone : s'.stackAt none = s.stackAt none ++ new := hobs
  constructor
  · intro he
    obtain ⟨hfree, hk⟩ := hnew e he
    refine .inl ⟨⟨none, ?_, fun k hk' => ?_⟩, hfreed ▸ hfree⟩
    · rw [hnone, List.count_append, List.count_eq_zero_of_not_mem (hk none), hnodup.count,
        if_pos he]
    · rcases k with _ | g
      · exact absurd rfl hk'
      · rw [hother]
        exact hk _
  · intro he
    have hcount : ∀ k, (s'.stackAt k).count e = (s.stackAt k).count e := by
      rintro (_ | g)
      · rw [hnone, List.count_append, List.count_eq_zero_of_not_mem he, Nat.add_zero]
      · rw [hother]
    have hmem : ∀ k, e ∈ s'.stackAt k ↔ e ∈ s.stackAt k := fun k => by
      rw [← List.count_pos_iff, ← List.count_pos_iff, hcount]
    simp only [Held, Untracked, Once, hcount, hmem, hfreed, imp_self, and_self]

/-- An attempt that publishes nothing. -/
theorem Booked.unpublished (hb : Booked s leaked) (h : Inv s) {heap : Heap}
    {cpObsoletedTs : ℕ → Ts} (hf : Frozen s.heap.next s.heap heap) :
    Booked { s with heap := heap, cpObsoletedTs := cpObsoletedTs }
      (leaked ++ List.range' s.heap.next (heap.next - s.heap.next)) := by
  have hat : ∀ cp ∈ s.published, ∀ {ρ id}, At heap cp.root ρ id ↔ At s.heap cp.root ρ id :=
    fun cp hcp _ _ => CpOk.at_iff (h.cps cp hcp).1 h.shared.heap hf
  have hreach : ∀ cp ∈ s.published, ∀ id, Reaches heap cp.root id ↔ Reaches s.heap cp.root id :=
    fun cp hcp id => exists_congr fun ρ => hat cp hcp
  have hpub : ∀ id, (∃ cp ∈ s.published, Reaches heap cp.root id) ↔ Published s (.page id) :=
    fun id => exists_congr fun cp => and_congr_right fun hcp => hreach cp hcp id
  have hobs : ∀ e, Obsolete { s with heap := heap, cpObsoletedTs := cpObsoletedTs } e ↔
      Obsolete s e := by
    rintro (id | c)
    · exact and_congr (hpub id) (not_congr (hreach _ h.latest id))
    · rfl
  refine ⟨fun cp hcp ρ id hρ => hb.narrow cp hcp ρ id ((hat cp hcp).1 hρ),
    fun e he => hb.held e ((hobs e).1 he), fun e he => hb.untracked e fun ho => he ((hobs e).2 ho),
    ?_, fun id => ?_⟩
  · rw [List.nodup_append]
    refine ⟨hb.leaked_nodup, List.nodup_range', fun id hid id' hid' heq => ?_⟩
    have := ((hb.mem_leaked id).1 hid).1
    have := (List.mem_range'_1.1 hid').1
    omega
  · have hle : s.heap.next ≤ heap.next := hf.next_le
    rw [List.mem_append, hb.mem_leaked, List.mem_range'_1]
    show _ ↔ id < heap.next ∧ ¬∃ cp ∈ s.published, Reaches heap cp.root id
    rw [hpub id]
    constructor
    · rintro (⟨hid, hno⟩ | ⟨hge, hid⟩)
      · exact ⟨hid.trans_le hle, hno⟩
      · refine ⟨by omega, ?_⟩
        rintro ⟨cp, hcp, ρ, hρ⟩
        exact absurd (CpOk.at_lt (h.cps cp hcp).1 h.shared.heap hρ) (not_lt.2 hge)
    · rintro ⟨hid, hno⟩
      rcases Nat.lt_or_ge id s.heap.next with hlt | hge
      · exact .inl ⟨hlt, hno⟩
      · exact .inr ⟨hge, by omega⟩

/-- An attempt that publishes a checkpoint. -/
theorem Booked.published (hb : Booked s leaked) (h : Inv s) {b : Build} {cpObsoletedTs : ℕ → Ts}
    (hf : Frozen s.heap.next s.heap b.heap)
    (ha : Applied s.heap.next s.masterTs (· < s.masterTs) s.heap s.latest.root
      (liveEntries (s.log.drop s.latest.cpTs)) b) (hsp : Spread s.heap.next b) :
    Booked { s with
      heap := b.heap
      cpObsoletedTs := cpObsoletedTs
      obsoletedEntries := s.obsoletedEntries ++
        (b.obsoletedPages.reverse.map .page ++ [.inode (s.published.length - 1)])
      latest := ⟨b.root, s.masterTs⟩
      published := s.published ++ [⟨b.root, s.masterTs⟩] } leaked := by
  have hat : ∀ cp ∈ s.published, ∀ {ρ id}, At b.heap cp.root ρ id ↔ At s.heap cp.root ρ id :=
    fun cp hcp _ _ => CpOk.at_iff (h.cps cp hcp).1 h.shared.heap hf
  have hreach : ∀ cp ∈ s.published, ∀ id, Reaches b.heap cp.root id ↔ Reaches s.heap cp.root id :=
    fun cp hcp id => exists_congr fun ρ => hat cp hcp
  have hbelow : ∀ cp ∈ s.published, ∀ id, Reaches s.heap cp.root id → id < s.heap.next :=
    fun cp hcp id ⟨ρ, hρ⟩ => CpOk.at_lt (h.cps cp hcp).1 h.shared.heap hρ
  have hlen : 0 < s.published.length := List.length_pos_of_mem h.latest
  have hpub : ∀ id, (∃ cp ∈ s.published ++ [⟨b.root, s.masterTs⟩], Reaches b.heap cp.root id) ↔
      Published s (.page id) ∨ Reaches b.heap b.root id := by
    intro id
    simp only [List.mem_append, List.mem_singleton, or_and_right, exists_or, exists_eq_left]
    exact or_congr_left (exists_congr fun cp => and_congr_right fun hcp => hreach cp hcp id)
  set new : List GcEntry :=
    b.obsoletedPages.reverse.map .page ++ [.inode (s.published.length - 1)] with hnew
  have hpage : ∀ id, .page id ∈ new ↔ id ∈ b.obsoletedPages := by simp [hnew]
  have hinode : ∀ c, .inode c ∈ new ↔ c = s.published.length - 1 := by simp [hnew]
  have hnodup : new.Nodup := by
    rw [hnew, List.nodup_append]
    refine ⟨(List.nodup_reverse.2 ha.ledger.nodup).map fun i j hij => GcEntry.page.inj hij,
      List.nodup_singleton _, ?_⟩
    simp
  have hfresh : ∀ e ∈ new, Untracked s e := by
    rintro (id | c) he
    · exact hb.untracked _ fun ho => ho.2 ((h.obsoleted_iff ha).1 ((hpage id).1 he)).1
    · refine hb.untracked _ fun ho => ?_
      have hc := (hinode c).1 he
      have : c + 1 < s.published.length := ho
      omega
  set s₂ : State := { s with
    heap := b.heap
    cpObsoletedTs := cpObsoletedTs
    obsoletedEntries := s.obsoletedEntries ++ new
    latest := ⟨b.root, s.masterTs⟩
    published := s.published ++ [⟨b.root, s.masterTs⟩] } with hs₂
  have hobs : ∀ e, Obsolete s₂ e ↔ Obsolete s e ∨ e ∈ new := by
    rintro (id | c)
    · rw [hpage, h.obsoleted_iff ha]
      show (∃ cp ∈ s.published ++ [⟨b.root, s.masterTs⟩], Reaches b.heap cp.root id) ∧
        ¬Reaches b.heap b.root id ↔ _
      rw [hpub id]
      constructor
      · rintro ⟨hid | hid, hno⟩
        · by_cases hl : Reaches s.heap s.latest.root id
          · exact .inr ⟨hl, hno⟩
          · exact .inl ⟨hid, hl⟩
        · exact absurd hid hno
      · rintro (⟨hid, hl⟩ | ⟨hl, hno⟩)
        · obtain ⟨cp, hcp, hcpid⟩ := hid
          refine ⟨.inl ⟨cp, hcp, hcpid⟩, fun ⟨ρ, hρ⟩ => hl ⟨ρ, ?_⟩⟩
          exact ha.ledger.old ρ id (hbelow cp hcp id hcpid) hρ
        · exact ⟨.inl ⟨_, h.latest, hl⟩, hno⟩
    · rw [hinode]
      show c + 1 < (s.published ++ [_]).length ↔ c + 1 < s.published.length ∨ _
      rw [List.length_append, List.length_singleton]
      omega
  have hpushed := fun e => @pushed s s₂ new hnodup hfresh rfl rfl rfl e
  refine ⟨fun cp hcp ρ id hρ => ?_, fun e he => ?_, fun e he => ?_, hb.leaked_nodup, fun id => ?_⟩
  · rcases List.mem_append.1 hcp with hcp | hcp
    · exact hb.narrow cp hcp ρ id ((hat cp hcp).1 hρ)
    · obtain rfl := List.mem_singleton.1 hcp
      exact hsp.narrow ρ id hρ
  · by_cases hmem : e ∈ new
    · exact (hpushed e).1 hmem
    · exact ((hpushed e).2 hmem).1 (hb.held e (((hobs e).1 he).resolve_right hmem))
  · rw [hobs, not_or] at he
    exact ((hpushed e).2 he.2).2 (hb.untracked e he.1)
  · rw [hb.mem_leaked]
    show _ ↔ id < b.heap.next ∧
      ¬∃ cp ∈ s.published ++ [⟨b.root, s.masterTs⟩], Reaches b.heap cp.root id
    rw [hpub id, not_or]
    constructor
    · rintro ⟨hid, hno⟩
      refine ⟨hid.trans_le hf.next_le, hno, fun ⟨ρ, hρ⟩ => hno ⟨_, h.latest, ρ, ?_⟩⟩
      exact ha.ledger.old ρ id hid hρ
    · rintro ⟨hid, hno, hnew⟩
      refine ⟨?_, hno⟩
      by_contra hge
      exact hnew (hsp.grown id (not_lt.1 hge) hid)

/-- What a step of the collector does to the entries that are freed. -/
def Frees (s s' : State) : Prop :=
  s'.freed = s.freed ∨ ∃ g e rest, s.stackAt (some g) = rest ++ [e] ∧ s'.freed = e :: s.freed ∧
    ∀ k, s'.stackAt k = if k = some g then rest else s.stackAt k

/-- The collector moves and frees entries. -/
theorem Booked.moves (hb : Booked s leaked) (hm : Moves s s') (hfree : Frees s s') :
    Booked s' leaked := by
  have hheap : s'.heap = s.heap := congrArg Shared.heap hm.shared
  have hlatest : s'.latest = s.latest := congrArg Shared.latest hm.shared
  have hobs : ∀ e, Obsolete s' e ↔ Obsolete s e := by
    rintro (id | c)
    · rw [Obsolete, Obsolete, hm.published, hheap, hlatest]
    · rw [Obsolete, Obsolete, hm.published]
  refine ⟨by rw [hm.published, hheap]; exact hb.narrow, fun e he => ?_, fun e he => ?_,
    hb.leaked_nodup, fun id => by
      rw [hb.mem_leaked, Published, Published, hm.published, hheap]⟩
  · rw [hobs] at he
    rcases hfree with hfreed | ⟨g, e', rest, hg, hfreed, hstack⟩
    · rcases hb.held e he with ⟨honce, hno⟩ | ⟨hcount, hnone⟩
      · exact .inl ⟨hm.once e honce (hfreed ▸ hno), hfreed ▸ hno⟩
      · refine .inr ⟨hfreed ▸ hcount, fun k hk => ?_⟩
        obtain ⟨k', hk'⟩ := hm.sub e k hk
        exact hnone k' hk'
    · have htop : e' ∈ s.stackAt (some g) :=
        hg ▸ List.mem_append_right _ (List.mem_singleton_self _)
      by_cases heq : e = e'
      · subst heq
        rcases hb.held e he with ⟨⟨k, hk, hother⟩, hno⟩ | ⟨-, hnone⟩
        · obtain rfl : some g = k := by
            by_contra hne
            exact hother _ hne htop
          have hrest : e ∉ rest := by
            rw [hg, List.count_append, List.count_singleton_self] at hk
            exact List.count_eq_zero.1 (by omega)
          refine .inr ⟨?_, fun k hk => ?_⟩
          · rw [hfreed, List.count_cons_self, List.count_eq_zero_of_not_mem hno]
          · rw [hstack] at hk
            split_ifs at hk with hkg
            · exact hrest hk
            · exact hother k hkg hk
        · exact absurd htop (hnone _)
      · have hmem : e ∉ s.freed → e ∉ s'.freed := by
          rw [hfreed, List.mem_cons, not_or]
          exact fun hno => ⟨heq, hno⟩
        rcases hb.held e he with ⟨honce, hno⟩ | ⟨hcount, hnone⟩
        · exact .inl ⟨hm.once e honce (hmem hno), hmem hno⟩
        · refine .inr ⟨?_, fun k hk => ?_⟩
          · rw [hfreed, List.count_cons_of_ne (Ne.symm heq), hcount]
          · obtain ⟨k', hk'⟩ := hm.sub e k hk
            exact hnone k' hk'
  · obtain ⟨hno, hnone⟩ := hb.untracked e fun ho => he ((hobs e).2 ho)
    refine ⟨?_, fun k hk => ?_⟩
    · rcases hfree with hfreed | ⟨g, e', rest, hg, hfreed, -⟩
      · rw [hfreed]
        exact hno
      · rw [hfreed, List.mem_cons, not_or]
        refine ⟨?_, hno⟩
        rintro rfl
        exact hnone (some g) (hg ▸ List.mem_append_right _ (List.mem_singleton_self _))
    · obtain ⟨k', hk'⟩ := hm.sub e k hk
      exact hnone k' hk'

/-- The top of a stack is freed, or goes to another stack. -/
theorem frees_reassign {g r : Ts} {e : GcEntry} (htop : (s.gcBlockedEntries g).getLast? = some e) :
    Frees s (reassign s g r e) := by
  obtain ⟨rest, hg⟩ := List.getLast?_eq_some_iff.1 htop
  unfold reassign
  split_ifs
  · refine .inr ⟨g, e, rest, hg, rfl, fun k => ?_⟩
    rw [pop_stackAt]
    split_ifs with hk
    · subst hk
      exact (congrArg List.dropLast hg).trans List.dropLast_concat
    · rfl
  · exact .inl rfl

/-- The pages that are left behind, after a step. -/
def leak (s s' : State) (leaked : List ℕ) : List ℕ :=
  if s'.published.length = s.published.length then
    leaked ++ List.range' s.heap.next (s'.heap.next - s.heap.next)
  else leaked

/-- Pages that are there are not new. -/
theorem leak_of_eq (hpub : s'.published = s.published) (hheap : s'.heap = s.heap) :
    leak s s' leaked = leaked := by
  simp [leak, hpub, hheap]

/-- The collector leaves nothing behind. -/
theorem Booked.collects (hb : Booked s leaked) (hm : Moves s s') (hfree : Frees s s') :
    Booked s' (leak s s' leaked) := by
  rw [leak_of_eq hm.published (congrArg Shared.heap hm.shared)]
  exact hb.moves hm hfree

/-- **Every step keeps the books.** -/
theorem Booked.step (hb : Booked s leaked) (h : Inv s) {a : Act} (hstep : step s a = some s') :
    Booked s' (leak s s' leaked) := by
  cases a with
  | commit aborted ws =>
    simp only [Lifetimes.step] at hstep
    split_ifs at hstep
    obtain rfl := Option.some.inj hstep
    have hleak := @leak_of_eq s { s with
      log := s.log ++ [⟨s.masterTs + 1, aborted, ws⟩]
      masterTs := s.masterTs + 1 } leaked rfl rfl
    rw [hleak]
    exact ⟨hb.narrow, hb.held, hb.untracked, hb.leaked_nodup, hb.mem_leaked⟩
  | makeCheckpoint faults =>
    obtain rfl := Option.some.inj hstep
    have hmade := attempted h (hb.narrow _ h.latest) faults
    generalize makeCheckpoint faults s = s' at hmade
    cases hmade with
    | unpublished hf =>
      rw [leak, if_pos rfl]
      exact hb.unpublished h hf
    | published hf ha hsp =>
      rw [leak, if_neg (by simp)]
      exact hb.published h hf ha hsp
  | gcFetch =>
    obtain rfl := Option.some.inj hstep
    exact hb.collects (moves_fetch s) (.inl rfl)
  | gcSweep latest seen g =>
    simp only [Lifetimes.step] at hstep
    split_ifs at hstep
    cases htop : (s.gcBlockedEntries g).getLast? with
    | none => simp [htop] at hstep
    | some e =>
      simp only [htop] at hstep
      obtain ⟨lifetime, -, rfl⟩ := Option.map_eq_some_iff.1 hstep
      exact hb.collects (moves_reassign htop) (frees_reassign htop)

theorem Init.booked (h : Init s) : Booked s [] := by
  obtain ⟨hs, hpub, hobs, hgc, hfree⟩ := h
  have hheap : s.heap = ⟨0, fun _ => blankPage⟩ := congrArg Shared.heap hs
  have hno : ∀ cp ∈ s.published, ∀ {ρ id}, ¬At s.heap cp.root ρ id := by
    intro cp hcp ρ id
    obtain rfl := List.mem_singleton.1 (hpub ▸ hcp)
    simp [At]
  have hempty : ∀ k, s.stackAt k = [] := by
    rintro (_ | g)
    · exact hobs
    · exact hgc g
  refine ⟨fun cp hcp ρ id hρ => absurd hρ (hno cp hcp), fun e he => ?_, fun e _ => ?_,
    List.nodup_nil, fun id => ?_⟩
  · rcases e with id | c
    · obtain ⟨⟨cp, hcp, ρ, hρ⟩, -⟩ := he
      exact absurd hρ (hno cp hcp)
    · have hc : c + 1 < s.published.length := he
      rw [hpub, List.length_singleton] at hc
      omega
  · exact ⟨by simp [hfree], by simp [hempty]⟩
  · simp [hheap]

/-- The machine of lifetimes, with the pages that are left behind. -/
def leaking : Machine (State × List ℕ) Act where
  init s := Init s.1 ∧ s.2 = []
  step s a := (step s.1 a).map fun s' => (s', leak s.1 s' s.2)

/-- **The books of a run.** -/
theorem booked_of_leaking (h : leaking.Reachable (s, leaked)) : Inv s ∧ Booked s leaked := by
  refine h.invariant (I := fun s => Inv s.1 ∧ Booked s.1 s.2) ?_ ?_
  · rintro ⟨s, leaked⟩ ⟨hi, rfl⟩
    exact ⟨Init.inv hi, Init.booked hi⟩
  · rintro ⟨s, leaked⟩ a ⟨s', leaked'⟩ - ⟨hi, hb⟩ hstep
    obtain ⟨s₂, hs₂, heq⟩ := Option.map_eq_some_iff.1 hstep
    obtain ⟨rfl, rfl⟩ := Prod.mk.inj heq
    exact ⟨hi.step hs₂, hb.step hi hs₂⟩

/-- A run is one of the machine. -/
theorem leaking_reachable (h : leaking.Reachable (s, leaked)) : machine.Reachable s := by
  refine h.invariant (I := fun s => machine.Reachable s.1) (fun s hi => ?_) ?_
  · exact .init hi.1
  rintro ⟨s, leaked⟩ a ⟨s', leaked'⟩ - hr hstep
  obtain ⟨s₂, hs₂, heq⟩ := Option.map_eq_some_iff.1 hstep
  obtain ⟨rfl, -⟩ := Prod.mk.inj heq
  exact .step a hr trivial hs₂

/-- Every run leaves some pages behind. -/
theorem exists_leaking (h : machine.Reachable s) : ∃ leaked, leaking.Reachable (s, leaked) := by
  refine h.invariant (I := fun s => ∃ leaked, leaking.Reachable (s, leaked))
    (fun s hi => ⟨[], .init ⟨hi, rfl⟩⟩) ?_
  rintro s a s' - ⟨leaked, hr⟩ hstep
  refine ⟨leak s s' leaked, .step a hr trivial ?_⟩
  show (Lifetimes.step s a).map _ = _
  rw [show Lifetimes.step s a = some s' from hstep]
  rfl

/-! ### Unmounting -/

/-- `gc_blocked_entries` as a tree. -/
def Groups (s : State) (t : RadixTree Ts (List GcEntry)) : Prop :=
  ∀ g, (t.lookup g).getD [] = s.gcBlockedEntries g

/-- An entry that is on one stack once is visited once. -/
theorem Groups.count {t : RadixTree Ts (List GcEntry)} (ht : Groups s t) {e : GcEntry} :
    (Once s.stackAt e → (t.slots.flatMap Prod.snd).count e + s.obsoletedEntries.count e = 1) ∧
      ((∀ k, e ∉ s.stackAt k) → (t.slots.flatMap Prod.snd).count e +
        s.obsoletedEntries.count e = 0) := by
  have hsingle : ∀ g, (∀ j, j ≠ g → e ∉ s.stackAt (some j)) →
      (t.slots.flatMap Prod.snd).count e = (s.stackAt (some g)).count e := by
    intro g hother
    have hsum : (t.slots.flatMap Prod.snd).count e = t.sum fun stack => stack.count e := by
      rw [List.count_flatMap]
      rfl
    have hat : ((t.lookup g).toList.map fun stack => stack.count e).sum =
        (s.gcBlockedEntries g).count e := by
      rw [← ht g]
      rcases t.lookup g with _ | stack <;> simp
    rw [hsum, t.sum_eq_lookup _ (k := g) fun j stack hj hstack => ?_, hat]
    · rfl
    · have hno : e ∉ s.gcBlockedEntries j := hother j hj
      rw [← ht j, hstack] at hno
      exact List.count_eq_zero_of_not_mem hno
  show (_ → _ + (s.stackAt none).count e = 1) ∧ (_ → _ + (s.stackAt none).count e = 0)
  constructor
  · rintro ⟨_ | g, hone, hother⟩
    · rw [hsingle invalidTs fun j _ => hother _ (by simp),
        List.count_eq_zero_of_not_mem (hother (some invalidTs) (by simp)), hone]
    · rw [hsingle g fun j hj => hother _ (by simpa using hj), hone,
        List.count_eq_zero_of_not_mem (hother none (by simp))]
  · intro hno
    rw [hsingle invalidTs fun j _ => hno _, List.count_eq_zero_of_not_mem (hno _),
      List.count_eq_zero_of_not_mem (hno _)]

/-- The pages of the latest checkpoint are freed, each once. -/
theorem mem_rootFree (h : Inv s) (hb : Booked s leaked) :
    (rootFree s.heap s.latest.root).Nodup ∧
      ∀ id, id ∈ rootFree s.heap s.latest.root ↔ Reaches s.heap s.latest.root id := by
  rw [rootFree]
  have hsole := h.prior.sole
  have hnarrow := hb.narrow _ h.latest
  have hroot := h.shared.latest.root
  generalize s.latest.root = root at hsole hnarrow hroot ⊢
  rcases root with _ | r
  · simp [Reaches, At]
  · refine ⟨nodup_checkpointRootFree s.heap _ r hsole, fun id => ?_⟩
    show id ∈ checkpointRootFree s.heap _ r ↔ _
    rw [mem_checkpointRootFree]
    constructor
    · rintro ⟨ρ, -, -, hat⟩
      exact ⟨ρ, hat⟩
    · rintro ⟨ρ, hat⟩
      have hlevel := h.shared.heap.toHeapWf.level_follow ρ hat
      have hsix := (hroot r rfl).2.1
      refine ⟨ρ, ?_, hnarrow ρ id hat, hat⟩
      rw [inoLevels, foffsetLevels]
      omega

/-- What tearing down frees, for each entry. -/
theorem count_destroyCheckpoints (h : Inv s) (hb : Booked s leaked)
    {t : RadixTree Ts (List GcEntry)} (ht : Groups s t) (e : GcEntry) :
    (Published s e → (s.freed ++ (destroyCheckpoints s t).1).count e = 1) ∧
      (¬Published s e → (s.freed ++ (destroyCheckpoints s t).1).count e = 0) := by
  have hlen : 0 < s.published.length := List.length_pos_of_mem h.latest
  obtain ⟨hnodup, hmem⟩ := mem_rootFree h hb
  set latest : List GcEntry :=
    (rootFree s.heap s.latest.root).map .page ++ [.inode (s.published.length - 1)] with hlatest
  have hfold : ∀ (slots : List (Ts × List GcEntry)) (freed : List GcEntry),
      slots.foldl (fun freed slot => freed ++ slot.2) freed = freed ++ slots.flatMap Prod.snd := by
    intro slots
    induction slots with
    | nil => simp
    | cons slot slots ih =>
      intro freed
      rw [List.foldl_cons, ih, List.flatMap_cons, List.append_assoc]
  have hcount : (s.freed ++ (destroyCheckpoints s t).1).count e = latest.count e +
      (s.freed.count e + ((t.slots.flatMap Prod.snd).count e + s.obsoletedEntries.count e)) := by
    simp only [destroyCheckpoints, RadixTree.drain_eq (by omega : 0 < 16), hfold, ← hlatest,
      List.count_append]
    omega
  have hlast : latest.Nodup := by
    rw [hlatest, List.nodup_append]
    refine ⟨hnodup.map fun i j hij => GcEntry.page.inj hij, List.nodup_singleton _, ?_⟩
    simp
  have hin : e ∈ latest ↔ Published s e ∧ ¬Obsolete s e := by
    rcases e with id | c
    · have hpage : GcEntry.page id ∈ latest ↔ Reaches s.heap s.latest.root id := by
        simp [hlatest, hmem]
      rw [hpage]
      exact ⟨fun hid => ⟨⟨_, h.latest, hid⟩, fun ho => ho.2 hid⟩,
        fun ⟨hp, ho⟩ => by_contra fun hno => ho ⟨hp, hno⟩⟩
    · have hinode : GcEntry.inode c ∈ latest ↔ c = s.published.length - 1 := by simp [hlatest]
      rw [hinode, Published, Obsolete]
      omega
  have hrest : Obsolete s e → Published s e := by
    rcases e with id | c
    · exact And.left
    · intro hc
      exact Nat.lt_of_succ_lt hc
  rw [hcount]
  by_cases ho : Obsolete s e
  · have hno : latest.count e = 0 := List.count_eq_zero.2 fun hmem => (hin.1 hmem).2 ho
    refine ⟨fun _ => ?_, fun hp => absurd (hrest ho) hp⟩
    rcases hb.held e ho with ⟨honce, hfree⟩ | ⟨hfree, hnone⟩
    · rw [hno, ht.count.1 honce, List.count_eq_zero_of_not_mem hfree]
    · rw [hno, ht.count.2 hnone, hfree]
  · obtain ⟨hfree, hnone⟩ := hb.untracked e ho
    rw [ht.count.2 hnone, List.count_eq_zero_of_not_mem hfree]
    refine ⟨fun hp => ?_, fun hp => ?_⟩
    · rw [hlast.count, if_pos (hin.2 ⟨hp, ho⟩)]
    · rw [List.count_eq_zero.2 fun hmem => hp (hin.1 hmem).1]

/-- **Everything is freed, once.**  The collector and `sivfs_destroy_checkpoints` free the
pages and inodes of all checkpoints that were published, each once, and nothing else. -/
theorem freed_once (h : machine.Reachable s) {t : RadixTree Ts (List GcEntry)} (ht : Groups s t) :
    (s.freed ++ (destroyCheckpoints s t).1).Nodup ∧
      (∀ e, e ∈ s.freed ++ (destroyCheckpoints s t).1 ↔ Published s e) ∧
      (destroyCheckpoints s t).2 = RadixTree.empty := by
  obtain ⟨leaked, hr⟩ := exists_leaking h
  obtain ⟨hi, hb⟩ := booked_of_leaking hr
  have hcount := fun e => count_destroyCheckpoints hi hb ht e
  refine ⟨List.nodup_iff_count_le_one.2 fun e => ?_, fun e => ?_, ?_⟩
  · by_cases hp : Published s e
    · exact ((hcount e).1 hp).le
    · rw [(hcount e).2 hp]
      exact Nat.zero_le 1
  · rw [← List.count_pos_iff]
    by_cases hp : Published s e
    · simp [(hcount e).1 hp, hp]
    · simp [(hcount e).2 hp, hp]
  · simp only [destroyCheckpoints, RadixTree.drain_eq (by omega : 0 < 16)]

/-- The pages among some entries. -/
def pagesOf (entries : List GcEntry) : List ℕ := entries.filterMap fun
  | .page id => some id
  | .inode _ => none

theorem mem_pagesOf {entries : List GcEntry} {id : ℕ} :
    id ∈ pagesOf entries ↔ .page id ∈ entries := by
  rw [pagesOf, List.mem_filterMap]
  constructor
  · rintro ⟨_ | _, hmem, heq⟩
    · obtain rfl := Option.some.inj heq
      exact hmem
    · simp at heq
  · exact fun hmem => ⟨_, hmem, rfl⟩

theorem nodup_pagesOf {entries : List GcEntry} (h : entries.Nodup) : (pagesOf entries).Nodup := by
  refine h.filterMap ?_
  rintro (_ | _) (_ | _) id hid hid'
  · obtain rfl := Option.mem_some_iff.1 hid
    obtain rfl := Option.mem_some_iff.1 hid'
    rfl
  · simp at hid'
  · simp at hid
  · simp at hid

/-- **What leaks.**  The pages that are handed out in a run are those that are freed in the end
and those that attempts made which published nothing. -/
theorem leaked_pages (h : leaking.Reachable (s, leaked)) {t : RadixTree Ts (List GcEntry)}
    (ht : Groups s t) :
    (pagesOf (s.freed ++ (destroyCheckpoints s t).1) ++ leaked).Perm (List.range s.heap.next) := by
  obtain ⟨hi, hb⟩ := booked_of_leaking h
  obtain ⟨hnodup, hmem, -⟩ := freed_once (leaking_reachable h) ht
  have hpages : ∀ id, id ∈ pagesOf (s.freed ++ (destroyCheckpoints s t).1) ↔
      Published s (.page id) := fun id => mem_pagesOf.trans (hmem _)
  refine (List.perm_ext_iff_of_nodup ?_ List.nodup_range).2 fun id => ?_
  · rw [List.nodup_append]
    refine ⟨nodup_pagesOf hnodup, hb.leaked_nodup, fun id hid id' hid' heq => ?_⟩
    exact ((hb.mem_leaked id').1 hid').2 (heq ▸ (hpages id).1 hid)
  · rw [List.mem_append, hpages, hb.mem_leaked, List.mem_range]
    constructor
    · rintro (⟨cp, hcp, ρ, hρ⟩ | ⟨hid, -⟩)
      · exact CpOk.at_lt (hi.cps cp hcp).1 hi.shared.heap hρ
      · exact hid
    · exact fun hid => (em _).imp_right fun hno => ⟨hid, hno⟩

end Steps

/-- An attempt that runs out of memory after three pages, one that publishes a checkpoint, and
the collector that fetches the inode of the first one. -/
def failedAttempt : List Act :=
  [.commit false [⟨1, 8, 0, 0, 7⟩],
    .makeCheckpoint ⟨none, ⟨fun n => n = 3, fun _ => false⟩, none, none⟩,
    .makeCheckpoint ⟨none, ⟨fun _ => false, fun _ => false⟩, none, none⟩, .gcFetch]

/-- The groups after `failedAttempt`. -/
def failedAttemptGroups : RadixTree Ts (List GcEntry) := RadixTree.empty.set invalidTs [.inode 0]

theorem failedAttempt_run : ∃ s, leaking.Reachable (s, [0, 1, 2]) ∧ s.heap.next = 10 ∧
    Groups s failedAttemptGroups := by
  have h : (leaking.run (fun _ _ => true) (mounted, []) failedAttempt).map
      (fun s => (s.2, s.1.heap.next, s.1.gcBlockedEntries)) =
      some ([0, 1, 2], 10, Function.update (fun _ => []) invalidTs [.inode 0]) := rfl
  obtain ⟨⟨s, leaked⟩, hs, h⟩ := Option.map_eq_some_iff.1 h
  simp only [Prod.mk.injEq] at h
  obtain ⟨rfl, hnext, hgc⟩ := h
  refine ⟨s, Machine.ReachableWith.run (fun _ _ _ => trivial)
    (.init ⟨⟨rfl, rfl, rfl, fun _ => rfl, rfl⟩, rfl⟩) hs, hnext, fun g => ?_⟩
  rw [hgc, failedAttemptGroups]
  by_cases hg : g = invalidTs
  · subst hg
    simp
  · rw [RadixTree.lookup_set_of_ne _ _ hg, Function.update_of_ne hg]
    rfl

/-- After `failedAttempt` the collector has freed nothing. -/
theorem freed_once_failedAttempt : ∃ s, Groups s failedAttemptGroups ∧
    (s.freed ++ (destroyCheckpoints s failedAttemptGroups).1).Nodup := by
  obtain ⟨s, hr, -, ht⟩ := failedAttempt_run
  exact ⟨s, ht, (freed_once (leaking_reachable hr) ht).1⟩

/-- After `failedAttempt` three of ten pages stay. -/
theorem leaked_pages_failedAttempt : ∃ s, Groups s failedAttemptGroups ∧
    (pagesOf (s.freed ++ (destroyCheckpoints s failedAttemptGroups).1) ++ [0, 1, 2]).Perm
      (List.range 10) := by
  obtain ⟨s, hr, hnext, ht⟩ := failedAttempt_run
  exact ⟨s, ht, hnext ▸ leaked_pages hr ht⟩

end Lifetimes
end Checkpoint
end Sivfs
