/-
# Checkpoints that share a page

A checkpoint copies a page only if a commit since the one before it writes to the page, so two
published checkpoints have in common what no commit in between changes (`Steady`).  New commits,
attempts to make a checkpoint and the collector keep that, and what threads rely on
(`extends_append`, `extends_makes`, `extends_moves`).

A page that a thread has recorded was that of a checkpoint, and nothing up to the snapshot of
the thread writes to it (`PageOk`).  Hence it is the page of the checkpoint that the thread has
checked out now (`TaskOk.belongs`).
-/

import Sivfs.Update.Recorded

open PathCopy

namespace Sivfs
namespace Mapped

open Checkpoint
open Update (Workingset Resident Env Txn sivfsFindVma submit CutShort)

/-! ### Checkpoints over time -/

/-- No commit after `a` and up to `b` makes a change below the end of `ρ`. -/
def Quiet (log : List LogEntry) (a b : ℕ) (ρ : List ℕ) : Prop :=
  ∀ l ∈ log, a < l.ts → l.ts ≤ b → l.aborted = false → ∀ ent ∈ l.ws,
    InRange ent.ino ent.fileOffset → ¬ρ <+: entPath ent

/-- Two checkpoints share what is not changed in between. -/
def Steady (s : Lifetimes.State) : Prop :=
  ∀ c ∈ s.published, ∀ c' ∈ s.published, c.cpTs ≤ c'.cpTs → ∀ ρ x,
    Quiet s.log c.cpTs c'.cpTs ρ → follow s.heap.child c.root ρ = some x →
    follow s.heap.child c'.root ρ = some x

/-- What threads and the checkpointer leave of earlier states. -/
structure Extends (s s' : Lifetimes.State) : Prop where
  masterTs : s.masterTs ≤ s'.masterTs
  log : ∀ l ∈ s'.log, l.ts ≤ s.masterTs → l ∈ s.log
  published : ∀ cp ∈ s.published, cp ∈ s'.published
  follow : ∀ cp ∈ s.published, ∀ ρ,
    follow s'.heap.child cp.root ρ = follow s.heap.child cp.root ρ

section Shared

variable {s s' : Lifetimes.State}

/-- Nothing has happened. -/
theorem Extends.refl (s : Lifetimes.State) : Extends s s :=
  ⟨le_rfl, fun _ hl _ => hl, fun _ hcp => hcp, fun _ _ _ => rfl⟩

/-- Published checkpoints are made of older pages, which stay as they are. -/
theorem follow_frozen (h : Lifetimes.Inv s) {heap : Heap} (hf : Frozen s.heap.next s.heap heap)
    {cp : Cp} (hcp : cp ∈ s.published) (ρ : List ℕ) :
    follow heap.child cp.root ρ = follow s.heap.child cp.root ρ :=
  hf.follow h.shared.heap.closed (fun r hr => ((h.cps cp hcp).1.root r hr).1) ρ

/-- A commit. -/
theorem extends_append {l : LogEntry} (hl : l.ts = s.masterTs + 1) :
    Extends s (append s (some l)) := by
  refine ⟨Nat.le_succ _, fun x hx hle => ?_, fun _ hcp => hcp, fun _ _ _ => rfl⟩
  rcases List.mem_append.1 hx with hx | hx
  · exact hx
  · obtain rfl := List.mem_singleton.1 hx
    omega

/-- With a commit more, there are fewer paths that nothing changes. -/
theorem Steady.append (hst : Steady s) (l : LogEntry) : Steady (append s (some l)) :=
    fun c hc c' hc' hle ρ x hq =>
  hst c hc c' hc' hle ρ x fun y hy => hq y (List.mem_append_left _ hy)

/-- An attempt to make a checkpoint. -/
theorem extends_makes (h : Lifetimes.Inv s) (hm : Lifetimes.Makes s s') : Extends s s' := by
  cases hm with
  | nothing => exact .refl s
  | fail hne hok hf hst =>
    exact ⟨le_rfl, fun _ hl _ => hl, fun _ hcp => hcp, fun cp hcp => follow_frozen h hf hcp⟩
  | succeed hne hok hf hb =>
    exact ⟨le_rfl, fun _ hl _ => hl, fun _ hcp => List.mem_append_left _ hcp,
      fun cp hcp => follow_frozen h hf hcp⟩

/-- **A new checkpoint shares with the latest what was not changed since.** -/
theorem Steady.makes (h : Lifetimes.Inv s) (hst : Steady s) (hm : Lifetimes.Makes s s') :
    Steady s' := by
  cases hm with
  | nothing => exact hst
  | fail hne hok hf hfail =>
    intro c hc c' hc' hle ρ x hq hx
    rw [follow_frozen h hf hc'] at *
    rw [follow_frozen h hf hc] at hx
    exact hst c hc c' hc' hle ρ x hq hx
  | @succeed b _ _ hne hok hf hb =>
    have hlt : s.latest.cpTs < s.masterTs := lt_of_le_of_ne h.shared.latest.le (Ne.symm hne)
    intro c hc c' hc' hle ρ x hq hx
    rcases List.mem_append.1 hc with hc | hc
    · have hx' : follow s.heap.child c.root ρ = some x := (follow_frozen h hf hc ρ).symm.trans hx
      rcases List.mem_append.1 hc' with hc' | hc'
      · exact (follow_frozen h hf hc' ρ).trans (hst c hc c' hc' hle ρ x hq hx')
      · obtain rfl := List.mem_singleton.1 hc'
        have hlatest := hst c hc s.latest h.latest (h.cps c hc).2 ρ x
          (fun l hl hlt' hle' => hq l hl hlt' (hle'.trans hlt.le)) hx'
        refine hb.ledger.kept h.prior hlatest fun ent hent => ?_
        obtain ⟨l, hl, hent'⟩ := List.mem_flatMap.1 hent
        obtain ⟨hl, hlive⟩ := List.mem_filter.1 hl
        obtain ⟨hl, hts⟩ := h.shared.log.mem_drop_iff.1 hl
        refine hq l hl ((h.cps c hc).2.trans_lt hts) ?_ (by simpa using hlive) ent hent'
          (hb.inRange ent hent)
        have hlen := h.shared.masterTs
        obtain ⟨i, hi⟩ := List.mem_iff_getElem?.1 hl
        have hi' := h.shared.log.ts_of_getElem? hi
        have := (List.getElem?_eq_some_iff.1 hi).1
        show l.ts ≤ s.masterTs
        omega
    · obtain rfl := List.mem_singleton.1 hc
      rcases List.mem_append.1 hc' with hc' | hc'
      · have := (h.cps c' hc').2
        exact absurd (hle.trans this) (not_le.2 hlt)
      · obtain rfl := List.mem_singleton.1 hc'
        exact hx

/-- A move of the collector. -/
theorem extends_moves (hm : Lifetimes.Moves s s') : Extends s s' := by
  have hheap : s'.heap = s.heap := congrArg Shared.heap hm.shared
  have hlog : s'.log = s.log := congrArg Shared.log hm.shared
  have hmaster : s'.masterTs = s.masterTs := congrArg Shared.masterTs hm.shared
  exact ⟨hmaster.ge, fun l hl _ => hlog ▸ hl, fun cp hcp => hm.published ▸ hcp,
    fun cp _ ρ => by rw [hheap]⟩

/-- The collector changes neither the log nor the heap, nor what is published. -/
theorem Steady.moves (hst : Steady s) (hm : Lifetimes.Moves s s') : Steady s' := by
  have hheap : s'.heap = s.heap := congrArg Shared.heap hm.shared
  have hlog : s'.log = s.log := congrArg Shared.log hm.shared
  unfold Steady
  rw [hm.published, hlog, hheap]
  exact hst

end Shared

/-! ### Threads -/

/-- A recorded page is that of a checkpoint, and no commit since then and up to the
snapshot writes to it. -/
def PageOk (s : Lifetimes.State) (task : Task) (ino pgoff : ℕ) : Prop :=
  InRange ino (pgoff * pageSize) ∧ ∃ cp₀ ∈ s.published,
    follow s.heap.child cp₀.root (pathOf ino (pgoff * pageSize)) = some (task.mapped ino pgoff) ∧
    (∃ cp, task.thread.checkpoint = some cp ∧ cp₀.cpTs ≤ cp.cpTs) ∧
    ∃ t : ℕ, task.thread.ts = (t : Ts) ∧ Untouched s.log cp₀.cpTs t ino pgoff

/-- The commit that the update will skip writes to no recorded page. -/
def Spares (s : Lifetimes.State) (pages : Workingset) (commitTs : Ts) : Prop :=
  ∀ c : ℕ, commitTs = (c : Ts) → c ≤ s.masterTs ∧ ∀ l ∈ s.log, l.ts = c →
    ∀ ino pgoff, Recorded pages ino pgoff → Misses ino pgoff l.ws

/-- What holds at a place in a call. -/
def PcOk (s : Lifetimes.State) (task : Task) : Prop :=
  match task.pc with
  | .user false => True
  | .user true => ∃ cp, task.thread.checkpoint = some cp ∧
      ∃ t : ℕ, task.thread.ts = (t : Ts) ∧ cp.cpTs ≤ t
  | .committed commitTs _ => Spares s task.thread.workingset commitTs
  | .checkedOut commitTs _ => Spares s task.thread.workingset commitTs ∧
      ∃ cp, task.thread.checkpoint = some cp

/-- What every step keeps of a thread. -/
structure TaskOk (s : Lifetimes.State) (task : Task) : Prop where
  outside : task.thread.directAccess = false
  checkpoint : ∀ cp, task.thread.checkpoint = some cp →
    cp ∈ s.published ∧ task.thread.checkpointTs = (cp.cpTs : Ts)
  none : task.thread.checkpoint = none → task.thread.checkpointTs = invalidTs
  ts : ∀ t : ℕ, task.thread.ts = (t : Ts) → t ≤ s.masterTs
  pages : ∀ ino pgoff, Recorded task.thread.workingset ino pgoff → PageOk s task ino pgoff
  pc : PcOk s task

section Tasks

variable {s s' : Lifetimes.State} {task : Task}

/-- What is in the log up to `master_ts` does not change. -/
theorem Untouched.extends (hx : Extends s s') {a b ino pgoff : ℕ} (hb : b ≤ s.masterTs)
    (h : Untouched s.log a b ino pgoff) : Untouched s'.log a b ino pgoff :=
  fun l hl hlt hle => h l (hx.log l hl (hle.trans hb)) hlt hle

/-- The same for the commit of the thread. -/
theorem Spares.extends (hx : Extends s s') {pages : Workingset} {commitTs : Ts}
    (h : Spares s pages commitTs) : Spares s' pages commitTs := by
  intro c hc
  obtain ⟨hle, hmiss⟩ := h c hc
  exact ⟨hle.trans hx.masterTs, fun l hl hts => hmiss l (hx.log l hl (hts.trans_le hle)) hts⟩

/-- **The company does not disturb a thread.** -/
theorem TaskOk.extends (h : TaskOk s task) (hx : Extends s s') : TaskOk s' task := by
  refine ⟨h.outside,
    fun cp hcp => ⟨hx.published cp (h.checkpoint cp hcp).1, (h.checkpoint cp hcp).2⟩,
    h.none, fun t ht => (h.ts t ht).trans hx.masterTs, fun ino pgoff hrec => ?_, ?_⟩
  · obtain ⟨hin, cp₀, hcp₀, hfollow, hcp, t, ht, hun⟩ := h.pages ino pgoff hrec
    exact ⟨hin, cp₀, hx.published cp₀ hcp₀, (hx.follow cp₀ hcp₀ _).trans hfollow, hcp, t, ht,
      hun.extends hx (h.ts t ht)⟩
  · have hpc := h.pc
    unfold PcOk at hpc ⊢
    split at hpc
    · trivial
    · exact hpc
    · exact hpc.extends hx
    · exact ⟨hpc.1.extends hx, hpc.2⟩

/-- A page that was not written to is at one place in all checkpoints since. -/
theorem Untouched.quiet {log : List LogEntry} {a b b' ino pgoff : ℕ}
    (h : Untouched log a b' ino pgoff) (hb : b ≤ b') (hin : InRange ino (pgoff * pageSize)) :
    Quiet log a b (pathOf ino (pgoff * pageSize)) := by
  intro l hl hlt hle hlive ent hent hin' hpre
  have hpath : pathOf ino (pgoff * pageSize) = entPath ent := by
    refine hpre.eq_of_length ?_
    rw [entPath, length_pathOf, length_pathOf]
  obtain ⟨hino, hpg⟩ := pathOf_injective hin hin' hpath
  exact h l hl hlt (hle.trans hb) hlive ent hent (hitsPage_iff.2 ⟨hino.symm, hpg.symm⟩)

/-- The page that a thread has mapped is the one its checkpoint leads to, and the
timestamp that it reports lies in the lifetime of the page. -/
def Belongs (s : Lifetimes.State) (task : Task) : Prop :=
  ∀ ino pgoff, Recorded task.thread.workingset ino pgoff →
    ∃ cp, task.thread.checkpoint = some cp ∧ task.thread.checkpointTs = (cp.cpTs : Ts) ∧
      follow s.heap.child cp.root (pathOf ino (pgoff * pageSize)) =
        some (task.mapped ino pgoff) ∧
      ∀ id, task.mapped ino pgoff = .page id → (s.heap.page id).checkpointTs ≤ cp.cpTs ∧
        (cp.cpTs : Ts) < s.heap.obsoletedTs id

/-- **A thread whose call has returned has the pages of its checkpoint mapped.** -/
theorem TaskOk.belongs (h : TaskOk s task) (hi : Lifetimes.Inv s) (hst : Steady s)
    (hpc : task.pc = .user true) : Belongs s task := by
  intro ino pgoff hrec
  obtain ⟨hin, cp₀, hcp₀, hfollow, ⟨cp, hcp, hle⟩, t, ht, hun⟩ := h.pages ino pgoff hrec
  have hpcOk := h.pc
  rw [PcOk, hpc] at hpcOk
  obtain ⟨cp', hcp', t', ht', hle'⟩ := hpcOk
  obtain rfl := Option.some.inj (hcp.symm.trans hcp')
  obtain rfl : t = t' := WithTop.coe_inj.1 (ht.symm.trans ht')
  obtain ⟨hpub, hcpTs⟩ := h.checkpoint cp hcp
  have hat := hst cp₀ hcp₀ cp hpub hle _ _ (hun.quiet hle' hin) hfollow
  refine ⟨cp, hcp, hcpTs, hat, fun id hid => ?_⟩
  rw [hid] at hat
  exact hi.bracketed.lifetime cp hpub id ⟨_, hat⟩

end Tasks

end Mapped
end Sivfs
