/-
# What a thread reads while others commit

A read of a page gives the words that the transactions up to the snapshot have left
(`Sound.updatePage`).  What has ended stays (`Sound.ended`), so it gives them again as long as the
snapshot is kept (`reads_snapshot`).
-/

import Sivfs.Commit.MemorySound

namespace Sivfs
namespace Memory

open Checkpoint (Cp Heap Shared MakeFaults)
open Isolation (Txn contents)

section Machine

variable {ι : Type*} [DecidableEq ι] {s s' : State ι} {a : Commit.Act ι}

/-- **A read gives what the transactions up to the snapshot have left.** -/
theorem Sound.updatePage (h : Sound s) {i : ι} {cp : Cp} {x : ℕ}
    (hcp : (s.held i).checkpoint = some cp) (hprior : (s.held i).priorTs = (cp.cpTs : Ts))
    (hts : (s.commit.threads i).ts = (x : Ts)) {ino off : ℕ} (hin : Checkpoint.InRange ino off)
    (hoff : off % pageSize = 0) :
    ∃ words, Checkpoint.updatePage s.shared ⟨(s.commit.threads i).ts, (s.held i).checkpoint⟩
        ino off = .ok words ∧
      ∀ j < 512, words j = s.commit.wordsAt x (ino, off + wordBytes * j) := by
  have hinv := Checkpoint.reachable_inv h.whole
  have hle : cp.cpTs ≤ x := by
    have hprior' := h.inv.prior i
    rw [hprior, hts] at hprior'
    exact_mod_cast hprior'
  have hx : x ≤ s.commit.ended.length :=
    (Isolation.Sound.of_reachable (Commit.store_reachable h.commit)).snapshot_le i x
      (Commit.snapshotOf_eq_some.2 hts)
  have hended : x ≤ s.whole.log.length := by rwa [State.whole, length_history]
  obtain ⟨words, hread, hpage⟩ := (hinv.threads i cp hcp).updatePage hinv.shared.log hle hended
    hin hoff
  have hshared : s.shared = { s.whole.toShared with log := readable s.commit } := by
    rw [State.shared, State.whole, s.commit.length_ended]
  refine ⟨words, ?_, fun j hj => ?_⟩
  · rw [hcp, hts, hshared]
    exact (updatePage_congr (h.readable_eq (.inr ⟨i, hcp⟩)) x ino off).trans hread
  · have hword : off / pageSize * 512 + j = (off + wordBytes * j) / wordBytes := by
      simp only [pageSize, wordBytes] at hoff ⊢
      omega
    have haligned : (off + wordBytes * j) % wordBytes = 0 := by
      simp only [pageSize, wordBytes] at hoff ⊢
      omega
    have hwhole : ∀ t ∈ s.commit.ended, Commit.Whole t.writes := by
      intro t ht
      obtain ⟨k, hk⟩ := List.mem_iff_getElem?.1 ht
      obtain ⟨-, e, he, rfl⟩ := Commit.exists_of_ended (Commit.invariants h.commit).1 hk
      exact h.inv.words.logged _ e he
    rw [hpage j hj, Store.page, hword]
    exact abs_history hinv.shared.log hwhole hx ino _ haligned

/-- What has ended stays. -/
theorem Sound.ended (h : Sound s) {a : Act ι} (hk : Kept s a)
    (hstep : Memory.step s a = some s') : s.commit.ended <+: s'.commit.ended := by
  cases a with
  | turn a =>
    simp only [Memory.step] at hstep
    split_ifs at hstep
    obtain ⟨c, hc, rfl⟩ := Option.map_eq_some_iff.1 hstep
    have hsim := Commit.step_store h.commit (h.logKept hk) hc
    show s.commit.store.ended <+: c.store.ended
    cases hevent : s.commit.event a with
    | none =>
      rw [hevent] at hsim
      rw [show c.store = s.commit.store from hsim]
    | some b =>
      rw [hevent] at hsim
      exact Isolation.step_ended hsim
  | exchange i =>
    simp only [Memory.step] at hstep
    split_ifs at hstep
    obtain rfl := Option.some.inj hstep
    exact List.prefix_rfl
  | makeCheckpoint faults =>
    obtain rfl := Option.some.inj hstep
    exact List.prefix_rfl

/-- **Reads are of the snapshot, as long as it is kept.**  A thread has snapshot `x`.  Whatever
commits, checkpoints and deletions follow, a read of a page with that snapshot gives the words
that the transactions up to `x` have left. -/
theorem reads_snapshot (hr : (machine ι).ReachableWith Kept s)
    (hrun : (machine ι).RunsWith Kept s s') {i : ι} {x : ℕ}
    (hx : (s.commit.threads i).ts = (x : Ts)) (hx' : (s'.commit.threads i).ts = (x : Ts)) {cp : Cp}
    (hcp : (s'.held i).checkpoint = some cp) (hprior : (s'.held i).priorTs = (cp.cpTs : Ts))
    {ino off : ℕ} (hin : Checkpoint.InRange ino off) (hoff : off % pageSize = 0) :
    ∃ words, Checkpoint.updatePage s'.shared ⟨(s'.commit.threads i).ts, (s'.held i).checkpoint⟩
        ino off = .ok words ∧
      ∀ j < 512, words j = s.commit.wordsAt x (ino, off + wordBytes * j) := by
  obtain ⟨words, hread, hwords⟩ := (sound (hr.trans hrun)).updatePage hcp hprior hx' hin hoff
  have hprefix : s.commit.ended <+: s'.commit.ended :=
    hrun.keeps (R := fun s' => s.commit.ended <+: s'.commit.ended) hr List.prefix_rfl
      fun s₁ a s₂ hr₁ hprefix hk hstep => hprefix.trans ((sound hr₁).ended hk hstep)
  have hle : x ≤ s.commit.ended.length :=
    (Isolation.Sound.of_reachable (Commit.store_reachable (sound hr).commit)).snapshot_le i x
      (Commit.snapshotOf_eq_some.2 hx)
  refine ⟨words, hread, fun j hj => ?_⟩
  rw [hwords j hj, Commit.State.wordsAt,
    Isolation.contents_prefix hprefix hle, ← Commit.State.wordsAt]

end Machine

/-- Two threads, after mounting. -/
def mounted : State Bool where
  commit := Commit.fresh
  heap := ⟨0, fun _ => Checkpoint.blankPage⟩
  latest := ⟨none, 0⟩
  held := fun _ => ⟨none, invalidTs⟩

/-- One thread takes a snapshot and commits a word of file `7`. -/
def commitsWord (v : ℕ) : List (Act Bool) :=
  [.exchange true, .turn (.checkout true), .turn (.begin true [⟨7, 8, 0, 0, v⟩]),
    .turn (.acquire true)] ++ .replicate 10 (.turn (.next true))

/-- A checkpoint is made. -/
def makesCheckpoint : Act Bool :=
  .makeCheckpoint ⟨none, ⟨fun _ => false, fun _ => false⟩, none, none⟩

/-- The other thread takes a snapshot after two commits. -/
def takesSnapshot : List (Act Bool) := commitsWord 5 ++ commitsWord 6 ++
  [makesCheckpoint, .exchange false, .turn (.checkout false)]

/-- A third commit, a further checkpoint and the deletion of the first log entry. -/
def commitsBehind : List (Act Bool) :=
  commitsWord 9 ++ [makesCheckpoint, .turn (.deleteLog 2)]

/-- After `commitsBehind` the other thread still reads what the second commit has written, with
the log entry of the first one gone. -/
theorem reads_snapshot_commitsBehind : ∃ s s' cp, (machine Bool).ReachableWith Kept s ∧
    (machine Bool).RunsWith Kept s s' ∧ (s'.commit.log 1).map Commit.LogEntry.freed = some true ∧
    (s.commit.threads false).ts = ((2 : ℕ) : Ts) ∧ (s'.commit.threads false).ts = ((2 : ℕ) : Ts) ∧
    (s'.held false).checkpoint = some cp ∧ (s'.held false).priorTs = (cp.cpTs : Ts) ∧
    Checkpoint.InRange 7 0 ∧ 0 % pageSize = 0 ∧ s.commit.wordsAt 2 (7, 8) = 6 ∧
    ∃ words, Checkpoint.updatePage s'.shared
        ⟨(s'.commit.threads false).ts, (s'.held false).checkpoint⟩ 7 0 = .ok words ∧
      ∀ j < 512, words j = s.commit.wordsAt 2 (7, 0 + wordBytes * j) := by
  have hsnap : ((machine Bool).run (fun s a => decide (Kept s a)) mounted takesSnapshot).map
      (fun s => ((s.commit.threads false).ts, s.commit.wordsAt 2 (7, 8))) =
      some (((2 : ℕ) : Ts), 6) := by decide +kernel
  have hbehind : (((machine Bool).run (fun s a => decide (Kept s a)) mounted takesSnapshot).bind
      fun s => (machine Bool).run (fun s a => decide (Kept s a)) s commitsBehind).map
      (fun s => ((s.commit.threads false).ts, (s.held false).checkpoint.map Cp.cpTs,
        (s.held false).priorTs, (s.commit.log 1).map Commit.LogEntry.freed)) =
      some (((2 : ℕ) : Ts), some 2, ((2 : ℕ) : Ts), some true) := by decide +kernel
  obtain ⟨s, hs, hsnap⟩ := Option.map_eq_some_iff.1 hsnap
  rw [hs, Option.bind_some] at hbehind
  obtain ⟨s', hs', hbehind⟩ := Option.map_eq_some_iff.1 hbehind
  simp only [Prod.mk.injEq] at hsnap hbehind
  obtain ⟨hts, hword⟩ := hsnap
  obtain ⟨hts', hcp, hprior, hfreed⟩ := hbehind
  obtain ⟨cp, hcp, hcpTs⟩ := Option.map_eq_some_iff.1 hcp
  have hinit : Init mounted :=
    ⟨⟨rfl, rfl, rfl, fun _ => rfl, rfl, rfl, fun _ => rfl⟩, rfl, rfl, fun _ => rfl⟩
  have hok : ∀ (s : State Bool) a, decide (Kept s a) = true → Kept s a := fun _ _ =>
    of_decide_eq_true
  have hr : (machine Bool).ReachableWith Kept s := .run hok (.init hinit) hs
  have hrun : (machine Bool).RunsWith Kept s s' := .run hok .refl hs'
  have hprior' : (s'.held false).priorTs = (cp.cpTs : Ts) := by rw [hprior, hcpTs]
  have hin : Checkpoint.InRange 7 0 := by decide
  exact ⟨s, s', cp, hr, hrun, hfreed, hts, hts', hcp, hprior', hin, by decide, hword,
    reads_snapshot hr hrun hts hts' hcp hprior' hin (by decide)⟩

end Memory
end Sivfs
