/-
# A turn inside `sivfs_commit_changes`

What a turn of the commit protocol means to the calls around it (`Onward`): `master_ts` does not
go back, the snapshots stay as they are, and a thread that reports its commit reports one that
`master_ts` has come to (`Reported`).
-/

import Sivfs.Update.External

namespace Sivfs
namespace External

open Update

/-! ### A turn inside `sivfs_commit_changes` -/

section Shared

variable {ι : Type*} {s s' : Commit.State ι}

/-- The threads that are about to report have been released. -/
def Reported (s : Commit.State ι) : Prop := ∀ i n, s.pc i = .report n → n ≤ s.masterTs

/-- What the calls need to know of the commit protocol. -/
structure Onward (s s' : Commit.State ι) : Prop where
  master_le : s.masterTs ≤ s'.masterTs
  ts : ∀ j, (s'.threads j).ts = (s.threads j).ts
  reported : Reported s → Reported s'

/-- A move inside the validation does not end in the report. -/
theorem moves_ne_report {i : ι} {p p' : Commit.Pc} (h : Commit.Moves s i p p') (n : ℕ) :
    p' ≠ .report n := by
  cases h <;> simp

/-- Nor does a store to the entry. -/
theorem stores_ne_report {n : ℕ} {own own' : Commit.LogEntry} {p p' : Commit.Pc}
    (h : Commit.Stores s n own p p' own') (m : ℕ) : p' ≠ .report m := by
  cases h <;> simp

variable [DecidableEq ι]

/-- A turn that looks at an entry leaves the snapshots alone, if its continuation does. -/
theorem withEntry_ts {i j : ι} {t : ℕ} {k : Commit.LogEntry → Commit.State ι}
    (hk : ∀ e, ((k e).threads j).ts = (s.threads j).ts) :
    ((s.withEntry i t k).threads j).ts = (s.threads j).ts := by
  unfold Commit.State.withEntry
  rcases s.deref t with _ | e
  · exact s.goto_ts i j _
  · exact hk e

/-- No turn of a commit changes a snapshot: that is done by `sivfs_update`, after it. -/
theorem commitNext_ts {i : ι} (h : Commit.next s i = some s') (j : ι) :
    (s'.threads j).ts = (s.threads j).ts := by
  unfold Commit.next at h
  rcases hp : (s.threads i).pc with
    _ | ws | ws | ⟨ws, n, _ | _ | _ | _ | _⟩ | n | n | ⟨n, c⟩ | ⟨n, c⟩ | ⟨n, c⟩ | ⟨n, c⟩ | ⟨n, c⟩ |
    n | n | n | n | _ <;>
    simp only [hp, reduceCtorEq, Option.some.injEq] at h
  case create =>
    split_ifs at h
    obtain rfl := Option.some.inj h
    exact Commit.State.goto_ts _ i j _
  case write.started | write.unlock | check | lookup =>
    subst h
    exact Commit.State.goto_ts _ i j _
  case write.copy | write.stamp | write.clear | visit | follow | peek | abort | fill | report =>
    subst h
    exact withEntry_ts fun e => Commit.State.goto_ts _ i j _
  case compare =>
    subst h
    refine withEntry_ts fun own => withEntry_ts fun e => ?_
    split_ifs
    · exact Commit.State.goto_ts _ i j _
    · exact Commit.State.goto_ts _ i j _
  case visited =>
    subst h
    exact withEntry_ts fun own => withEntry_ts fun e => Commit.State.goto_ts _ i j _
  case release =>
    split_ifs at h
    obtain rfl := Option.some.inj h
    exact Commit.State.goto_ts _ i j _

/-- A thread may go on to its report once `master_ts` has come to its commit. -/
theorem Reported.goto {s₁ : Commit.State ι} {i : ι} {p : Commit.Pc} (h : Reported s)
    (hm : s₁.masterTs = s.masterTs) (hthr : s₁.threads = s.threads)
    (hp : ∀ n, p = .report n → n ≤ s.masterTs) : Reported (s₁.goto i p) := by
  intro j n hj
  rw [Commit.State.goto_masterTs, hm]
  by_cases hji : j = i
  · subst hji
    rw [Commit.State.goto_pc_self] at hj
    exact hp n hj
  · rw [s₁.goto_pc_of_ne p hji, Commit.State.pc, hthr] at hj
    exact h j n hj

/-- **A turn of a commit** moves `master_ts` forward if it releases, and nothing else that the
calls look at. -/
theorem Onward.next {i : ι} (h : Commit.next s i = some s') : Onward s s' := by
  refine ⟨?_, commitNext_ts h, fun hr => ?_⟩
  · cases Commit.next_turn h with
    | @release i n _ hm =>
      show s.masterTs ≤ n
      omega
    | _ => exact le_rfl
  · cases Commit.next_turn h with
    | snapshot i ts hpc _ =>
      intro j n hj
      rw [Commit.State.snapshot_pc hpc] at hj
      exact hr j n hj
    | move hm => exact hr.goto rfl rfl fun n hp => absurd hp (moves_ne_report hm n)
    | store _ hs => exact hr.goto rfl rfl fun n hp => absurd hp (stores_ne_report hs n)
    | acquire _ _ => exact hr.goto rfl rfl (by simp)
    | createFails _ => exact hr.goto rfl rfl (by simp)
    | create _ => exact hr.goto rfl rfl (by simp)
    | started _ => exact hr.goto rfl rfl (by simp)
    | unlock _ => exact hr.goto rfl rfl (by simp)
    | @release i n _ hm =>
      intro j m hj
      show m ≤ n
      by_cases hji : j = i
      · subst hji
        rw [Commit.State.goto_pc_self] at hj
        simp only [Commit.Pc.report.injEq] at hj
        omega
      · rw [Commit.State.goto_pc_of_ne _ _ hji] at hj
        have := hr j m hj
        omega
    | delete stop _ => exact hr

/-- A turn that only moves one thread, and not to its report. -/
theorem Onward.goto {s₁ : Commit.State ι} {i : ι} {p : Commit.Pc}
    (hm : s₁.masterTs = s.masterTs) (hthr : s₁.threads = s.threads) (hp : ∀ n, p ≠ .report n) :
    Onward s (s₁.goto i p) := by
  refine ⟨by rw [Commit.State.goto_masterTs, hm], fun j => ?_, fun hr => ?_⟩
  · rw [s₁.goto_ts, hthr]
  · exact hr.goto hm hthr fun n h => absurd h (hp n)

/-- A commit begins. -/
theorem Onward.begin {i : ι} {ws : List WsEntry} (h : Commit.step s (.begin i ws) = some s') :
    Onward s s' := by
  simp only [Commit.step] at h
  split_ifs at h
  obtain rfl := Option.some.inj h
  exact .goto rfl rfl (by simp)

/-- A thread gets `commit_lock`. -/
theorem Onward.acquire {i : ι} (h : Commit.step s (.acquire i) = some s') : Onward s s' := by
  simp only [Commit.step] at h
  split at h
  · split_ifs at h
    obtain rfl := Option.some.inj h
    exact .goto rfl rfl (by simp)
  · simp at h

/-- A thread that waits for `commit_lock` is interrupted. -/
theorem Onward.interrupt {i : ι} (h : Commit.step s (.interrupt i) = some s') : Onward s s' := by
  simp only [Commit.step] at h
  split at h
  · obtain rfl := Option.some.inj h
    exact .goto rfl rfl (by simp)
  · simp at h

/-- `sivfs_create_log_entry` fails. -/
theorem Onward.createFails {i : ι} (h : Commit.step s (.createFails i) = some s') :
    Onward s s' := by
  simp only [Commit.step] at h
  split at h
  · obtain rfl := Option.some.inj h
    exact .goto rfl rfl (by simp)
  · simp at h

/-- Entries are freed; the counters stay. -/
theorem Onward.deleteLog {stop : ℕ} (h : Commit.step s (.deleteLog stop) = some s') :
    Onward s s' := by
  simp only [Commit.step] at h
  split_ifs at h
  obtain rfl := Option.some.inj h
  exact ⟨le_rfl, fun _ => rfl, fun hr => hr⟩

end Shared

end External
end Sivfs
