/-
# A mapped page belongs to the checkpoint checked out

Runs of the machine of `Sivfs.Update.Mapped`.  Each step keeps `TaskOk` of the thread that
takes it, and what the threads share only grows (`Inv.extends`), so `Inv` holds in every state
of a run in which no write-set is cut short (`Inv.step`, `mapped_belongs`).  The run of
`not_mapped_belongs_truncated` has one that is.
-/

import Sivfs.Update.MappedCalls

open PathCopy

namespace Sivfs
namespace Mapped

open Checkpoint
open Update (Workingset Resident Env Txn sivfsFindVma submit CutShort)

/-! ### Whole runs -/

section Runs

variable {ι : Type*}

/-- The words that a call submits were stored first. -/
def StoredFirst (s : State ι) : Act ι → Prop
  | .commitWrites i env (some ws) _ => storedFirst env.mm (s.tasks i).thread.workingset ws = true
  | _ => True

/-- The write-set that a call submits is not cut short. -/
def Uncut : Act ι → Prop
  | .commitWrites _ env (some ws) _ => ¬CutShort env.mm env.iSize ws
  | _ => True

/-- What every step keeps. -/
structure Inv (s : State ι) : Prop where
  shared : Lifetimes.Inv s.toState
  steady : Steady s.toState
  tasks : ∀ i, TaskOk s.toState (s.tasks i)

variable [DecidableEq ι] {s s' : State ι}

/-- A thread goes on. -/
theorem Inv.setTask (h : Inv s) (i : ι) {task : Task} (ht : TaskOk s.toState task) :
    Inv (s.setTask i task) := by
  refine ⟨h.shared, h.steady, fun j => ?_⟩
  by_cases hj : j = i
  · subst hj
    simpa only [State.setTask, Function.update_self] using ht
  · simpa only [State.setTask, Function.update_of_ne hj] using h.tasks j

omit [DecidableEq ι] in
/-- The company goes on. -/
theorem Inv.extends (h : Inv s) {sh : Lifetimes.State} (hi : Lifetimes.Inv sh) (hst : Steady sh)
    (hx : Extends s.toState sh) : Inv (⟨sh, s.tasks⟩ : State ι) :=
  ⟨hi, hst, fun i => (h.tasks i).extends hx⟩

/-- **Every step keeps the invariant**, if no write-set is cut short. -/
theorem Inv.step (h : Inv s) {a : Act ι} (hstored : StoredFirst s a) (hcut : Uncut a)
    (hstep : step s a = some s') : Inv s' := by
  cases a with
  | shared a =>
    obtain ⟨sh, hsh, rfl⟩ := Option.map_eq_some_iff.1 hstep
    rcases h.shared.turn hsh with ⟨l, hl, rfl⟩ | hm | hm
    · exact h.extends (h.shared.step hsh) (h.steady.append l) (extends_append hl)
    · exact h.extends (h.shared.step hsh) (h.steady.makes h.shared hm) (extends_makes h.shared hm)
    · exact h.extends (h.shared.step hsh) (h.steady.moves hm) (extends_moves hm)
  | fault i write ino pgoff =>
    cases hpc : (s.tasks i).pc with
    | user returned =>
      simp only [Mapped.step, hpc] at hstep
      obtain ⟨task, htask, rfl⟩ := Option.map_eq_some_iff.1 hstep
      exact h.setTask i ((h.tasks i).fault h.shared ⟨returned, hpc⟩ htask)
    | committed => simp [Mapped.step, hpc] at hstep
    | checkedOut => simp [Mapped.step, hpc] at hstep
  | store i ino pgoff j value =>
    cases hpc : (s.tasks i).pc with
    | user returned =>
      simp only [Mapped.step, hpc] at hstep
      obtain ⟨task, htask, rfl⟩ := Option.map_eq_some_iff.1 hstep
      exact h.setTask i ((h.tasks i).store ⟨returned, hpc⟩ htask)
    | committed => simp [Mapped.step, hpc] at hstep
    | checkedOut => simp [Mapped.step, hpc] at hstep
  | commitWrites i env ws abort =>
    cases hpc : (s.tasks i).pc with
    | user returned =>
      simp only [Mapped.step, hpc] at hstep
      obtain rfl := Option.some.inj hstep
      have hwhole : Whole (s.tasks i).thread.workingset env ws := by
        rintro ws' rfl
        exact ⟨hstored, hcut⟩
      rcases hres : commitWrites s.toShared (s.tasks i) env ws abort with ⟨task, entry⟩
      obtain ⟨hts, htask⟩ := (h.tasks i).commitWrites h.shared hwhole hres
      refine Inv.setTask ?_ i htask
      cases entry with
      | none => exact h
      | some l =>
        exact h.extends (h.shared.commit l (hts l rfl)) (h.steady.append l)
          (extends_append (hts l rfl))
    | committed => simp [Mapped.step, hpc] at hstep
    | checkedOut => simp [Mapped.step, hpc] at hstep
  | checkOut i env =>
    cases hpc : (s.tasks i).pc with
    | committed commitTs aborted =>
      simp only [Mapped.step, hpc] at hstep
      obtain rfl := Option.some.inj hstep
      exact h.setTask i ((h.tasks i).checkOut h.shared hpc)
    | user => simp [Mapped.step, hpc] at hstep
    | checkedOut => simp [Mapped.step, hpc] at hstep
  | takeSnapshot i env =>
    cases hpc : (s.tasks i).pc with
    | checkedOut commitTs checkpointTs =>
      simp only [Mapped.step, hpc] at hstep
      obtain rfl := Option.some.inj hstep
      exact h.setTask i ((h.tasks i).takeSnapshot h.shared hpc)
    | user => simp [Mapped.step, hpc] at hstep
    | committed => simp [Mapped.step, hpc] at hstep

omit [DecidableEq ι] in
theorem Init.inv (h : Init s) : Inv s := by
  obtain ⟨h, hfresh⟩ := h
  have hi := Lifetimes.Init.inv h
  refine ⟨hi, fun c hc c' hc' _ ρ x _ hx => ?_, fun i => ?_⟩
  · rw [h.2.1, List.mem_singleton] at hc hc'
    rw [hc', ← hc]
    exact hx
  · have hf := hfresh i
    refine ⟨hf.directAccess, fun cp hcp => ?_, fun _ => hf.checkpointTs, fun t ht => ?_,
      fun ino pgoff hrec => ?_, ?_⟩
    · rw [hf.checkpoint] at hcp
      simp at hcp
    · rw [hf.ts] at ht
      exact absurd ht.symm WithTop.coe_ne_top
    · obtain ⟨r, hr, -⟩ := hrec
      simp [hf.workingset] at hr
    · rw [PcOk, hf.pc]
      trivial

/-- **Mapped checkpoint pages belong to the checked-out checkpoint.**  In every run of
faults, commits, checkpoints and calls whose words were stored first and whose write-sets
are not cut short, when the last call of a thread has returned `0`, each page that the
thread has recorded is the one that its checkpoint leads to, and the timestamp that it
reports to the collector lies in the lifetime of the page. -/
theorem mapped_belongs
    (h : (machine ι).ReachableWith (fun s a => StoredFirst s a ∧ Uncut a) s) {i : ι}
    (hpc : (s.tasks i).pc = .user true) : Belongs s.toState (s.tasks i) := by
  have hi : Inv s := h.invariant (I := fun s => Inv s) (fun _ hs => Init.inv hs)
    fun _ _ _ _ hi hc hstep => hi.step hc.1 hc.2 hstep
  exact (hi.tasks i).belongs hi.shared hi.steady hpc

end Runs

/-- One thread, after mounting. -/
def mounted : State Unit where
  toState := Lifetimes.mounted
  tasks := fun _ =>
    ⟨⟨⟨invalidTs, none⟩, invalidTs, invalidTs, false, fun _ _ => none, [], [], false⟩,
    .user false, fun _ _ => .zero 0⟩

/-- The phases of a call without company, in which file `7` has `size` bytes and one page
of it is mapped at `0x10000`. -/
def call (size : ℕ) (ws : Option (List WsEntry)) : List (Act Unit) :=
  let env := Update.alone (Update.pageOf 7 0) fun _ _ => size
  [.commitWrites () env ws false, .checkOut () env, .takeSnapshot () env]

/-- A checkpoint is made without running out of memory. -/
def newCheckpoint : Act Unit :=
  .shared (.makeCheckpoint ⟨none, ⟨fun _ => false, fun _ => false⟩, none, none⟩)

/-- The thread has a page of file `99` mapped from checkpoint `1`.  It stores to file `7`,
which has `size` bytes, and submits the store with user bytes that name the page of file
`99`; then it moves to checkpoint `2`. -/
def strayCommit (size : ℕ) : List (Act Unit) :=
  [.shared (.commit false [⟨99, 0, 0, 0, 7⟩]), newCheckpoint] ++ call size none ++
  [.fault () false 99 0, .fault () true 7 0, .store () 7 0 0 5] ++
  call size (some [⟨99, 0, 65536, 0, 5⟩]) ++ [newCheckpoint] ++ call size none

/-- Whether the words of a step were stored first. -/
def storedB (s : State Unit) : Act Unit → Bool
  | .commitWrites i env (some ws) _ => storedFirst env.mm (s.tasks i).thread.workingset ws
  | _ => true

/-- Whether the tagging loop is not left early. -/
def uncutB : Act Unit → Bool
  | .commitWrites _ env (some ws) _ => (Update.addMetadataLoop env.mm env.iSize ws).2 ≠ .stopped
  | _ => true

theorem storedFirst_of_storedB {s : State Unit} {a : Act Unit} (h : storedB s a = true) :
    StoredFirst s a := by
  cases a with
  | commitWrites i env ws abort =>
    cases ws with
    | none => trivial
    | some ws => exact h
  | _ => trivial

theorem uncut_of_uncutB {a : Act Unit} (h : uncutB a = true) : Uncut a := by
  cases a with
  | commitWrites i env ws abort =>
    cases ws with
    | none => trivial
    | some ws =>
      rintro ⟨pre, ent, post, rfl, hpre, hent⟩
      simp [uncutB, Update.addMetadataLoop_of_cutShort post hpre hent] at h
  | _ => trivial

/-- What the thread has mapped at the start of file `99`, and what its checkpoint leads
to. -/
def State.look (s : State Unit) : Pc × Option Bool × Ref × Option (Option Ref) :=
  ((s.tasks ()).pc, ((s.tasks ()).thread.workingset 99 0).map Resident.checkpoint,
    (s.tasks ()).mapped 99 0,
    (s.tasks ()).thread.checkpoint.map fun cp => follow s.heap.child cp.root (pathOf 99 0))

theorem init_mounted : (machine Unit).init mounted :=
  ⟨⟨rfl, rfl, rfl, fun _ => rfl, rfl⟩, fun _ => ⟨rfl, rfl, rfl, rfl, fun _ _ => rfl, rfl⟩⟩

/-- With a page in file `7` the store goes there, and the page of file `99` is that of
both checkpoints. -/
theorem mapped_belongs_tagged : ∃ s,
    (machine Unit).ReachableWith (fun s a => StoredFirst s a ∧ Uncut a) s ∧
    s.look = (.user true, some true, .page 6, some (some (.page 6))) ∧
    Belongs s.toState (s.tasks ()) := by
  have h : ((machine Unit).run (fun s a => storedB s a && uncutB a) mounted
      (strayCommit 4096)).map State.look =
      some (.user true, some true, .page 6, some (some (.page 6))) := by decide +kernel
  obtain ⟨s, hs, hlook⟩ := Option.map_eq_some_iff.1 h
  have hreach : (machine Unit).ReachableWith (fun s a => StoredFirst s a ∧ Uncut a) s := by
    refine Machine.ReachableWith.run (fun s a hok => ?_) (.init init_mounted) hs
    obtain ⟨hstored, huncut⟩ := Bool.and_eq_true_iff.1 hok
    exact ⟨storedFirst_of_storedB hstored, uncut_of_uncutB huncut⟩
  exact ⟨s, hreach, hlook, mapped_belongs hreach (congrArg Prod.fst hlook)⟩

/-- With file `7` truncated the store goes to file `99`, and the thread still has page
`6` of checkpoint `1` mapped when it has moved to checkpoint `2`. -/
theorem not_mapped_belongs_truncated : ∃ s, (machine Unit).ReachableWith StoredFirst s ∧
    (s.tasks ()).pc = .user true ∧ ¬Belongs s.toState (s.tasks ()) := by
  have h : ((machine Unit).run storedB mounted (strayCommit 0)).map State.look =
      some (.user true, some true, .page 6, some (some (.page 13))) := by decide +kernel
  obtain ⟨s, hs, hlook⟩ := Option.map_eq_some_iff.1 h
  simp only [State.look, Prod.mk.injEq] at hlook
  obtain ⟨hpc, hrec, hmapped, hfollow⟩ := hlook
  refine ⟨s, Machine.ReachableWith.run (fun s a => storedFirst_of_storedB) (.init init_mounted) hs,
    hpc, fun hb => ?_⟩
  obtain ⟨cp, hcp, -, hat, -⟩ := hb 99 0 (Option.map_eq_some_iff.1 hrec)
  rw [hcp, Option.map_some, Option.some.injEq] at hfollow
  have hsame := hfollow.symm.trans hat
  rw [hmapped] at hsame
  simp at hsame

end Mapped
end Sivfs
