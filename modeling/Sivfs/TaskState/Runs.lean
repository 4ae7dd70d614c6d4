/-
# Who keeps the state of a task

The state is freed with the last of its references and is not used afterwards (`owned`), but for
the NULL pointer of a task whose first transaction is aborted (`doomed_select`).
`sivfs_mm_release` frees the anon inodes that nobody has opened and no other
(`mmRelease_frees`); once the notifier is gone and all files are closed, so is the state.
-/

import Sivfs.TaskState.Release

namespace Sivfs
namespace Tasks

open AnonInodes (Workingset DentryPtr Failure Creation Opening AnonInode unreferenced create
  skipRefcount einval eperm)
open Call

variable {ws : Workingset} {ino k held : ℕ} {files : ℕ → ℕ} {t : Task} {s : Slot}
  {inode : AnonInode}

/-! ### The runs -/

/-- **Every call keeps the references**, and has a pointer without a value only if it is doomed. -/
theorem wp_call {s : System} (h : Ok s.slot s.held s.files) {a : Act}
    (henabled : s.enabled a = true) : a.call.wp
      (fun _ slot => Ok (s.after a slot).slot (s.after a slot).held (s.after a slot).files)
      (fun e slot => (e = .badPointer → Doomed s.slot a) ∧ Ok slot s.held s.files) s.slot := by
  cases a with
  | get env =>
    exact wp_mono (wp_getTaskState h env) (fun _ _ hok => hok) fun _ _ he =>
      ⟨fun hno => absurd hno he.1, he.2⟩
  | put =>
    have hheld : s.held = s.held - 1 + 1 := by
      simp only [System.enabled, decide_eq_true_eq] at henabled
      omega
    cases hs : s.slot.task with
    | none => exact absurd (h.gone hs).1 (by omega)
    | some t =>
      have hok := (h.task t hs).1
      rw [hheld] at hok
      exact hok.put hs h.freed
  | select env ino =>
    simp only [System.enabled, decide_eq_true_eq] at henabled
    exact wp_select h henabled env ino
  | check env ino =>
    simp only [System.enabled, decide_eq_true_eq] at henabled
    obtain ⟨inode, hl⟩ := Option.isSome_iff_exists.1 henabled.2
    exact wp_mono (wp_check h hl env) (fun _ _ hok => hok) fun _ _ he =>
      ⟨fun hno => absurd hno he.1, he.2⟩
  | openAnon newFinfo openDirectAccess ino =>
    obtain ⟨inode, hl⟩ := Option.isSome_iff_exists.1 henabled
    exact wp_mono (wp_openAnon h hl newFinfo openDirectAccess) (fun _ _ hok => hok)
      fun _ _ he => ⟨fun hno => absurd hno he.1, he.2⟩
  | release ino =>
    simp only [System.enabled, decide_eq_true_eq] at henabled
    cases hs : s.slot.task with
    | none => exact absurd ((h.gone hs).2 ino) henabled.ne'
    | some t =>
      obtain ⟨hok, hpos⟩ := h.task t hs
      cases hl : t.workingset.anonInodes.lookup ino with
      | none => exact absurd (hok.absent ino hl) henabled.ne'
      | some inode =>
        exact wp_mono (wp_putAnonInode hok hs h.freed hpos hl) (fun _ _ hput => hput)
          fun _ _ hno => hno.elim
  | mmRelease =>
    obtain ⟨t, hs, hregistered⟩ := (Option.any_eq_true _ _).1 henabled
    obtain ⟨t', hcall, hok, -⟩ := mmRelease_eq (h.task t hs).1 hs hregistered
    have hput : Ok ({ s.slot with task := some t' } : Slot).put s.held s.files :=
      hok.put rfl h.freed
    exact (wp_of_ok hcall).2 hput

/-- **The invariant of the calls.** -/
theorem Ok.of_reachable {s : System} (hs : machine.Reachable s) : Ok s.slot s.held s.files := by
  induction hs with
  | init hs =>
    obtain rfl := hs
    exact ⟨by simp, fun _ => ⟨rfl, fun _ => rfl⟩, by simp⟩
  | step a _ _ hstep ih =>
    obtain ⟨henabled, hs'⟩ := Option.ite_none_right_eq_some.1 hstep
    obtain rfl := Option.some.inj hs'
    exact run_of_wp (P := fun s' : System => Ok s'.slot s'.held s'.files) (wp_call ih henabled)
      (fun _ _ hok => hok) fun _ _ hok => hok.2

/-- **A state that nobody uses is not left over.** -/
theorem Ok.task_eq_none (h : Ok s 0 files) (hfiles : ∀ ino, files ino = 0)
    (hregistered : ∀ t, s.task = some t → t.notifierRegistered = false) : s.task = none := by
  cases ht : s.task with
  | none => rfl
  | some t =>
    obtain ⟨hok, hpos⟩ := h.task t ht
    -- An anon inode would not be open, and then the notifier would be registered.
    have hempty : inos t.workingset = ∅ := Finset.eq_empty_of_forall_notMem fun ino hino => by
      obtain ⟨inode, hl⟩ := Option.isSome_iff_exists.1 (mem_inos.1 hino)
      have hun := (hok.counted ino inode hl).unreferenced_iff.2 (hfiles ino)
      exact absurd (hok.watched ino inode hl hun) (by simp [hregistered t ht])
    have hnref := hok.nref
    rw [hempty, hregistered t ht] at hnref
    simp only [Finset.card_empty, Bool.toNat_false] at hnref
    omega

/-- The references to the state of a task. -/
structure Owned (s : System) : Prop where
  /-- The refcount is the number of references, and the refcount of an anon inode that has been
  opened is the number of its open files. -/
  exact : ∀ t, s.slot.task = some t → 0 < t.nref ∧
    t.nref = s.held + (inos t.workingset).card + t.notifierRegistered.toNat ∧
    ∀ ino inode, t.workingset.anonInodes.lookup ino = some inode →
      inode.refcount = if s.files ino = 0 then unreferenced else s.files ino
  /-- No call uses a state that is freed, or an anon inode that is freed; the NULL of the lookup
  is used where a transaction is aborted in which nothing has been opened. -/
  usable : ∀ a, s.enabled a = true → (a.call s.slot).1 = .error .badPointer → Doomed s.slot a
  /-- A state is freed without anon inodes and without its notifier, so that `sivfs_put_state`
  has none to unregister. -/
  clean : ∀ t ∈ s.slot.freed, t.notifierRegistered = false ∧ inos t.workingset = ∅
  /-- A state that nobody uses is not left over. -/
  gone : s.held = 0 → (∀ ino, s.files ino = 0) →
    (∀ t, s.slot.task = some t → t.notifierRegistered = false) → s.slot.task = none

/-- **A state is there as long as it is used, and no longer**: after any calls of a task, however
they end, its refcount is the number of references that calls, anon inodes and the notifier hold;
no call uses a freed state. -/
theorem owned {s : System} (hs : machine.Reachable s) : Owned s := by
  have h := Ok.of_reachable hs
  refine ⟨fun t ht => ?_, fun a henabled hbad => ?_, h.freed, fun hheld hfiles hregistered => ?_⟩
  · obtain ⟨hok, hpos⟩ := h.task t ht
    refine ⟨hpos, hok.nref, fun ino inode hl => ?_⟩
    have hexact := hok.counted ino inode hl
    rw [Exact] at hexact
    split_ifs <;> omega
  · have hcall := wp_call h henabled
    rw [wp_iff] at hcall
    exact (hcall.2 .badPointer _ (Prod.ext hbad rfl)).1 rfl
  · rw [hheld] at h
    exact h.task_eq_none hfiles hregistered

/-- **What `sivfs_mm_release` frees**: in every state in which the address space goes away, exactly
the anon inodes that nobody has opened, and the state if no call holds it and no file is open. -/
theorem mmRelease_frees {s s' : System} (hs : machine.Reachable s)
    (hstep : step s .mmRelease = some s') :
    (∀ ino, s'.slot.anonInode ino = if s.files ino = 0 then none else s.slot.anonInode ino) ∧
    (s'.slot.task = none ↔ s.held = 0 ∧ ∀ ino, s.files ino = 0) ∧
    (∀ t, s'.slot.task = some t → t.notifierRegistered = false) ∧
    s'.held = s.held ∧ s'.files = s.files := by
  have h := Ok.of_reachable hs
  obtain ⟨henabled, hs'⟩ := Option.ite_none_right_eq_some.1 hstep
  obtain ⟨t, ht, hregistered⟩ := (Option.any_eq_true _ _).1 henabled
  obtain ⟨t', hcall, hok, hno, hlookup⟩ := mmRelease_eq (h.task t ht).1 ht hregistered
  have hrun : Act.mmRelease.call.run (fun _ => s.after .mmRelease)
      (fun _ slot => ⟨slot, s.held, s.files⟩) s.slot =
        s.after .mmRelease ({ s.slot with task := some t' } : Slot).put := run_of_ok hcall
  rw [hrun] at hs'
  obtain rfl := Option.some.inj hs'
  have hput : Ok ({ s.slot with task := some t' } : Slot).put s.held s.files := hok.put rfl h.freed
  by_cases hlast : t'.nref - 1 = 0
  · have hfreed : ({ s.slot with task := some t' } : Slot).put =
        ⟨none, { t' with nref := t'.nref - 1 } :: s.slot.freed⟩ := by
      rw [Slot.put]
      exact if_pos hlast
    rw [hfreed] at hput ⊢
    have hgone := hput.gone rfl
    exact ⟨fun ino => by simp [System.after, Slot.anonInode, hgone.2 ino],
      iff_of_true rfl hgone, fun _ hno => absurd hno (by simp [System.after]), rfl, rfl⟩
  · have hkept : ({ s.slot with task := some t' } : Slot).put =
        { s.slot with task := some { t' with nref := t'.nref - 1 } } := by
      rw [Slot.put]
      exact if_neg hlast
    rw [hkept] at hput ⊢
    have hregistered' : ∀ t'', (some { t' with nref := t'.nref - 1 } : Option Task) = some t'' →
        t''.notifierRegistered = false := fun t'' ht'' => by
      obtain rfl := Option.some.inj ht''
      exact hno
    refine ⟨fun ino => ?_, iff_of_false (by simp [System.after]) fun hunused => ?_, hregistered',
      rfl, rfl⟩
    · have hbefore : s.slot.anonInode ino = t.workingset.anonInodes.lookup ino := by
        rw [Slot.anonInode, ht]
        rfl
      rw [hbefore]
      exact hlookup ino
    · rw [hunused.1] at hput
      exact absurd (hput.task_eq_none hunused.2 hregistered') (by simp)

/-- Every call succeeds. -/
def Creating.ok : Creating := ⟨⟨0, 0⟩, true, true, 0, true, 0, 0, 0, 0, false⟩

/-- The anon inodes of 3 and 4 are created, and 3 is opened. -/
def opened : List Act :=
  [.get ⟨0, 0⟩, .select .ok 3, .openAnon 0 0 3, .select .ok 4, .put]

/-- The state before the first call. -/
def unused : System := ⟨⟨none, []⟩, 0, fun _ => 0⟩

theorem reachable_of_run {acts : List Act} {s : System}
    (h : machine.run (fun _ _ => true) unused acts = some s) : machine.Reachable s :=
  Machine.ReachableWith.run (fun _ _ _ => trivial) (.init rfl) h

theorem owned_opened : ∃ s, machine.run (fun _ _ => true) unused opened = some s ∧
    s.slot.task.map Task.nref = some 3 ∧ Owned s := by
  have h : (machine.run (fun _ _ => true) unused opened).map (fun s =>
      s.slot.task.map Task.nref) = some (some 3) := by
    decide +kernel
  obtain ⟨s, hs, h⟩ := Option.map_eq_some_iff.1 h
  exact ⟨s, hs, h, owned (reachable_of_run hs)⟩

/-- With `should_abort` set, `sivfs_d_select_anon_inode` uses a NULL pointer. -/
theorem doomed_select : ∃ s, machine.Reachable s ∧ 0 < s.held ∧
    ((Act.select { Creating.ok with aborted := true } 3).call s.slot).1 = .error .badPointer := by
  have h : (machine.run (fun _ _ => true) unused [.get ⟨0, 0⟩]).map (fun s =>
      (decide (0 < s.held), ((Act.select { Creating.ok with aborted := true } 3).call s.slot).1)) =
        some (true, .error .badPointer) := by
    decide +kernel
  obtain ⟨s, hs, h⟩ := Option.map_eq_some_iff.1 h
  obtain ⟨hheld, hbad⟩ := Prod.mk.inj h
  exact ⟨s, reachable_of_run hs, of_decide_eq_true hheld, hbad⟩

theorem mmRelease_frees_opened : ∃ s s', machine.run (fun _ _ => true) unused opened = some s ∧
    step s .mmRelease = some s' ∧ s'.slot.task.map Task.nref = some 1 ∧
    (∀ ino, s'.slot.anonInode ino = if s.files ino = 0 then none else s.slot.anonInode ino) ∧
    (s'.slot.task = none ↔ s.held = 0 ∧ ∀ ino, s.files ino = 0) ∧
    (∀ t, s'.slot.task = some t → t.notifierRegistered = false) ∧
    s'.held = s.held ∧ s'.files = s.files := by
  have h : ((machine.run (fun _ _ => true) unused opened).bind fun s =>
      (step s .mmRelease).map fun s' => s'.slot.task.map Task.nref) = some (some 1) := by
    decide +kernel
  obtain ⟨s, hs, h⟩ := Option.bind_eq_some_iff.1 h
  obtain ⟨s', hstep, h⟩ := Option.map_eq_some_iff.1 h
  exact ⟨s, s', hs, hstep, h, mmRelease_frees (reachable_of_run hs) hstep⟩

end Tasks
end Sivfs
