/-
# Write-sets of whole words

What the turns of the commit protocol leave alone: only `sivfs_delete_log` frees entries
(`step_freed`), and a turn of one thread is no turn of another (`next_framed`).  So if every call
begins with a write-set of whole words, every write-set that a thread carries and every entry of
the log has whole words (`WholeWords.turn`).
-/

import Sivfs.Commit.Isolation

namespace Sivfs
namespace Commit

/-! ### Write-sets of whole words -/

/-- The write-set is of whole words. -/
def Whole (ws : List WsEntry) : Prop := ∀ ent ∈ ws, ent.fileOffset % wordBytes = 0

/-- The write-set that a thread has yet to copy to its entry. -/
def Pc.carries : Pc → Option (List WsEntry)
  | .lock ws | .create ws | .write ws _ _ => some ws
  | _ => none

section Turn

variable {ι : Type*} [DecidableEq ι] {s s' : State ι} {a : Act ι} {i : ι} {t : ℕ}
  {ws : List WsEntry} {e' : LogEntry}

/-- Every entry that is freed was freed before. -/
def FreesNothing (s s' : State ι) : Prop :=
  ∀ t e', s'.log t = some e' → e'.freed = true → ∃ e, s.log t = some e ∧ e.freed = true

omit [DecidableEq ι] in
theorem FreesNothing.refl (s : State ι) : FreesNothing s s := fun _ e' he' hf => ⟨e', he', hf⟩

omit [DecidableEq ι] in
/-- A store to an entry that is still there. -/
theorem freesNothing_setEntry {own own' : LogEntry} (hown : s.deref t = some own)
    (hf : own'.freed = own.freed) : FreesNothing s (s.setEntry t own') := by
  intro u e' he' hfree
  by_cases hut : u = t
  · subst hut
    rw [State.setEntry_log_self] at he'
    obtain rfl := Option.some.inj he'
    rw [hf, (State.deref_eq_some.1 hown).2] at hfree
    cases hfree
  · rw [s.setEntry_log_of_ne own' hut] at he'
    exact ⟨e', he', hfree⟩

omit [DecidableEq ι] in
/-- A new entry, linked to the last one. -/
theorem freesNothing_create (n : ℕ) (snap : Ts) : FreesNothing s (s.createLogEntry n snap) := by
  intro u e' he' hfree
  rw [createLogEntry_log] at he'
  split_ifs at he'
  · obtain rfl := Option.some.inj he'
    cases hfree
  · rw [State.linkLatest] at he'
    split_ifs at he'
    · obtain ⟨e, he, rfl⟩ := Option.map_eq_some_iff.1 he'
      exact ⟨e, he, hfree⟩
    · exact ⟨e', he', hfree⟩

/-- A read of an entry goes on, or faults. -/
theorem withEntry_frame {P : State ι → Prop} {k : LogEntry → State ι} (h : s.withEntry i t k = s')
    (hfault : P (s.goto i .fault)) (hk : ∀ e, s.deref t = some e → P (k e)) : P s' := by
  subst h
  rw [State.withEntry]
  split
  · exact hk _ ‹_›
  · exact hfault

/-- Thread `i` has freed nothing and has not called `sivfs_commit_changes`. -/
structure Framed (s : State ι) (i : ι) (s' : State ι) : Prop where
  freesNothing : FreesNothing s s'
  begins : ∀ ws, s'.pc i ≠ .lock ws

/-- What a thread does in `sivfs_commit_changes`. -/
theorem next_framed (h : next s i = some s') : Framed s i s' := by
  have hgoto : ∀ {s₁ : State ι} {p : Pc}, FreesNothing s s₁ → (∀ ws, p ≠ .lock ws) →
      Framed s i (s₁.goto i p) := fun hf hp => ⟨hf, by rwa [State.goto_pc_self]⟩
  have hfault : Framed s i (s.goto i .fault) := hgoto (.refl s) (by simp)
  unfold next at h
  rcases hp : (s.threads i).pc with
    _ | ws | ws | ⟨ws, n, _ | _ | _ | _ | _⟩ | n | n | ⟨n, c⟩ | ⟨n, c⟩ | ⟨n, c⟩ | ⟨n, c⟩ | ⟨n, c⟩ |
    n | n | n | n | _ <;>
    simp only [hp, reduceCtorEq, Option.some.injEq] at h
  case create =>
    split_ifs at h
    obtain rfl := Option.some.inj h
    exact hgoto (freesNothing_create _ _) (by simp)
  case write.started | write.unlock =>
    subst h
    exact hgoto (.refl s) (by simp)
  case write.copy | write.stamp | write.clear | abort | fill =>
    refine withEntry_frame h hfault fun own hown => hgoto (freesNothing_setEntry hown ?_) ?_
    · rfl
    · simp
  case check | lookup =>
    subst h
    refine hgoto (.refl s) ?_
    split_ifs <;> simp
  case visit | peek =>
    refine withEntry_frame h hfault fun e _ => hgoto (.refl s) ?_
    split_ifs <;> simp
  case report => exact withEntry_frame h hfault fun e _ => hgoto (.refl s) (by simp)
  case follow =>
    refine withEntry_frame h hfault fun e _ => hgoto (.refl s) ?_
    split <;> simp
  case visited =>
    refine withEntry_frame h hfault fun own _ => withEntry_frame rfl hfault fun e _ => ?_
    refine hgoto (.refl s) ?_
    split_ifs <;> simp
  case compare =>
    refine withEntry_frame h hfault fun own hown => withEntry_frame rfl hfault fun e _ => ?_
    split_ifs
    · exact hgoto (freesNothing_setEntry hown rfl) (by simp)
    · exact hgoto (.refl s) (by simp)
  case release =>
    split_ifs at h
    obtain rfl := Option.some.inj h
    exact hgoto (.refl s) (by simp)

/-- **Only `sivfs_delete_log` frees entries.** -/
theorem step_freed (h : step s a = some s') (he' : s'.log t = some e') (hf : e'.freed = true) :
    (∃ e, s.log t = some e ∧ e.freed = true) ∨ ∃ stop, a = .deleteLog stop ∧ t < stop := by
  cases a with
  | checkout i | pause i | begin i ws =>
    simp only [step] at h
    split_ifs at h
    obtain rfl := Option.some.inj h
    exact .inl ⟨e', he', hf⟩
  | interrupt i | createFails i =>
    simp only [step] at h
    split at h
    · obtain rfl := Option.some.inj h
      exact .inl ⟨e', he', hf⟩
    · simp at h
  | acquire i =>
    simp only [step] at h
    split at h
    · split_ifs at h
      obtain rfl := Option.some.inj h
      exact .inl ⟨e', he', hf⟩
    · simp at h
  | next i => exact .inl ((next_framed h).freesNothing t e' he' hf)
  | deleteLog stop =>
    simp only [step] at h
    split_ifs at h
    obtain rfl := Option.some.inj h
    obtain ⟨e, he, rfl⟩ := Option.map_eq_some_iff.1 he'
    split_ifs at hf with hlt
    · exact .inr ⟨stop, rfl, hlt⟩
    · exact .inl ⟨e, he, hf⟩

/-- A thread waits for the lock because it did so before or has called `sivfs_commit_changes`. -/
theorem step_lock (h : step s a = some s') (hp : s'.pc i = .lock ws) :
    s.pc i = .lock ws ∨ a = .begin i ws := by
  by_cases hi : a.thread = some i
  · cases a with
    | next j =>
      obtain rfl := Option.some.inj hi
      exact absurd hp ((next_framed h).begins ws)
    | begin j ws' =>
      obtain rfl := Option.some.inj hi
      simp only [step] at h
      split_ifs at h
      obtain rfl := Option.some.inj h
      rw [State.goto_pc_self] at hp
      obtain rfl := Pc.lock.inj hp
      exact .inr rfl
    | checkout j | pause j =>
      simp only [step] at h
      split_ifs at h with hidle
      obtain rfl := Option.some.inj h
      exact .inl (State.snapshot_pc hidle _ i ▸ hp)
    | interrupt j | createFails j =>
      obtain rfl := Option.some.inj hi
      simp only [step] at h
      split at h
      · obtain rfl := Option.some.inj h
        rw [State.goto_pc_self] at hp
        cases hp
      · simp at h
    | acquire j =>
      obtain rfl := Option.some.inj hi
      simp only [step] at h
      split at h
      · split_ifs at h
        obtain rfl := Option.some.inj h
        rw [State.goto_pc_self] at hp
        cases hp
      · simp at h
    | deleteLog stop => cases hi
  · exact .inl (step_pc_of_ne h hi ▸ hp)

omit [DecidableEq ι] in
/-- The turns that the store sees, and all others. -/
theorem event_cases (s : State ι) (a : Act ι) :
    (∃ i, a = .checkout i) ∨ (∃ i, a = .pause i) ∨
      (∃ i n own, s.log n = some own ∧ a = .next i ∧
        s.event a = some (.finish i own.ws (!own.aborted))) ∨
      (∀ i, a ≠ .checkout i ∧ a ≠ .pause i) ∧ s.event a = none := by
  cases a with
  | checkout i => exact .inl ⟨i, rfl⟩
  | pause i => exact .inr (.inl ⟨i, rfl⟩)
  | next i =>
    by_cases hpc : ∃ n, s.pc i = .release n
    · obtain ⟨n, hpc⟩ := hpc
      cases hown : s.log n with
      | none => exact .inr (.inr (.inr ⟨by simp, by simp [State.event, hpc, hown]⟩))
      | some own =>
        exact .inr (.inr (.inl ⟨i, n, own, hown, rfl, by simp [State.event, hpc, hown]⟩))
    · refine .inr (.inr (.inr ⟨by simp, ?_⟩))
      rw [State.event]
      split
      · rename_i n hn
        exact absurd ⟨n, hn⟩ hpc
      · rfl
  | _ => exact .inr (.inr (.inr ⟨by simp, rfl⟩))

/-- Every write-set that is carried or in the log is of whole words. -/
structure WholeWords (s : State ι) : Prop where
  carried : ∀ i ws, (s.pc i).carries = some ws → Whole ws
  logged : ∀ t e, s.log t = some e → Whole e.ws

/-- A thread goes on with the write-set that it carries, or has been called with one. -/
theorem carries_goto {s₁ : State ι} {j : ι} {p : Pc} (hthr : s₁.threads = s.threads)
    (hp : ∀ ws, p.carries = some ws → (s.pc j).carries = some ws ∨ p = .lock ws)
    (hi : ((s₁.goto j p).pc i).carries = some ws) :
    (s.pc i).carries = some ws ∨ (s₁.goto j p).pc i = .lock ws := by
  by_cases hij : i = j
  · subst hij
    rw [State.goto_pc_self] at hi ⊢
    exact hp ws hi
  · rw [State.goto_pc_of_ne _ _ hij, State.pc, hthr] at hi
    exact .inl hi

/-- **No turn carries anything new**, but a call of `sivfs_commit_changes`. -/
theorem Turn.carries (ht : Turn s s') (hi : (s'.pc i).carries = some ws) :
    (s.pc i).carries = some ws ∨ s'.pc i = .lock ws := by
  cases ht with
  | snapshot j ts hpc _ => exact .inl (State.snapshot_pc hpc ts i ▸ hi)
  | @move j p hm =>
    refine carries_goto rfl (fun ws hws => ?_) hi
    generalize s.pc j = q at hm
    cases hm with
    | begin => exact .inr (congrArg Pc.lock (Option.some.inj hws))
    | _ => cases hws
  | @store j n own own' p hown hs =>
    refine carries_goto rfl (fun ws hws => .inl ?_) hi
    generalize s.pc j = q at hs
    cases hs with
    | copy | stamp | clear => exact hws
    | _ => cases hws
  | acquire hpc _ | create hpc | started hpc =>
    refine carries_goto rfl (fun ws hws => .inl ?_) hi
    rwa [hpc]
  | createFails | unlock | release => exact carries_goto rfl (fun ws hws => by cases hws) hi
  | delete => exact .inl hi

/-- A turn brings no other write-set than one that `sivfs_commit_changes` is called with. -/
theorem WholeWords.turn (hc : Ctl s) (h : WholeWords s) (ht : Turn s s')
    (hnew : ∀ i ws, s'.pc i = .lock ws → s.pc i = .lock ws ∨ Whole ws) : WholeWords s' := by
  refine ⟨fun i ws hi => ?_, fun t e' he' => ?_⟩
  · rcases ht.carries hi with hold | hlock
    · exact h.carried i ws hold
    · refine (hnew i ws hlock).elim (fun hold => h.carried i ws ?_) id
      rw [hold]
      rfl
  · rcases ht.entry hc he' with ⟨own, hown, hs⟩ | ⟨i, own, hown, hs⟩ | ⟨-, -, hws⟩
    · rw [hs.ws]
      exact h.logged t own hown
    · have hcarried := h.carried i
      generalize s.pc i = p, s'.pc i = p' at hs hcarried
      cases hs with
      | copy ws => exact hcarried ws rfl
      | _ => exact h.logged t own hown
    · rw [hws]
      exact fun ent hent => absurd hent List.not_mem_nil

end Turn

end Commit
end Sivfs
