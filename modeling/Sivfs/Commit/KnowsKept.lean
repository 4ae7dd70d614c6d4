/-
# What is known stays true

A turn keeps `Facts`: one that stores to no entry by what the thread learns from it
(`Facts.goto`), and one that stores by how little it changes for the others (`Facts.store`): the
entry is the thread's own, and its abort flag goes up or its write-set is not read yet.
-/

import Sivfs.Commit.Validation

namespace Sivfs
namespace Commit

section Validation

variable {ι : Type*} [DecidableEq ι] {s s' : State ι}

/-- A turn of thread `i` that stores to no log entry. -/
theorem Facts.goto (hc : Ctl s) (hf : Facts s) (s₁ : State ι) (hlog : s₁.log = s.log)
    (hthr : s₁.threads = s.threads) {i : ι} {p : Pc}
    (h : ∀ n own, p.owned = some n → s.log n = some own →
      (s.pc i).owned = some n ∧ s.pc i ≠ .release n ∧ Knows s own p) : Facts (s₁.goto i p) := by
  have hpc : ∀ {j}, j ≠ i → (s₁.goto i p).pc j = s.pc j := by
    intro j hj
    rw [s₁.goto_pc_of_ne p hj, State.pc, State.pc, hthr]
  refine hf.of_same hc (fun t e he => ?_) fun j n own hj hn => ?_
  · rw [State.goto_log, hlog] at he
    exact .inl ⟨e, he, .refl e⟩
  rw [State.goto_log, hlog] at hn
  by_cases hji : j = i
  · subst hji
    rw [State.goto_pc_self] at hj ⊢
    obtain ⟨hj', hrel, hknows⟩ := h n own hj hn
    refine .inr ⟨?_, fun _ => hf.unfilled j n own hj' hrel hn, ?_⟩
    · rw [State.goto_ts, hthr]
      exact hf.snap j n own hj' hn
    · refine hknows.of_calm hj (fun t e he _ => ?_) rfl rfl rfl id
      rw [State.goto_log, hlog] at he
      exact ⟨e, he, rfl, id⟩
  · exact .inl ⟨hpc hji, by rw [State.goto_ts, hthr]⟩

/-- A store to an entry in flight disturbs nothing below an entry of the log. -/
theorem Stores.calm (hc : Ctl s) {i : ι} {n m : ℕ} {own own' : LogEntry} {p : Pc}
    (hown : s.log n = some own) (h : Stores s n own (s.pc i) p own') (hm : m ≤ s.top) :
    Calm s ((s.setEntry n own').goto i p) m := by
  intro t e' he' htm
  rw [State.goto_log] at he'
  by_cases htn : t = n
  · subst htn
    rw [State.setEntry_log_self] at he'
    obtain rfl := Option.some.inj he'
    rcases h.kind.2.2.2 with hlock | ⟨-, hws, -, hab⟩
    · have := hc.writing i t hlock h.ctl.2.2.1
      omega
    · exact ⟨own, hown, hws, hab⟩
  · rw [s.setEntry_log_of_ne own' htn] at he'
    exact ⟨e', he', rfl, id⟩

theorem Facts.store (hc : Ctl s) (hf : Facts s) {i : ι} {n : ℕ} {own own' : LogEntry} {p : Pc}
    (hown : s.log n = some own) (h : Stores s n own (s.pc i) p own') :
    Facts ((s.setEntry n own').goto i p) := by
  obtain ⟨-, ho', ho, -⟩ := h.ctl
  have hne : ∀ {j}, j ≠ i → ((s.setEntry n own').goto i p).pc j = s.pc j := fun hj =>
    State.goto_pc_of_ne _ p hj
  have hunfilled : own.commitStatusFilledIn = false := by
    refine hf.unfilled i n own ho (fun hp => ?_) hown
    rw [hp] at h
    cases h
  have hknows := hf.knows i n own ho hown
  -- the entry of another thread is another entry
  have hother : ∀ j m e, j ≠ i → (((s.setEntry n own').goto i p).pc j).owned = some m →
      ((s.setEntry n own').goto i p).log m = some e →
      (s.pc j).owned = some m ∧ s.log m = some e := by
    intro j m e hji hj hm
    rw [hne hji] at hj
    have hmn : m ≠ n := fun hmn => hji (hc.owned_inj j i n (hmn ▸ hj) ho)
    rw [State.goto_log, s.setEntry_log_of_ne own' hmn] at hm
    exact ⟨hj, hm⟩
  have hself : ∀ m e, p.owned = some m → ((s.setEntry n own').goto i p).log m = some e →
      m = n ∧ e = own' := by
    intro m e hp hm
    rw [ho'] at hp
    obtain rfl := Option.some.inj hp
    rw [State.goto_log, State.setEntry_log_self] at hm
    exact ⟨rfl, (Option.some.inj hm).symm⟩
  constructor
  · intro j m e hj hm
    rw [State.goto_ts, State.setEntry_threads]
    by_cases hji : j = i
    · subst hji
      rw [State.goto_pc_self] at hj
      obtain ⟨rfl, rfl⟩ := hself m e hj hm
      rw [h.kind.1]
      exact hf.snap j m own ho hown
    · obtain ⟨hj, hm⟩ := hother j m e hji hj hm
      exact hf.snap j m e hj hm
  · intro j m e hj hrel hm
    by_cases hji : j = i
    · subst hji
      rw [State.goto_pc_self] at hj hrel
      obtain ⟨rfl, rfl⟩ := hself m e hj hm
      generalize s.pc j = q at h
      cases h with
      | fill => exact absurd rfl hrel
      | _ => exact hunfilled
    · rw [hne hji] at hrel
      obtain ⟨hj, hm⟩ := hother j m e hji hj hm
      exact hf.unfilled j m e hj hrel hm
  · intro j m e hj hm
    by_cases hji : j = i
    · subst hji
      rw [State.goto_pc_self] at hj ⊢
      obtain ⟨rfl, rfl⟩ := hself m e hj hm
      have hcalm := h.calm hc hown (hc.owned j m ho).2
      generalize s.pc j = q at h hknows
      cases h with
      | copy | fill => trivial
      | stamp => rfl
      | clear => exact hknows
      | conflict c => exact ⟨hknows.1.congr rfl, .inl rfl⟩
      | abort => exact .inl rfl
    · rw [hne hji]
      obtain ⟨hj, hm⟩ := hother j m e hji hj hm
      exact (hf.knows j m e hj hm).of_calm hj (h.calm hc hown (hc.owned j m hj).2) rfl rfl rfl id
  · intro t e he hfill
    rw [State.goto_log] at he
    by_cases htn : t = n
    · subst htn
      rw [State.setEntry_log_self] at he
      obtain rfl := Option.some.inj he
      have hcalm := h.calm hc hown (hc.owned i t ho).2
      generalize s.pc i = q at h hknows
      cases h with
      | fill => exact hknows.imp_right fun h => h.of_calm hcalm le_rfl rfl rfl
      | _ =>
        rw [show _ = own.commitStatusFilledIn from rfl, hunfilled] at hfill
        simp at hfill
    · rw [s.setEntry_log_of_ne own' htn] at he
      have hle := ((hc.alloc t).1 (by simp [he])).2
      exact (hf.filled t e he hfill).imp_right fun h' =>
        h'.of_calm (h.calm hc hown hle) le_rfl rfl rfl

/-- **What a thread knows stays true.**  Every turn keeps `Facts`. -/
theorem Facts.turn (hc : Ctl s) (hl : Links s) (hf : Facts s) (ht : Turn s s') : Facts s' := by
  cases ht with
  | snapshot i ts hpc _ =>
    refine hf.of_same hc (fun t e he => .inl ⟨e, he, .refl e⟩) fun j n own hj hn => ?_
    by_cases hji : j = i
    · subst hji
      simp [State.pc, Pc.owned] at hj
    · exact .inl (by simp [State.pc, Function.update_of_ne hji])
  | @move i p hm =>
    refine hf.goto hc s rfl rfl fun n own hn hown =>
      ⟨hm.ctl.2.1 n hn, fun hp => ?_, hm.knows hc hl hf hn hown⟩
    rw [hp] at hm
    cases hm with
    | fault ht _ => simp [Pc.reads] at ht
  | store hown hs => exact hf.store hc (State.deref_eq_some.1 hown).1 hs
  | @acquire i ws _ _ =>
    exact hf.goto hc { s with commitLock := some i } rfl rfl fun n own hn _ => by
      simp [Pc.owned] at hn
  | createFails =>
    exact hf.goto hc { s with commitLock := none } rfl rfl fun n own hn _ => by
      simp [Pc.owned] at hn
  | @create i ws hpc =>
    have htop : s.commitStartedTs = s.top :=
      hc.started_eq (i := i) (by rw [hpc]; rfl) (by rw [hpc]; rfl)
    refine hf.of_same hc (fun t e' he' => ?_) fun j n own' hj hn => ?_
    · rw [State.goto_log, createLogEntry_log] at he'
      split_ifs at he' with htn
      · obtain rfl := Option.some.inj he'
        exact .inr ⟨by omega, rfl⟩
      · unfold State.linkLatest at he'
        split_ifs at he'
        · obtain ⟨e, he, rfl⟩ := Option.map_eq_some_iff.1 he'
          exact .inl ⟨e, he, ⟨rfl, rfl, rfl, rfl, rfl⟩⟩
        · exact .inl ⟨e', he', .refl e'⟩
    · by_cases hji : j = i
      · subst hji
        rw [State.goto_pc_self] at hj
        obtain rfl := Option.some.inj hj
        rw [State.goto_log, createLogEntry_log, if_pos rfl] at hn
        obtain rfl := Option.some.inj hn
        refine .inr ⟨by rw [State.goto_ts]; rfl, fun _ => rfl, ?_⟩
        rw [State.goto_pc_self]
        trivial
      · exact .inl ⟨State.goto_pc_of_ne _ _ hji, State.goto_ts _ _ _ _⟩
  | @started i ws n hpc =>
    refine hf.goto hc { s with commitStartedTs := n } rfl rfl fun m own hm _ => ?_
    rw [hpc]
    exact ⟨hm, by simp, trivial⟩
  | @unlock i ws n hpc =>
    refine hf.goto hc { s with commitLock := none } rfl rfl fun m own hm _ => ?_
    rw [hpc]
    exact ⟨hm, by simp, trivial⟩
  | @release i n _ _ =>
    exact hf.goto hc { s with masterTs := n } rfl rfl fun n own hn _ => by
      simp [Pc.owned] at hn
  | delete stop _ =>
    refine hf.of_same hc (fun t e' he' => ?_) fun j m own hj hm => .inl ⟨rfl, rfl⟩
    obtain ⟨e, he, rfl⟩ := Option.map_eq_some_iff.1 he'
    refine .inl ⟨e, he, ?_⟩
    split_ifs
    · exact ⟨rfl, rfl, rfl, rfl, rfl⟩
    · exact .refl e

end Validation

end Commit
end Sivfs
