/-
# The log stays linked

A turn keeps `Links`: entries are appended under the lock, linked and stamped one store after the
other (`Links.create`, `Links.store`), and deleted from the front as far as `LogKept` lets them
(`Links.delete`).
-/

import Sivfs.Commit.KnowsKept

namespace Sivfs
namespace Commit

section Validation

variable {ι : Type*} [DecidableEq ι] {s s' : State ι}

/-- Thread `i` moves and the log stays as it is. -/
theorem Links.goto (hl : Links s) (s₁ : State ι) (hlog : s₁.log = s.log)
    (htop : s₁.latest = s.latest) (hm : s.masterTs ≤ s₁.masterTs)
    (hthr : s₁.threads = s.threads) {i : ι} {p : Pc}
    (h : ∀ n own, (s.pc i).inLock = true → (s.pc i).owned = some n → s.log n = some own →
      (p.inLock = true ∧ p.owned = some n) ∨ own.ts = (n : Ts)) : Links (s₁.goto i p) := by
  refine hl.of_log_eq hlog htop hm (fun j n own hj ho hown => ?_) fun j x hx => ?_
  · by_cases hji : j = i
    · subst hji
      rw [State.goto_pc_self]
      exact h n own hj ho hown
    · rw [s₁.goto_pc_of_ne p hji, State.pc, hthr]
      exact .inl ⟨hj, ho⟩
  · rw [State.goto_ts, hthr] at hx
    exact .inl hx

/-- **A store to the own entry** keeps the links: either the entry is being linked and stamped, or
the store concerns its write-set and its verdict. -/
theorem Links.store (hl : Links s) {i : ι} {n : ℕ} {own own' : LogEntry} {p : Pc}
    (hown : s.log n = some own) (h : Stores s n own (s.pc i) p own') :
    Links ((s.setEntry n own').goto i p) := by
  obtain ⟨hlock, ho', ho, -⟩ := h.ctl
  obtain ⟨-, hnext, hfreed, hkind⟩ := h.kind
  -- every entry has the links of an entry before
  have hlog : ∀ t e', ((s.setEntry n own').goto i p).log t = some e' →
      ∃ e, s.log t = some e ∧ e'.next = e.next ∧ e'.freed = e.freed ∧ (t ≠ n → e' = e) := by
    intro t e' he'
    rw [State.goto_log] at he'
    by_cases htn : t = n
    · subst htn
      rw [State.setEntry_log_self] at he'
      obtain rfl := Option.some.inj he'
      exact ⟨own, hown, hnext, hfreed, fun h => absurd rfl h⟩
    · rw [s.setEntry_log_of_ne own' htn] at he'
      exact ⟨e', he', rfl, rfl, fun _ => rfl⟩
  have hpc : ∀ j, (((s.setEntry n own').goto i p).pc j).inLock = (s.pc j).inLock ∧
      (((s.setEntry n own').goto i p).pc j).owned = (s.pc j).owned := by
    intro j
    by_cases hji : j = i
    · subst hji
      rw [State.goto_pc_self]
      exact ⟨hlock, ho'.trans ho.symm⟩
    · rw [State.goto_pc_of_ne _ _ hji]
      exact ⟨rfl, rfl⟩
  constructor
  · intro t e' he' ht
    obtain ⟨e, he, hn, -⟩ := hlog t e' he'
    rw [hn]
    exact hl.linked t e he ht
  · intro t e' he' hno
    have hno' : ∀ j, (s.pc j).inLock = true → (s.pc j).owned ≠ some t := by
      intro j hj
      rw [← (hpc j).2]
      exact hno j ((hpc j).1.trans hj)
    by_cases htn : t = n
    · subst htn
      rw [State.goto_log, State.setEntry_log_self] at he'
      obtain rfl := Option.some.inj he'
      rcases hkind with hin | ⟨-, -, hts, -⟩
      · exact absurd ho (hno' i hin)
      · rw [hts]
        exact hl.stamped t own hown hno'
    · obtain ⟨e, he, -, -, heq⟩ := hlog t e' he'
      rw [heq htn]
      exact hl.stamped t e he hno'
  · intro t e' he' hfree
    obtain ⟨e, he, -, hf, -⟩ := hlog t e' he'
    exact hl.freed t e he (hf ▸ hfree)
  · intro t e' he' hfree j x hx
    obtain ⟨e, he, -, hf, -⟩ := hlog t e' he'
    rw [State.goto_ts] at hx
    exact hl.kept t e he (hf ▸ hfree) j x hx

/-- **A new entry** goes behind the latest one; nothing before it changes. -/
theorem Links.create (hc : Ctl s) (hl : Links s) {i : ι} {ws : List WsEntry}
    (hpc : s.pc i = .create ws) :
    Links ((s.createLogEntry (s.commitStartedTs + 1) (s.threads i).ts).goto i
      (.write ws (s.commitStartedTs + 1) .started)) := by
  have hi : (s.pc i).inLock = true := by rw [hpc]; rfl
  have htop : s.commitStartedTs = s.top := hc.started_eq hi (by rw [hpc]; rfl)
  set s₁ := s.createLogEntry (s.commitStartedTs + 1) (s.threads i).ts with hs₁
  set p : Pc := .write ws (s.commitStartedTs + 1) .started with hp
  have hlog : ∀ t e', (s₁.goto i p).log t = some e' → t = s.top + 1 ∧ e'.freed = false ∨
      ∃ e, s.log t = some e ∧ e'.freed = e.freed ∧ e'.ts = e.ts ∧
        (t < s.top → e'.next = e.next) ∧ (t = s.top → e'.next = some (t + 1)) := by
    intro t e' he'
    rw [State.goto_log, hs₁, createLogEntry_log, htop] at he'
    split_ifs at he' with ht
    · obtain rfl := Option.some.inj he'
      exact .inl ⟨ht, rfl⟩
    unfold State.linkLatest at he'
    split_ifs at he' with hlat
    · obtain ⟨e, he, rfl⟩ := Option.map_eq_some_iff.1 he'
      have : s.top = t := by rw [State.top, hlat]; rfl
      exact .inr ⟨e, he, rfl, rfl, fun h => by omega, fun h => by rw [h]⟩
    · refine .inr ⟨e', he', rfl, rfl, fun _ => rfl, fun h => ?_⟩
      -- the last entry is `master_log.latest`
      have hpos := ((hc.alloc t).1 (by simp [he'])).1
      rcases hl' : s.latest with _ | q
      · rw [State.top, hl'] at h
        simp at h
        omega
      · rw [State.top, hl'] at h
        exact absurd (by rw [hl', h]; rfl) hlat
  constructor
  · intro t e' he' ht
    have ht : t < s.top + 1 := by rw [← htop]; exact ht
    rcases hlog t e' he' with ⟨h, -⟩ | ⟨e, he, -, -, hlt, heq⟩
    · omega
    · rcases Nat.lt_succ_iff_lt_or_eq.1 ht with h | h
      · rw [hlt h]
        exact hl.linked t e he h
      · exact heq h
  · intro t e' he' hno
    rcases hlog t e' he' with ⟨h, -⟩ | ⟨e, he, -, hts, -⟩
    · have := hno i (by rw [State.goto_pc_self]; rfl)
      rw [State.goto_pc_self, h, ← htop] at this
      exact absurd rfl this
    · rw [hts]
      refine hl.stamped t e he fun j hj ho => ?_
      -- the holder of the lock owned nothing yet
      have := hc.lock j hj
      rw [hc.lock i hi] at this
      obtain rfl := Option.some.inj this
      simp [hpc, Pc.owned] at ho
  · intro t e' he' hfree
    rcases hlog t e' he' with ⟨-, h⟩ | ⟨e, he, hf, -⟩
    · simp [h] at hfree
    · exact hl.freed t e he (hf ▸ hfree)
  · intro t e' he' hfree j x hx
    rcases hlog t e' he' with ⟨-, h⟩ | ⟨e, he, hf, -⟩
    · simp [h] at hfree
    · exact hl.kept t e he (hf ▸ hfree) j x (by rwa [State.goto_ts] at hx)

/-- **The log stays linked and stamped.**  Every turn keeps `Links`. -/
theorem Links.turn (hc : Ctl s) (hl : Links s) (hf : Facts s) (ht : Turn s s') : Links s' := by
  cases ht with
  | snapshot i ts hpc hts =>
    have hpc' := State.snapshot_pc hpc ts
    refine hl.of_log_eq rfl rfl le_rfl (fun j n own hj ho _ => ?_) fun j x hx => ?_
    · rw [hpc']
      exact .inl ⟨hj, ho⟩
    · by_cases hji : j = i
      · subst hji
        simp only [Function.update_self] at hx
        rcases hts with rfl | rfl
        · exact absurd hx (WithTop.coe_ne_top).symm
        · exact .inr (WithTop.coe_injective hx).le
      · simp only [Function.update_of_ne hji] at hx
        exact .inl hx
  | @move i p hm =>
    refine hl.goto s rfl rfl le_rfl rfl fun n own hi ho hown => ?_
    -- in the critical section only a fault is a move, and the own entry is there
    obtain ⟨own', hd⟩ := hl.own_deref hc ho
    generalize s.pc i = q at hm hi ho
    cases hm with
    | @fault _ t ht hnone =>
      cases q with
      | write ws m stage =>
        obtain rfl := Option.some.inj ho
        have : t = m := by cases stage <;> simp_all [Pc.reads]
        rw [this, hd] at hnone
        simp at hnone
      | create ws => simp [Pc.owned] at ho
      | _ => simp [Pc.inLock] at hi
    | _ => simp [Pc.inLock] at hi
  | store hown hs => exact hl.store (State.deref_eq_some.1 hown).1 hs
  | @acquire i ws hpc _ =>
    exact hl.goto { s with commitLock := some i } rfl rfl le_rfl rfl (by simp [hpc, Pc.inLock])
  | createFails hpc =>
    exact hl.goto { s with commitLock := none } rfl rfl le_rfl rfl (by simp [hpc, Pc.owned])
  | create hpc => exact hl.create hc hpc
  | @started i ws n hpc =>
    exact hl.goto { s with commitStartedTs := n } rfl rfl le_rfl rfl fun m own _ ho _ =>
      .inl ⟨rfl, by rwa [hpc] at ho⟩
  | @unlock i ws n hpc =>
    refine hl.goto { s with commitLock := none } rfl rfl le_rfl rfl fun m own _ ho hown => .inr ?_
    have hk := hf.knows i m own ho hown
    rw [hpc] at ho hk
    obtain rfl := Option.some.inj ho
    exact hk
  | @release i n hpc hm =>
    refine hl.goto { s with masterTs := n } rfl rfl ?_ rfl (by simp [hpc, Pc.inLock])
    change s.masterTs ≤ n
    omega
  | delete stop hk => exact hl.delete hk

end Validation

end Commit
end Sivfs
