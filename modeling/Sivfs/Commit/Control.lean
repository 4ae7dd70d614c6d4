/-
# The lock and the counters of the commit protocol

Who is in the critical section, which timestamps are reserved and by whom, and
how `commit_started_ts`, `master_ts` and the keys of the log stand to each
other: the log holds every timestamp from `1` to the last one reserved,
`commit_started_ts` is behind it only in the middle of a reservation, and what
a thread has reserved lies above `master_ts` until the thread releases it.
-/

import Sivfs.Commit.Protocol

namespace Sivfs
namespace Commit

/-! ### Who holds what -/

/-- The entry a thread has reserved and not yet released. -/
def Pc.owned : Pc → Option ℕ
  | .write _ n _ | .check n | .lookup n | .visit n _ | .compare n _ | .visited n _ |
    .follow n _ | .peek n _ | .abort n | .fill n | .release n => some n
  | .idle | .lock _ | .create _ | .report _ | .fault => none

/-- In the critical section. -/
def Pc.inLock : Pc → Bool
  | .create _ | .write _ _ _ => true
  | _ => false

/-- The entry is in the log and `commit_started_ts` does not say so yet. -/
def Pc.pending : Pc → Bool
  | .write _ _ .started => true
  | _ => false

/-- A reservation is made under the lock. -/
theorem Pc.inLock_of_pending {p : Pc} (h : p.pending = true) : p.inLock = true := by
  unfold Pc.pending at h
  split at h
  · rfl
  · simp at h

/-- Who is in the middle of a reservation has reserved an entry. -/
theorem Pc.owned_of_pending {p : Pc} (h : p.pending = true) : ∃ n, p.owned = some n := by
  unfold Pc.pending at h
  split at h
  · exact ⟨_, rfl⟩
  · simp at h

section Control

variable {ι : Type*} {s s' : State ι}

/-- The lock, the reserved timestamps and the counters. -/
structure Ctl (s : State ι) : Prop where
  lock : ∀ i, (s.pc i).inLock = true → s.commitLock = some i
  owned : ∀ i n, (s.pc i).owned = some n → s.masterTs < n ∧ n ≤ s.top
  owned_inj : ∀ i j n, (s.pc i).owned = some n → (s.pc j).owned = some n → i = j
  writing : ∀ i n, (s.pc i).inLock = true → (s.pc i).owned = some n → n = s.top
  started : s.commitStartedTs = s.top ∨
    (∃ i, (s.pc i).pending = true) ∧ s.commitStartedTs + 1 = s.top
  master_le : s.masterTs ≤ s.commitStartedTs
  alloc : ∀ t, (s.log t).isSome = true ↔ 1 ≤ t ∧ t ≤ s.top
  latest : s.latest ≠ some 0
  snapshot : ∀ i, ∀ x : ℕ, (s.threads i).ts = (x : Ts) → x ≤ s.masterTs

/-- In the critical section, but for the middle of a reservation, `commit_started_ts` says how far
the log goes. -/
theorem Ctl.started_eq (h : Ctl s) {i : ι} (hl : (s.pc i).inLock = true)
    (hp : (s.pc i).pending = false) : s.commitStartedTs = s.top := by
  rcases h.started with h' | ⟨⟨j, hj⟩, -⟩
  · exact h'
  · have hi := h.lock i hl
    rw [h.lock j (Pc.inLock_of_pending hj)] at hi
    obtain rfl := Option.some.inj hi
    rw [hp] at hj
    simp at hj

/-- A turn that leaves counters and log keys alone, and in which no thread
enters the critical section or reserves anything, keeps `Ctl`. -/
theorem Ctl.of_weaker (h : Ctl s) (hm : s'.masterTs = s.masterTs)
    (hc : s'.commitStartedTs = s.commitStartedTs) (htop : s'.latest = s.latest)
    (halloc : ∀ t, (s'.log t).isSome = (s.log t).isSome)
    (hlock : ∀ i, (s'.pc i).inLock = true → s'.commitLock = some i)
    (hwriting : ∀ i n, (s'.pc i).inLock = true → (s'.pc i).owned = some n →
      (s.pc i).inLock = true)
    (hown : ∀ i n, (s'.pc i).owned = some n → (s.pc i).owned = some n)
    (hpend : s.commitStartedTs = s.top ∨
      ∀ i, (s.pc i).pending = true → (s'.pc i).pending = true)
    (hts : ∀ i, ∀ x : ℕ, (s'.threads i).ts = (x : Ts) → x ≤ s.masterTs) : Ctl s' := by
  have htop' : s'.top = s.top := by rw [State.top, State.top, htop]
  constructor
  · exact hlock
  · intro i n hn
    rw [hm, htop']
    exact h.owned i n (hown i n hn)
  · intro i j n hi hj
    exact h.owned_inj i j n (hown i n hi) (hown j n hj)
  · intro i n hi hn
    rw [htop']
    exact h.writing i n (hwriting i n hi hn) (hown i n hn)
  · rw [hc, htop']
    rcases hpend with hpend | hpend
    · exact .inl hpend
    rcases h.started with h' | ⟨⟨i, hi⟩, h'⟩
    · exact .inl h'
    · exact .inr ⟨⟨i, hpend i hi⟩, h'⟩
  · rw [hm, hc]
    exact h.master_le
  · intro t
    rw [halloc, htop']
    exact h.alloc t
  · rw [htop]
    exact h.latest
  · intro i x hx
    rw [hm]
    exact hts i x hx

/-- What is in an entry does not matter to the counters. -/
theorem Ctl.setEntry (h : Ctl s) {n : ℕ} {own own' : LogEntry} (hown : s.log n = some own) :
    Ctl (s.setEntry n own') := by
  refine h.of_weaker rfl rfl rfl (fun t => ?_) h.lock (fun _ _ hj _ => hj)
    (fun _ _ hj => hj) (.inr fun _ hj => hj) h.snapshot
  by_cases ht : t = n
  · subst ht
    simp [hown]
  · rw [s.setEntry_log_of_ne own' ht]

/-- A move reserves nothing, and is not made in the middle of a reservation. -/
theorem Moves.ctl {i : ι} {p p' : Pc} (h : Moves s i p p') :
    p'.inLock = false ∧ (∀ n, p'.owned = some n → p.owned = some n) ∧ p.pending = false := by
  cases h with
  | fault ht _ =>
    refine ⟨rfl, by simp [Pc.owned], ?_⟩
    unfold Pc.pending
    split
    · simp [Pc.reads] at ht
    · rfl
  | _ => exact ⟨rfl, by simp [Pc.owned], rfl⟩

/-- A store to the entry changes neither who has it nor who has the lock. -/
theorem Stores.ctl {n : ℕ} {own own' : LogEntry} {p p' : Pc} (h : Stores s n own p p' own') :
    p'.inLock = p.inLock ∧ p'.owned = some n ∧ p.owned = some n ∧ p.pending = false := by
  cases h <;> exact ⟨rfl, rfl, rfl, rfl⟩

/-- A deleted entry keeps its place in the log. -/
theorem Ctl.delete (h : Ctl s) (stop : ℕ) : Ctl (deleteLog s stop) :=
  h.of_weaker rfl rfl rfl (fun t => by simp [deleteLog]) h.lock
    (fun _ _ hj _ => hj) (fun _ _ hj => hj) (.inr fun _ hj => hj) h.snapshot

/-- The log after `sivfs_create_log_entry`. -/
theorem createLogEntry_log (n : ℕ) (snap : Ts) (t : ℕ) :
    (s.createLogEntry n snap).log t =
      if t = n then some (initLogEntry snap) else s.linkLatest n t := by
  unfold State.createLogEntry
  by_cases htn : t = n
  · subst htn
    simp
  · simp [htn]

/-- To link an entry adds none. -/
theorem linkLatest_isSome (n t : ℕ) : (s.linkLatest n t).isSome = (s.log t).isSome := by
  unfold State.linkLatest
  split_ifs <;> simp

variable [DecidableEq ι]

/-- Only thread `i` moves; it is in the critical section only if it holds the
lock, and it reserves nothing. -/
theorem Ctl.goto (h : Ctl s) {i : ι} {p : Pc} (hl : p.inLock = true → (s.pc i).inLock = true)
    (ho : ∀ n, p.owned = some n → (s.pc i).owned = some n)
    (hp : s.commitStartedTs = s.top ∨ ((s.pc i).pending = true → p.pending = true)) :
    Ctl (s.goto i p) := by
  have hin : ∀ j, ((s.goto i p).pc j).inLock = true → (s.pc j).inLock = true := by
    intro j hj
    by_cases hji : j = i
    · subst hji
      exact hl (by simpa using hj)
    · rwa [s.goto_pc_of_ne p hji] at hj
  refine h.of_weaker rfl rfl rfl (fun _ => rfl) (fun j hj => h.lock j (hin j hj))
    (fun j _ hj _ => hin j hj) (fun j n hj => ?_) (hp.imp_right fun hp j hj => ?_)
    (fun j x hx => h.snapshot j x (by simpa using hx)) <;> by_cases hji : j = i
  · subst hji
    exact ho n (by simpa using hj)
  · rwa [s.goto_pc_of_ne p hji] at hj
  · subst hji
    simpa using hp hj
  · rwa [s.goto_pc_of_ne p hji]

/-- **A reservation**: the new entry is behind all others, and `commit_started_ts` is one behind
until the next store. -/
theorem Ctl.create (h : Ctl s) {i : ι} {ws : List WsEntry} (hpc : s.pc i = .create ws) :
    Ctl ((s.createLogEntry (s.commitStartedTs + 1) (s.threads i).ts).goto i
      (.write ws (s.commitStartedTs + 1) .started)) := by
  have hl : (s.pc i).inLock = true := by rw [hpc]; rfl
  have htop : s.commitStartedTs = s.top := h.started_eq hl (by rw [hpc]; rfl)
  set s₁ := s.createLogEntry (s.commitStartedTs + 1) (s.threads i).ts with hs₁
  set p : Pc := .write ws (s.commitStartedTs + 1) .started with hp
  have htop₁ : (s₁.goto i p).top = s.top + 1 := by rw [← htop]; rfl
  have hne : ∀ {j}, j ≠ i → (s₁.goto i p).pc j = s.pc j := fun hj => s₁.goto_pc_of_ne p hj
  have hself : (s₁.goto i p).pc i = p := s₁.goto_pc_self i p
  have hmaster : s.masterTs ≤ s.top := htop ▸ h.master_le
  constructor
  · intro j hj
    by_cases hji : j = i
    · subst hji
      exact h.lock j hl
    · exact h.lock j (by rwa [hne hji] at hj)
  · intro j n hn
    rw [htop₁]
    by_cases hji : j = i
    · subst hji
      rw [hself, hp] at hn
      obtain rfl := Option.some.inj hn
      exact ⟨show s.masterTs < _ by omega, by omega⟩
    · rw [hne hji] at hn
      have := h.owned j n hn
      exact ⟨this.1, by omega⟩
  · -- the timestamp of the new entry is above every other one
    intro j k n hj hk
    have hbelow : ∀ {j}, j ≠ i → ((s₁.goto i p).pc j).owned = some n → n ≤ s.top := by
      intro j hji hj
      rw [hne hji] at hj
      exact (h.owned j n hj).2
    have hnew : ((s₁.goto i p).pc i).owned = some n → n = s.top + 1 := by
      intro hn
      rw [hself, hp] at hn
      rw [← htop]
      exact (Option.some.inj hn).symm
    by_cases hji : j = i <;> by_cases hki : k = i
    · rw [hji, hki]
    · subst hji
      have := hnew hj
      have := hbelow hki hk
      omega
    · subst hki
      have := hnew hk
      have := hbelow hji hj
      omega
    · rw [hne hji] at hj
      rw [hne hki] at hk
      exact h.owned_inj j k n hj hk
  · intro j n hj hn
    rw [htop₁]
    by_cases hji : j = i
    · subst hji
      rw [hself, hp] at hn
      rw [← htop]
      exact (Option.some.inj hn).symm
    · -- only the holder of the lock writes
      rw [hne hji] at hj
      have := h.lock j hj
      rw [h.lock i hl] at this
      exact absurd (Option.some.inj this).symm hji
  · exact .inr ⟨⟨i, by rw [hself, hp]; rfl⟩, by rw [htop₁, ← htop]; rfl⟩
  · exact h.master_le
  · intro t
    rw [htop₁, State.goto_log, hs₁, createLogEntry_log]
    by_cases ht : t = s.commitStartedTs + 1
    · simp [ht]
      omega
    · rw [if_neg ht, linkLatest_isSome, h.alloc]
      omega
  · simp [hs₁, State.goto, State.createLogEntry]
  · intro j x hx
    exact h.snapshot j x (by rwa [State.goto_ts] at hx)

/-- `commit_started_ts` catches up with the log. -/
theorem Ctl.start (h : Ctl s) {i : ι} {ws : List WsEntry} {n : ℕ}
    (hpc : s.pc i = .write ws n .started) :
    Ctl ({ s with commitStartedTs := n }.goto i (.write ws n .copy)) := by
  have hn : n = s.top := h.writing i n (by rw [hpc]; rfl) (by rw [hpc]; rfl)
  have hm := (h.owned i n (by rw [hpc]; rfl)).1
  have h' : Ctl { s with commitStartedTs := n } :=
    { h with started := .inl hn, master_le := hm.le }
  refine h'.goto (fun _ => ?_) (fun m hm => ?_) (.inl hn)
  · change (s.pc i).inLock = true
    rw [hpc]
    rfl
  · change (s.pc i).owned = some m
    rwa [hpc]

/-- The lock is given up with no reservation under way. -/
theorem Ctl.unlock (h : Ctl s) {i : ι} {p : Pc} (hl : (s.pc i).inLock = true)
    (hp : (s.pc i).pending = false) (hl' : p.inLock = false)
    (ho : ∀ n, p.owned = some n → (s.pc i).owned = some n) :
    Ctl ({ s with commitLock := none }.goto i p) := by
  have hne : ∀ {j}, j ≠ i → ({ s with commitLock := none }.goto i p).pc j = s.pc j := fun hj =>
    State.goto_pc_of_ne _ p hj
  have hnone : ∀ j, (({ s with commitLock := none }.goto i p).pc j).inLock = false := by
    intro j
    by_cases hji : j = i
    · subst hji
      rw [State.goto_pc_self, hl']
    · rw [hne hji]
      by_contra hj
      have := h.lock j (by simpa using hj)
      rw [h.lock i hl] at this
      exact hji (Option.some.inj this).symm
  refine h.of_weaker rfl rfl rfl (fun _ => rfl) (fun j hj => ?_) (fun j n hj _ => ?_)
    (fun j n hj => ?_) (.inl (h.started_eq hl hp))
    (fun j x hx => h.snapshot j x (by rwa [State.goto_ts] at hx))
  · simp [hnone j] at hj
  · simp [hnone j] at hj
  · by_cases hji : j = i
    · subst hji
      rw [State.goto_pc_self] at hj
      exact ho n hj
    · rwa [hne hji] at hj

/-- The lock is taken when it is free. -/
theorem Ctl.acquire (h : Ctl s) {i : ι} {ws : List WsEntry} (hpc : s.pc i = .lock ws)
    (hfree : s.commitLock = none) :
    Ctl ({ s with commitLock := some i }.goto i (.create ws)) := by
  have hne : ∀ {j}, j ≠ i →
      ({ s with commitLock := some i }.goto i (.create ws)).pc j = s.pc j := fun hj =>
    State.goto_pc_of_ne _ _ hj
  have hstart : s.commitStartedTs = s.top := by
    rcases h.started with h' | ⟨⟨j, hj⟩, -⟩
    · exact h'
    · have := h.lock j (Pc.inLock_of_pending hj)
      simp [hfree] at this
  refine h.of_weaker rfl rfl rfl (fun _ => rfl) (fun j hj => ?_) (fun j n hj hn => ?_)
    (fun j n hj => ?_) (.inl hstart)
    (fun j x hx => h.snapshot j x (by rwa [State.goto_ts] at hx)) <;> by_cases hji : j = i
  · subst hji
    rfl
  · rw [hne hji] at hj
    have := h.lock j hj
    simp [hfree] at this
  · subst hji
    rw [State.goto_pc_self] at hn
    simp [Pc.owned] at hn
  · rwa [hne hji] at hj
  · subst hji
    rw [State.goto_pc_self] at hj
    simp [Pc.owned] at hj
  · rwa [hne hji] at hj

/-- **A release** moves `master_ts` to the entry of the thread, which is the next one: everything
reserved by others is behind it. -/
theorem Ctl.release (h : Ctl s) {i : ι} {n : ℕ} (hpc : s.pc i = .release n)
    (hm : s.masterTs = n - 1) : Ctl ({ s with masterTs := n }.goto i (.report n)) := by
  have hi : (s.pc i).owned = some n := by rw [hpc]; rfl
  have hn := h.owned i n hi
  have hne : ∀ {j}, j ≠ i → ({ s with masterTs := n }.goto i (.report n)).pc j = s.pc j := fun hj =>
    State.goto_pc_of_ne _ _ hj
  have hown : ∀ j m, (({ s with masterTs := n }.goto i (.report n)).pc j).owned = some m →
      j ≠ i ∧ (s.pc j).owned = some m := by
    intro j m hj
    by_cases hji : j = i
    · subst hji
      rw [State.goto_pc_self] at hj
      simp [Pc.owned] at hj
    · exact ⟨hji, by rwa [hne hji] at hj⟩
  have hin : ∀ j, (({ s with masterTs := n }.goto i (.report n)).pc j).inLock = true →
      (s.pc j).inLock = true := by
    intro j hj
    by_cases hji : j = i
    · subst hji
      rw [State.goto_pc_self] at hj
      simp [Pc.inLock] at hj
    · rwa [hne hji] at hj
  -- the entry being written is not the one being released
  have hlt : s.commitStartedTs = s.top ∨ n < s.top := by
    rcases h.started with h' | ⟨⟨j, hj⟩, -⟩
    · exact .inl h'
    obtain ⟨m, hjm⟩ := Pc.owned_of_pending hj
    obtain rfl := h.writing j m (Pc.inLock_of_pending hj) hjm
    refine .inr (lt_of_le_of_ne hn.2 fun hnm => ?_)
    subst hnm
    obtain rfl := h.owned_inj i j _ hi hjm
    simp [hpc, Pc.pending] at hj
  constructor
  · exact fun j hj => h.lock j (hin j hj)
  · intro j m hj
    obtain ⟨hji, hj⟩ := hown j m hj
    have hjm := h.owned j m hj
    refine ⟨?_, hjm.2⟩
    -- timestamps are released in order: `m` is not `n`, hence above it
    have : m ≠ n := fun hmn => hji (h.owned_inj j i n (hmn ▸ hj) hi)
    change n < m
    omega
  · exact fun j k m hj hk => h.owned_inj j k m (hown j m hj).2 (hown k m hk).2
  · exact fun j m hj hm => h.writing j m (hin j hj) (hown j m hm).2
  · refine h.started.imp_right fun ⟨⟨j, hj⟩, h'⟩ => ⟨⟨j, ?_⟩, h'⟩
    have hji : j ≠ i := by
      rintro rfl
      simp [hpc, Pc.pending] at hj
    rwa [hne hji]
  · change n ≤ s.commitStartedTs
    rcases hlt with h' | h'
    · omega
    · rcases h.started with h'' | ⟨-, h''⟩ <;> omega
  · exact h.alloc
  · exact h.latest
  · intro j x hx
    have := h.snapshot j x (by rwa [State.goto_ts] at hx)
    change x ≤ n
    omega

/-- A new snapshot is `master_ts`, or none. -/
theorem Ctl.snapshot_turn (h : Ctl s) {i : ι} {ts : Ts} (hpc : s.pc i = .idle)
    (hts : ts = invalidTs ∨ ts = (s.masterTs : Ts)) :
    Ctl { s with threads := Function.update s.threads i ⟨ts, .idle⟩ } := by
  have hpc' := State.snapshot_pc hpc ts
  refine h.of_weaker rfl rfl rfl (fun _ => rfl) (fun j hj => h.lock j (by rwa [hpc'] at hj))
    (fun j _ hj _ => by rwa [hpc'] at hj) (fun j n hj => by rwa [hpc'] at hj)
    (.inr fun j hj => by rwa [hpc']) (fun j x hx => ?_)
  by_cases hji : j = i
  · subst hji
    simp only [Function.update_self] at hx
    rcases hts with rfl | rfl
    · exact absurd hx (WithTop.coe_ne_top).symm
    · exact (WithTop.coe_injective hx).ge
  · simp only [Function.update_of_ne hji] at hx
    exact h.snapshot j x hx

/-- **The lock and the counters.**  Every turn keeps `Ctl`. -/
theorem Ctl.turn (h : Ctl s) (ht : Turn s s') : Ctl s' := by
  cases ht with
  | snapshot i ts hpc hts => exact h.snapshot_turn hpc hts
  | move hm =>
    obtain ⟨hl, ho, hp⟩ := hm.ctl
    exact h.goto (by simp [hl]) ho (.inr (by simp [hp]))
  | @store i n own own' p hown hs =>
    obtain ⟨hl, ho, ho', hp⟩ := hs.ctl
    refine (h.setEntry (State.deref_eq_some.1 hown).1).goto (fun hp => ?_) (fun m hm => ?_)
      (.inr fun h' => ?_)
    · rwa [State.setEntry_pc, ← hl]
    · rw [State.setEntry_pc, ho', ← hm, ho]
    · rw [State.setEntry_pc, hp] at h'
      simp at h'
  | acquire hpc hfree => exact h.acquire hpc hfree
  | createFails hpc =>
    exact h.unlock (by rw [hpc]; rfl) (by rw [hpc]; rfl) rfl (by simp [Pc.owned])
  | create hpc => exact h.create hpc
  | started hpc => exact h.start hpc
  | unlock hpc =>
    exact h.unlock (by rw [hpc]; rfl) (by rw [hpc]; rfl) rfl (by simp [hpc, Pc.owned])
  | release hpc hm => exact h.release hpc hm
  | delete stop _ => exact h.delete stop

end Control

end Commit
end Sivfs
