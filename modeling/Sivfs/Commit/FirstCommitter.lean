/-
# First committer wins

`Ctl`, `Links` and `Facts` hold in every state of a run, and no thread with a snapshot comes to a
missing entry (`Live`, `invariants`).  At `fill` a thread knows that it has walked the whole log
between its snapshot and its own entry.  So if two transactions have committed, and the later
one has a snapshot from before the earlier, they share no word (`firstCommitter_wins`).
-/

import Sivfs.Commit.LinksKept

namespace Sivfs
namespace Commit

section Validation

variable {ι : Type*} [DecidableEq ι] {s s' : State ι}

/-- A thread with a snapshot has read no missing or freed entry, and can read
the entry it has just released. -/
def Live (s : State ι) (i : ι) : Prop :=
  ∀ x : ℕ, (s.threads i).ts = (x : Ts) →
    s.pc i ≠ .fault ∧ ∀ n, s.pc i = .report n → x < n ∧ n ≤ s.top

theorem Live.goto (h : ∀ j, Live s j) (s₁ : State ι) (htop : s.top ≤ s₁.top)
    (hthr : s₁.threads = s.threads) {i : ι} {p : Pc}
    (hp : ∀ x : ℕ, (s.threads i).ts = (x : Ts) →
      p ≠ .fault ∧ ∀ n, p = .report n → x < n ∧ n ≤ s.top) (j : ι) : Live (s₁.goto i p) j := by
  intro x hx
  rw [State.goto_ts, hthr] at hx
  by_cases hji : j = i
  · subst hji
    rw [State.goto_pc_self]
    obtain ⟨hf, hr⟩ := hp x hx
    exact ⟨hf, fun n hn => ⟨(hr n hn).1, (hr n hn).2.trans htop⟩⟩
  · obtain ⟨hf, hr⟩ := h j x hx
    rw [s₁.goto_pc_of_ne p hji, State.pc, hthr]
    exact ⟨hf, fun n hn => ⟨(hr n hn).1, (hr n hn).2.trans htop⟩⟩

/-- Every turn keeps the threads with a snapshot live. -/
theorem Live.turn (hc : Ctl s) (hl : Links s) (hf : Facts s) (h : ∀ i, Live s i)
    (ht : Turn s s') : ∀ i, Live s' i := by
  cases ht with
  | snapshot i ts hpc _ =>
    intro j x hx
    rw [State.snapshot_pc hpc ts j]
    by_cases hji : j = i
    · subst hji
      simp [hpc]
    · simp only [Function.update_of_ne hji] at hx
      exact h j x hx
  | @move i p hm =>
    refine Live.goto h s le_rfl rfl fun x hx => ?_
    have hrd := fun t => hl.deref_of_reads hc hf (t := t) hx (h i x hx).2
    generalize s.pc i = q at hm hrd
    cases hm with
    | @fault _ t ht hnone =>
      obtain ⟨e, he⟩ := hrd t ht
      rw [he] at hnone
      simp at hnone
    | _ => simp
  | @store i n own own' p _ hs =>
    refine Live.goto h (s.setEntry n own') le_rfl rfl fun x hx => ?_
    generalize s.pc i = q at hs
    cases hs <;> simp
  | @acquire i ws _ _ => exact Live.goto h { s with commitLock := some i } le_rfl rfl (by simp)
  | createFails => exact Live.goto h { s with commitLock := none } le_rfl rfl (by simp)
  | @create i ws hpc =>
    have htop : s.commitStartedTs = s.top :=
      hc.started_eq (i := i) (by rw [hpc]; rfl) (by rw [hpc]; rfl)
    refine Live.goto h (s.createLogEntry (s.commitStartedTs + 1) (s.threads i).ts) ?_ rfl (by simp)
    change s.top ≤ s.commitStartedTs + 1
    omega
  | @started i ws n _ => exact Live.goto h { s with commitStartedTs := n } le_rfl rfl (by simp)
  | unlock => exact Live.goto h { s with commitLock := none } le_rfl rfl (by simp)
  | @release i n hpc hm =>
    refine Live.goto h { s with masterTs := n } le_rfl rfl fun x hx => ⟨by simp, fun m hm' => ?_⟩
    obtain rfl := (Pc.report.inj hm')
    have ho := hc.owned i n (by rw [hpc]; rfl)
    exact ⟨(hc.snapshot i x hx).trans_lt ho.1, ho.2⟩
  | delete stop _ => exact h

end Validation

/-! ### Snapshot isolation -/

section Main

variable {ι : Type*} {s : State ι}

theorem init_invariants (h : Init s) : Ctl s ∧ Links s ∧ Facts s ∧ ∀ i, Live s i := by
  obtain ⟨hm, hst, hlock, hlog, hlat, hdel, hthr⟩ := h
  have hpc : ∀ i, s.pc i = .idle := fun i => by rw [State.pc, hthr]
  have htop : s.top = 0 := by rw [State.top, hlat]; rfl
  refine ⟨?_, ?_, ?_, ?_⟩
  · constructor <;> simp [hpc, hm, hst, hlog, hlat, htop, Pc.inLock, Pc.owned]
    · intro t h1 h2
      omega
    · intro i x hx
      rw [hthr] at hx
      exact absurd hx (WithTop.coe_ne_top).symm
  · constructor <;> simp [hlog]
  · constructor <;> simp [hlog]
  · intro i x hx
    simp [hpc]

variable [DecidableEq ι]

/-- The invariants hold along every run in which the log is kept. -/
theorem invariants (h : (protocol ι).ReachableWith LogKept s) :
    Ctl s ∧ Links s ∧ Facts s ∧ ∀ i, Live s i := by
  refine h.invariant (I := fun s => Ctl s ∧ Links s ∧ Facts s ∧ ∀ i, Live s i)
    (fun s hs => init_invariants hs) ?_
  rintro s a s' - ⟨hc, hl, hf, hlive⟩ hk hstep
  have ht := step_turn hstep hk
  exact ⟨hc.turn ht, hl.turn hc hf ht, hf.turn hc hl ht, Live.turn hc hl hf hlive ht⟩

/-- **First committer wins.**  In every state reached by any interleaving of any
number of committers whose log ranges are kept, no thread with a snapshot has
come upon a missing entry, and two entries that ended up not aborted, the
earlier one above the snapshot of the later one, write no word in common. -/
theorem firstCommitter_wins (h : (protocol ι).ReachableWith LogKept s) :
    (∀ i, ∀ x : ℕ, (s.threads i).ts = (x : Ts) → s.pc i ≠ .fault) ∧
    ∀ t₁ t₂ e₁ e₂, s.log t₁ = some e₁ → s.log t₂ = some e₂ →
      e₁.commitStatusFilledIn = true → e₁.aborted = false →
      e₂.commitStatusFilledIn = true → e₂.aborted = false →
      t₁ < t₂ → e₂.snap < (t₁ : Ts) → ¬SharesWord e₁.ws e₂.ws := by
  obtain ⟨-, -, hf, hlive⟩ := invariants h
  refine ⟨fun i x hx => (hlive i x hx).1, ?_⟩
  intro t₁ t₂ e₁ e₂ h₁ h₂ _ hab₁ hfill₂ hab₂ hlt hsnap hshare
  rcases hf.filled t₂ e₂ h₂ hfill₂ with hab | hclear
  · rw [hab₂] at hab
    simp at hab
  · rcases hclear t₁ e₁ h₁ hsnap hlt with hab | hno
    · rw [hab₁] at hab
      simp at hab
    · exact hno hshare.symm

end Main

/-- Two threads before their first transaction. -/
def fresh : State Bool where
  masterTs := 0
  commitStartedTs := 0
  commitLock := none
  log := fun _ => none
  latest := none
  deletedTs := 0
  threads := fun _ => ⟨invalidTs, .idle⟩

/-- Two threads with the same snapshot commit writes to two words of a file; the
second one validates against the first, which is not decided yet. -/
def twoCommits : List (Act Bool) :=
  [.checkout false, .checkout true, .begin false [⟨7, 0, 0, 0, 1⟩], .begin true [⟨7, 8, 8, 0, 2⟩],
    .acquire false] ++ .replicate 6 (.next false) ++ .acquire true :: .replicate 11 (.next true) ++
    .replicate 4 (.next false) ++ .replicate 3 (.next true)

/-- Nothing is deleted. -/
def keepsLog : State Bool → Act Bool → Bool
  | _, .deleteLog _ => false
  | _, _ => true

/-- Both of `twoCommits` are committed. -/
theorem firstCommitter_wins_twoCommits : ∃ s e₁ e₂, (protocol Bool).ReachableWith LogKept s ∧
    s.log 1 = some e₁ ∧ s.log 2 = some e₂ ∧ e₁.commitStatusFilledIn = true ∧
    e₁.aborted = false ∧ e₂.commitStatusFilledIn = true ∧ e₂.aborted = false ∧
    e₂.snap < ((1 : ℕ) : Ts) ∧ ¬SharesWord e₁.ws e₂.ws := by
  have h₁ : ((protocol Bool).run keepsLog fresh twoCommits).bind (fun s => s.log 1) =
      some ⟨(1 : ℕ), [⟨7, 0, 0, 0, 1⟩], false, true, some 2, false, (0 : ℕ)⟩ := by decide
  have h₂ : ((protocol Bool).run keepsLog fresh twoCommits).bind (fun s => s.log 2) =
      some ⟨(2 : ℕ), [⟨7, 8, 8, 0, 2⟩], false, true, none, false, (0 : ℕ)⟩ := by decide
  obtain ⟨s, hs, h₁⟩ := Option.bind_eq_some_iff.1 h₁
  rw [hs] at h₂
  have hinit : Init fresh := ⟨rfl, rfl, rfl, fun _ => rfl, rfl, rfl, fun _ => rfl⟩
  have hreach : (protocol Bool).ReachableWith LogKept s := by
    refine Machine.ReachableWith.run (fun s a ha => ?_) (.init hinit) hs
    cases a with
    | deleteLog stop => simp [keepsLog] at ha
    | _ => trivial
  exact ⟨s, _, _, hreach, h₁, h₂, rfl, rfl, rfl, rfl, by decide,
    (firstCommitter_wins hreach).2 1 2 _ _ h₁ h₂ rfl rfl rfl rfl (by decide) (by decide)⟩

end Commit
end Sivfs
