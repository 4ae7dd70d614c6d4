/-
# External consistency

The new snapshot is `master_ts`, read when the call has committed and has a
checkpoint.  Others go on meanwhile, but `master_ts` never goes back, so the
snapshot is not before anything that was there when the call began: the commits that have
returned, and the snapshots that have been taken (`external_consistency`).
-/

import Sivfs.Update.Turns

namespace Sivfs
namespace External

open Update

/-! ### Snapshots -/

section Turn

variable {ι : Type*} [DecidableEq ι] {s s' : State ι}

/-- Thread `i` has a snapshot that is not before `c`, if it has taken one since it
began, and otherwise does not settle for less. -/
structure Reaches (c : ℕ) (ts : Ts) (p : Pc) : Prop where
  next : ∀ n, p.nextTs = some n → c ≤ n
  done : p.Done → ∃ x : ℕ, ts = (x : Ts) ∧ c ≤ x

/-- **A call that can see `c` in `master_ts` ends at or after `c`.** -/
theorem Course.reaches {paused : Prop} {m c : ℕ} {ts ts' : Ts} {p p' : Pc}
    (hc : c ≤ m) (h : Reaches c ts p) (ht : Course paused m ts p ts' p') : Reaches c ts' p' := by
  cases ht with
  | stay => exact h
  | work hn hd _ => exact ⟨by simp [hn], fun hd' => absurd hd' hd⟩
  | choose hn hd _ =>
    refine ⟨fun n hn' => ?_, fun hd' => absurd hd' hd⟩
    obtain rfl : m = n := Option.some.inj (hn.symm.trans hn')
    exact hc
  | keep hn hd _ => exact ⟨fun n hn' => h.next n (hn ▸ hn'), fun hd' => absurd hd' hd⟩
  | @take n p' hn hn' _ => exact ⟨by simp [hn'], fun _ => ⟨n, rfl, h.next n hn⟩⟩
  | ret hd hn _ => exact ⟨by simp [hn], fun _ => h.done hd⟩
  | pause _ => exact ⟨by simp [Pc.nextTs], fun hd => by simp [Pc.Done] at hd⟩

/-- `next_ts` is what `master_ts` was. -/
theorem Course.next_le {paused : Prop} {m : ℕ} {ts ts' : Ts} {p p' : Pc}
    (h : ∀ n, p.nextTs = some n → n ≤ m) (ht : Course paused m ts p ts' p') :
    ∀ n, p'.nextTs = some n → n ≤ m := by
  cases ht with
  | stay => exact h
  | choose hn _ _ =>
    intro n hn'
    exact (Option.some.inj (hn.symm.trans hn')).ge
  | keep hn _ _ => exact fun n hn' => h n (hn ▸ hn')
  | work hn _ _ | take _ hn _ | ret _ hn _ => simp [hn]
  | pause _ => simp [Pc.nextTs]

/-- Where `state->ts` comes from. -/
theorem Course.ts_cases {paused : Prop} {m : ℕ} {ts ts' : Ts} {p p' : Pc}
    (ht : Course paused m ts p ts' p') :
    ts' = ts ∧ (p'.nextTs = p.nextTs ∨ p'.nextTs = none ∨ p'.nextTs = some m) ∨
      (∃ n : ℕ, p.nextTs = some n ∧ ts' = (n : Ts) ∧ p'.nextTs = none) ∨
      paused ∧ ts' = invalidTs := by
  cases ht with
  | stay => exact .inl ⟨rfl, .inl rfl⟩
  | work hn _ _ => exact .inl ⟨rfl, .inr (.inl hn)⟩
  | choose hn _ _ => exact .inl ⟨rfl, .inr (.inr hn)⟩
  | keep hn _ _ => exact .inl ⟨rfl, .inl hn⟩
  | @take n p' hn hn' _ => exact .inr (.inl ⟨n, hn, rfl, hn'⟩)
  | ret _ hn _ => exact .inl ⟨rfl, .inr (.inl hn)⟩
  | pause h => exact .inr (.inr ⟨h, rfl⟩)

/-- Where `commit_ts` comes from. -/
theorem Course.commitTs_cases {paused : Prop} {m : ℕ} {ts ts' : Ts} {p p' : Pc}
    (ht : Course paused m ts p ts' p') :
    p'.commitTs = p.commitTs ∨ p'.commitTs = invalidTs ∨
      (∃ n ≤ m, p'.commitTs = (n : Ts)) ∧ p'.nextTs = none ∧ ¬p'.Done := by
  cases ht with
  | stay => exact .inl rfl
  | work hn hd hc =>
    rcases hc with hc | hc | hc
    · exact .inl hc
    · exact .inr (.inl hc)
    · exact .inr (.inr ⟨hc, hn, hd⟩)
  | choose _ _ hc | keep _ _ hc | take _ _ hc | ret _ _ hc => exact .inl hc
  | pause _ => exact .inr (.inl rfl)

/-- What is known of each call. -/
structure Inv (s : State ι) : Prop where
  reported : Reported s.shared
  next_le : ∀ i n, (s.pc i).nextTs = some n → n ≤ s.shared.masterTs
  ts_le : ∀ i, ∀ x : ℕ, s.ts i = (x : Ts) → x ≤ s.shared.masterTs
  ts_next : ∀ i, ∀ x : ℕ, s.ts i = (x : Ts) → ∀ n, (s.pc i).nextTs = some n → x ≤ n
  own : ∀ i, ∀ c : ℕ, (s.pc i).commitTs = (c : Ts) →
    c ≤ s.shared.masterTs ∧ Reaches c (s.ts i) (s.pc i)

omit [DecidableEq ι] in
theorem Init.inv (h : Init s) : Inv s := by
  obtain ⟨⟨-, -, -, -, -, -, hthr⟩, hnew⟩ := h
  have hpc : ∀ i, s.pc i = .out none := fun i => by rw [State.pc, hnew]; rfl
  have hts : ∀ i, s.ts i = invalidTs := fun i => by rw [State.ts, hthr]
  refine ⟨fun i n hi => ?_, fun i n hn => ?_, fun i x hx => ?_, fun i x hx => ?_, fun i c hc => ?_⟩
  · simp [Commit.State.pc, hthr] at hi
  · simp [hpc, Pc.nextTs] at hn
  · simp [hts, invalidTs] at hx
  · simp [hts, invalidTs] at hx
  · simp [hpc, Pc.commitTs, invalidTs] at hc

omit [DecidableEq ι] in
theorem Inv.turns {paused : ι → Prop} (h : Inv s) (ht : Turns paused s s') : Inv s' := by
  have hle := ht.master_le
  have hcoe : ∀ {x y : ℕ}, (x : Ts) = (y : Ts) → x = y := WithTop.coe_injective.eq_iff.1
  refine ⟨ht.reported h.reported, fun i => ?_, fun i x hx => ?_, fun i x hx n hn => ?_,
    fun i c hc => ?_⟩
  · exact (ht.course i).next_le fun n hn => (h.next_le i n hn).trans hle
  · rcases (ht.course i).ts_cases with ⟨hts, -⟩ | ⟨n, hn, hts, -⟩ | ⟨-, hts⟩
    · exact (h.ts_le i x (hts ▸ hx)).trans hle
    · obtain rfl := hcoe (hts.symm.trans hx)
      exact (h.next_le i n hn).trans hle
    · exact absurd (hts.symm.trans hx) (WithTop.coe_ne_top).symm
  · rcases (ht.course i).ts_cases with ⟨hts, hnext⟩ | ⟨n', -, -, hnext⟩ | ⟨-, hts⟩
    · have hxs : s.ts i = (x : Ts) := hts ▸ hx
      rcases hnext with hnext | hnext | hnext
      · exact h.ts_next i x hxs n (hnext ▸ hn)
      · simp [hnext] at hn
      · obtain rfl := Option.some.inj (hnext.symm.trans hn)
        exact (h.ts_le i x hxs).trans hle
    · simp [hnext] at hn
    · exact absurd (hts.symm.trans hx) (WithTop.coe_ne_top).symm
  · rcases (ht.course i).commitTs_cases with hsame | hnone | ⟨⟨n, hn, hcn⟩, hnext, hdone⟩
    · obtain ⟨hc', hr⟩ := h.own i c (hsame ▸ hc)
      exact ⟨hc'.trans hle, (ht.course i).reaches (hc'.trans hle) hr⟩
    · exact absurd (hnone.symm.trans hc) (WithTop.coe_ne_top).symm
    · obtain rfl := hcoe (hcn.symm.trans hc)
      exact ⟨hn, by simp [hnext], fun hd => absurd hd hdone⟩

theorem reachable_inv (h : (machine ι).Reachable s) : Inv s := by
  refine Machine.Reachable.invariant (fun s hi => ?_) (fun s a s' _ hi hstep => ?_) h
  · exact Init.inv hi
  · exact hi.turns (step_turns hi.reported hstep)

/-- What was in `master_ts` when a call begins. -/
theorem reaches_of_call {j : ι} {w : Option Submitted} {options : Options} {c : ℕ}
    (h : step s (.call j w options) = some s') : Reaches c (s'.ts j) (s'.pc j) := by
  simp only [step] at h
  split at h
  · split_ifs at h <;> obtain rfl := Option.some.inj h
    · rw [State.goto, setThread_pc_self]
      exact ⟨by simp [Pc.nextTs], fun hd => by simp [Pc.Done] at hd⟩
    · rw [setThread_pc_self]
      exact ⟨by simp [Pc.nextTs], fun hd => by simp [Pc.Done] at hd⟩
  · simp at h

/-- Along a run, a call does not settle for less. -/
theorem reaches_of_runs {j : ι} {c : ℕ} (hs : (machine ι).Reachable s)
    (hc : c ≤ s.shared.masterTs) (h : Reaches c (s.ts j) (s.pc j))
    (hrun : (machine ι).RunsWith (fun _ _ => True) s s') :
    c ≤ s'.shared.masterTs ∧ Reaches c (s'.ts j) (s'.pc j) := by
  refine hrun.keeps (R := fun s' => c ≤ s'.shared.masterTs ∧ Reaches c (s'.ts j) (s'.pc j)) hs
    ⟨hc, h⟩ fun s₁ a s₂ hr₁ hinv _ hstep => ?_
  have ht := step_turns (reachable_inv hr₁).reported hstep
  have hc₂ := hinv.1.trans ht.master_le
  exact ⟨hc₂, (ht.course j).reaches hc₂ hinv.2⟩

/-- `master_ts` along a run. -/
theorem masterTs_mono (hs : (machine ι).Reachable s)
    (hrun : (machine ι).RunsWith (fun _ _ => True) s s') :
    s.shared.masterTs ≤ s'.shared.masterTs := by
  refine hrun.keeps (R := fun s' => s.shared.masterTs ≤ s'.shared.masterTs) hs le_rfl
    fun s₁ a s₂ hr₁ hle _ hstep => ?_
  exact hle.trans (step_turns (reachable_inv hr₁).reported hstep).master_le

/-- The snapshots of a thread that does not pause. -/
theorem ts_mono {i : ι} {x : ℕ} (hs : (machine ι).Reachable s) (hx : s.ts i = (x : Ts))
    (hrun : (machine ι).RunsWith (fun _ a => a ≠ .pause i) s s') :
    ∃ y : ℕ, s'.ts i = (y : Ts) ∧ x ≤ y := by
  induction hrun with
  | refl => exact ⟨x, hx, le_rfl⟩
  | @step s₁ s₂ a hrun₁ hne hstep ih =>
    obtain ⟨y, hy, hxy⟩ := ih
    have hinv := reachable_inv (hs.trans (hrun₁.mono fun _ _ _ => trivial))
    have ht := step_turns hinv.reported hstep
    rcases (ht.course i).ts_cases with ⟨hts, -⟩ | ⟨n, hn, hts, -⟩ | ⟨hpause, -⟩
    · exact ⟨y, hts.trans hy, hxy⟩
    · exact ⟨n, hts, hxy.trans (hinv.ts_next i y hy n hn)⟩
    · exact absurd hpause hne

/-- External consistency and monotonic snapshots, from a state on. -/
structure Consistent (s : State ι) : Prop where
  /-- A thread has returned with a commit at `c`; a call that is started afterwards and
  returns `0` leaves its thread at or after `c`. -/
  external : ∀ i r, ∀ c : ℕ, s.pc i = .out (some r) → r.aborted = false → r.commitTs = (c : Ts) →
    ∀ s₁ j w options s₂ s₃ r', (machine ι).RunsWith (fun _ _ => True) s s₁ →
      (machine ι).step s₁ (.call j w options) = some s₂ →
      (machine ι).RunsWith (fun _ _ => True) s₂ s₃ → s₃.pc j = .out (some r') → r'.rc = .ok () →
      ∃ x : ℕ, s₃.ts j = (x : Ts) ∧ c ≤ x
  /-- So does the call that committed. -/
  own : ∀ i r, ∀ c : ℕ, s.pc i = .out (some r) → r.rc = .ok () → r.aborted = false →
    r.commitTs = (c : Ts) → ∃ x : ℕ, s.ts i = (x : Ts) ∧ c ≤ x
  /-- Without a pause, the snapshots of a thread do not go back. -/
  monotone : ∀ i s', ∀ x : ℕ, (machine ι).RunsWith (fun _ a => a ≠ .pause i) s s' →
    s.ts i = (x : Ts) → ∃ y : ℕ, s'.ts i = (y : Ts) ∧ x ≤ y

/-- **External consistency.**  In every state reached by any interleaving of any number
of threads, a commit that has returned is in every snapshot taken by a later call, and
the snapshots of a thread do not go back. -/
theorem external_consistency (h : (machine ι).Reachable s) : Consistent s := by
  have hinv := reachable_inv h
  refine ⟨fun i r c hpc _ hc s₁ j w options s₂ s₃ r' hrun hcall hrun' hret hok => ?_,
    fun i r c hpc hok _ hc => ?_, fun i s' x hrun hx => ?_⟩
  · have hcall : step s₁ (.call j w options) = some s₂ := hcall
    have hc₁ : c ≤ s₁.shared.masterTs :=
      (hinv.own i c (by rw [hpc]; exact hc)).1.trans (masterTs_mono h hrun)
    have hr₁ := h.trans hrun
    have hc₂ := hc₁.trans (step_turns (reachable_inv hr₁).reported hcall).master_le
    have hr₂ : (machine ι).Reachable s₂ := .step (.call j w options) hr₁ trivial hcall
    exact (reaches_of_runs hr₂ hc₂ (reaches_of_call hcall) hrun').2.done (by rw [hret]; exact hok)
  · have hown := (hinv.own i c (by rw [hpc]; exact hc)).2
    exact hown.done (by rw [hpc]; exact hok)
  · exact ts_mono h hx hrun

end Turn

/-- What the last call has returned. -/
def Pc.last : Pc → Option Return
  | .out r => r
  | _ => none

theorem Pc.last_eq_some {p : Pc} {r : Return} : p.last = some r ↔ p = .out (some r) := by
  cases p <;> simp [Pc.last]

/-- Two threads before their first transaction. -/
def twoThreads : State Bool where
  shared :=
    { masterTs := 0
      commitStartedTs := 0
      commitLock := none
      log := fun _ => none
      latest := none
      deletedTs := 0
      threads := fun _ => ⟨invalidTs, .idle⟩ }
  latestTs := ((0 : ℕ) : Ts)
  latestCp := some 0
  threads := fun _ => newState

/-- A thread takes a snapshot, and commits a word. -/
def firstCommit : List (Act Bool) :=
  [.call true none ⟨false, false⟩, .tag true (pageOf 7 0) fun _ _ => 4096] ++
    .replicate 10 (.next true) ++
    [.call true (some ⟨[⟨0, 0, 65536, 0, 5⟩], false, false⟩) ⟨false, false⟩,
      .tag true (pageOf 7 0) fun _ _ => 4096, .acquire true] ++
    .replicate 16 (.next true)

/-- The other thread takes a snapshot after that. -/
def laterCall : List (Act Bool) :=
  .tag false (pageOf 7 0) (fun _ _ => 4096) :: .replicate 10 (.next false)

/-- The word is committed at `1`, and the later call sees it. -/
theorem external_consistency_laterCall : ∃ s r s₂ s₃ r', (machine Bool).Reachable s ∧
    s.pc true = .out (some r) ∧ r.aborted = false ∧ r.commitTs = ((1 : ℕ) : Ts) ∧
    (machine Bool).step s (.call false none ⟨false, false⟩) = some s₂ ∧
    (machine Bool).RunsWith (fun _ _ => True) s₂ s₃ ∧ s₃.pc false = .out (some r') ∧
    ∃ x : ℕ, s₃.ts false = (x : Ts) ∧ 1 ≤ x := by
  have hrun : (((machine Bool).run (fun _ _ => true) twoThreads firstCommit).bind fun s =>
      (s.pc true).last.bind fun r =>
        (step s (.call false none ⟨false, false⟩)).bind fun s₂ =>
          ((machine Bool).run (fun _ _ => true) s₂ laterCall).bind fun s₃ =>
            (s₃.pc false).last.map fun r' => (r.aborted, r.commitTs, r'.rc.isOk)) =
      some (false, ((1 : ℕ) : Ts), true) := by
    decide
  obtain ⟨s, hs, hrun⟩ := Option.bind_eq_some_iff.1 hrun
  obtain ⟨r, hr, hrun⟩ := Option.bind_eq_some_iff.1 hrun
  obtain ⟨s₂, hcall, hrun⟩ := Option.bind_eq_some_iff.1 hrun
  obtain ⟨s₃, hs₃, hrun⟩ := Option.bind_eq_some_iff.1 hrun
  obtain ⟨r', hr', hfields⟩ := Option.map_eq_some_iff.1 hrun
  simp only [Prod.mk.injEq] at hfields
  obtain ⟨ha, hc, hok⟩ := hfields
  have hrc : r'.rc = .ok () := by
    cases hrc : r'.rc with
    | ok => rfl
    | error e => simp [hrc, Except.isOk, Except.toBool] at hok
  have hreach : (machine Bool).Reachable s :=
    Machine.ReachableWith.run (fun _ _ _ => trivial)
      (.init ⟨⟨rfl, rfl, rfl, fun _ => rfl, rfl, rfl, fun _ => rfl⟩, fun _ => rfl⟩) hs
  have hlater : (machine Bool).RunsWith (fun _ _ => True) s₂ s₃ :=
    Machine.RunsWith.run (fun _ _ _ => trivial) .refl hs₃
  have hpc := Pc.last_eq_some.1 hr
  have hpc' := Pc.last_eq_some.1 hr'
  exact ⟨s, r, s₂, s₃, r', hreach, hpc, ha, hc, hcall, hlater, hpc',
    (external_consistency hreach).external true r 1 hpc ha hc s false none _ s₂ s₃ r' .refl hcall
      hlater hpc' hrc⟩

end External
end Sivfs
