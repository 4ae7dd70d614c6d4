/-
# Write throttling

The loop at the end of `sivfs_commit_changes`: a thread that has committed `next_ts` waits
while `next_ts` is more than `SIVFS_MAX_WRITE_TXNS_SINCE_CHECKPOINT` above
`latest_checkpoint_published`, or until it gets a signal.

The machine is the one of the commit protocol in which a thread that leaves `report` goes
into that loop, and the checkpoint thread publishes what is committed.

Every timestamp that far above the last checkpoint is held by a thread of its own, which is
still committing it or waits in the loop, unless a signal has cut the wait short
(`Claimed`).  So the log behind the last checkpoint is bounded by the number of threads
(`backlog_bounded`).
-/

import Sivfs.Commit.FirstCommitter
import Sivfs.Commit.Window
import Mathlib.Data.Finset.Card
import Mathlib.Order.Interval.Finset.Nat

namespace Sivfs
namespace Commit

/-- `SIVFS_MAX_WRITE_TXNS_SINCE_CHECKPOINT`. -/
def maxWriteTxnsSinceCheckpoint : ℕ := 1000

/-- The commit protocol and the loop that throttles. -/
structure Throttling (ι : Type*) where
  commit : State ι
  /-- `latest_checkpoint_published`. -/
  published : ℕ
  /-- `next_ts` and `wasThrottled` of a thread in the loop. -/
  waiting : ι → Option (ℕ × Bool)
  /-- `stats.nWriteTxnsThrottledOnSS`. -/
  nWriteTxnsThrottledOnSS : ι → ℕ
  /-- The timestamps whose wait a signal has cut short. -/
  cutShort : List ℕ

/-- The turns of the machine. -/
inductive ThrottleAct (ι : Type*) where
  /-- A turn of the commit protocol. -/
  | turn (a : Act ι)
  /-- The checkpoint thread publishes a checkpoint. -/
  | publish (ts : ℕ)
  /-- A turn of the loop, with what `signal_pending` says. -/
  | poll (i : ι) (signalPending : Bool)

/-- A thread that has reported its commit goes into the loop. -/
def enterLoop : Pc → Pc → Option (ℕ × Bool) → Option (ℕ × Bool)
  | .report n, .idle, _ => some (n, false)
  | _, _, w => w

section Machine

variable {ι : Type*} [DecidableEq ι]

/-- Thread `i` leaves the loop. -/
def Throttling.leaveLoop (s : Throttling ι) (i : ι) (wasThrottled : Bool) : Throttling ι :=
  { s with
    waiting := Function.update s.waiting i none
    nWriteTxnsThrottledOnSS :=
      if wasThrottled then
        Function.update s.nWriteTxnsThrottledOnSS i (s.nWriteTxnsThrottledOnSS i + 1)
      else s.nWriteTxnsThrottledOnSS }

/-- One turn. -/
def throttleStep (s : Throttling ι) : ThrottleAct ι → Option (Throttling ι)
  | .turn a =>
    if (a.thread.bind s.waiting).isSome then none
    else (step s.commit a).map fun commit => { s with
      commit := commit
      waiting := fun i => enterLoop (s.commit.pc i) (commit.pc i) (s.waiting i) }
  | .publish ts =>
    if s.published ≤ ts ∧ ts ≤ s.commit.masterTs then some { s with published := ts } else none
  | .poll i signalPending =>
    match s.waiting i with
    | none => none
    | some (nextTs, wasThrottled) =>
      if s.published + maxWriteTxnsSinceCheckpoint < nextTs then
        if signalPending then
          some ({ s with cutShort := nextTs :: s.cutShort }.leaveLoop i true)
        else some { s with waiting := Function.update s.waiting i (some (nextTs, true)) }
      else some (s.leaveLoop i wasThrottled)

/-- Commits that are throttled. -/
def throttled (ι : Type*) [DecidableEq ι] : Machine (Throttling ι) (ThrottleAct ι) where
  init s := Init s.commit ∧ s.published = 0 ∧ (∀ i, s.waiting i = none) ∧ s.cutShort = []
  step := throttleStep

/-- Log entries are deleted as `sivfs_gc_log` does. -/
def ThrottleKept (s : Throttling ι) : ThrottleAct ι → Prop
  | .turn a => LogKept s.commit a
  | _ => True

/-- The thread is committing, or waits in the loop. -/
def Throttling.Busy (s : Throttling ι) (i : ι) : Prop :=
  s.commit.pc i ≠ .idle ∨ s.waiting i ≠ none

/-! ### Who holds a timestamp -/

/-- A thread at `p` has reserved `t` and has not reported it. -/
def Pc.Claims (p : Pc) (t : ℕ) : Prop := p.owned = some t ∨ p = .report t ∨ p = .fault

/-- Thread `i` holds `t`. -/
def Throttling.Claims (s : Throttling ι) (i : ι) (t : ℕ) : Prop :=
  (s.commit.pc i).Claims t ∨ ∃ w, s.waiting i = some (t, w)

/-- The timestamps that are held back. -/
def Throttling.Behind (s : Throttling ι) (t : ℕ) : Prop :=
  s.published + maxWriteTxnsSinceCheckpoint < t ∧ t ≤ s.commit.top ∧ t ∉ s.cutShort

/-- Every timestamp that is held back is held by a thread of its own. -/
structure Claimed (s : Throttling ι) : Prop where
  ctl : Ctl s.commit
  idle : ∀ i, s.waiting i ≠ none → s.commit.pc i = .idle
  holder : ∃ holder : ℕ → Option ι,
    (∀ t, s.Behind t → ∃ i, holder t = some i ∧ s.Claims i t) ∧
    ∀ t t', s.Behind t → s.Behind t' → holder t = holder t' → t = t'

section Steps

variable {s s' : Throttling ι} {c c' : State ι}

omit [DecidableEq ι] in
/-- A move gives a timestamp up only by reporting it. -/
theorem Moves.claims {i : ι} {p p' : Pc} (h : Moves c i p p') {t : ℕ} (ht : p.Claims t) :
    p'.Claims t ∨ (p = .report t ∧ p' = .idle) := by
  cases h with
  | fault => exact .inl (.inr (.inr rfl))
  | report => simpa [Pc.Claims, Pc.owned] using ht
  | begin | interrupt => simp [Pc.Claims, Pc.owned] at ht
  | _ => exact .inl (.inl (by simpa [Pc.Claims, Pc.owned] using ht))

omit [DecidableEq ι] in
theorem Stores.claims {n : ℕ} {own own' : LogEntry} {p p' : Pc} (h : Stores c n own p p' own')
    {t : ℕ} (ht : p.Claims t) : p'.Claims t := by
  cases h <;> exact .inl (by simpa [Pc.Claims, Pc.owned] using ht)

/-- Only thread `i` moves, and it keeps its timestamp or reports it. -/
theorem claims_goto {c₁ : State ι} {i : ι} {p : Pc} (hthr : c₁.threads = c.threads)
    (hi : ∀ t, (c.pc i).Claims t → p.Claims t ∨ (c.pc i = .report t ∧ p = .idle)) (j : ι) (t : ℕ)
    (ht : (c.pc j).Claims t) : ((c₁.goto i p).pc j).Claims t ∨
      (c.pc j = .report t ∧ (c₁.goto i p).pc j = .idle) := by
  by_cases hji : j = i
  · subst hji
    rw [State.goto_pc_self]
    exact hi t ht
  · rw [State.goto_pc_of_ne _ _ hji, State.pc, hthr]
    exact .inl ht

/-- **What a turn does to the timestamps that are held**: nothing, or one of them is reported,
or the next one is reserved. -/
theorem turn_claims (hc : Ctl c) (h : Turn c c') :
    (c'.top = c.top ∨ ∃ i, c.pc i ≠ .idle ∧ (∀ t, ¬(c.pc i).Claims t) ∧ c'.top = c.top + 1 ∧
      (c'.pc i).Claims (c.top + 1)) ∧
    ∀ j t, (c.pc j).Claims t →
      (c'.pc j).Claims t ∨ (c.pc j = .report t ∧ c'.pc j = .idle) := by
  have hnone : ∀ {i p}, c.pc i = p → p.owned = none → (∀ n, p ≠ .report n) → p ≠ .fault →
      ∀ t, ¬(c.pc i).Claims t := by
    rintro i p rfl ho hr hf t (ht | ht | ht)
    · rw [ho] at ht
      simp at ht
    · exact hr t ht
    · exact hf ht
  cases h with
  | snapshot i ts hpc hts =>
    refine ⟨.inl rfl, fun j t ht => .inl ?_⟩
    rw [State.snapshot_pc hpc]
    exact ht
  | move hm => exact ⟨.inl rfl, claims_goto rfl fun t => hm.claims⟩
  | store _ hs => exact ⟨.inl rfl, claims_goto rfl fun t ht => .inl (hs.claims ht)⟩
  | acquire hpc =>
    exact ⟨.inl rfl, claims_goto rfl fun t ht =>
      absurd ht (hnone hpc rfl (by simp) (by simp) t)⟩
  | createFails hpc =>
    exact ⟨.inl rfl, claims_goto rfl fun t ht =>
      absurd ht (hnone hpc rfl (by simp) (by simp) t)⟩
  | @create i ws hpc =>
    have hno := hnone hpc rfl (by simp) (by simp)
    have htop : c.commitStartedTs = c.top := hc.started_eq (by rw [hpc]; rfl) (by rw [hpc]; rfl)
    refine ⟨.inr ⟨i, by simp [hpc], hno, ?_, ?_⟩, claims_goto rfl fun t ht => absurd ht (hno t)⟩
    · rw [← htop]
      rfl
    · rw [State.goto_pc_self, htop]
      exact .inl rfl
  | started hpc | unlock hpc =>
    refine ⟨.inl rfl, claims_goto rfl fun t ht => .inl (.inl ?_)⟩
    rw [hpc] at ht
    simpa [Pc.Claims, Pc.owned] using ht
  | release hpc =>
    refine ⟨.inl rfl, claims_goto rfl fun t ht => .inl (.inr (.inl ?_))⟩
    rw [hpc] at ht
    simpa [Pc.Claims, Pc.owned] using ht
  | delete => exact ⟨.inl rfl, fun j t ht => .inl ht⟩

omit [DecidableEq ι] in
/-- A thread in the loop is idle, so that it holds one timestamp. -/
theorem Claimed.eq_of_waiting (h : Claimed s) {i : ι} {n t : ℕ} {w : Bool}
    (hi : s.waiting i = some (n, w)) (ht : s.Claims i t) : t = n := by
  rcases ht with ht | ⟨w', ht⟩
  · rw [h.idle i (by simp [hi])] at ht
    simp [Pc.Claims, Pc.owned] at ht
  · rw [hi, Option.some.injEq, Prod.mk.injEq] at ht
    exact ht.1.symm

/-- A turn of the commit protocol. -/
theorem Claimed.turn (h : Claimed s) {a : Act ι} (hfree : (a.thread.bind s.waiting).isSome = false)
    (hstep : step s.commit a = some c') (hk : LogKept s.commit a) :
    Claimed { s with
      commit := c'
      waiting := fun i => enterLoop (s.commit.pc i) (c'.pc i) (s.waiting i) } := by
  have hturn := step_turn hstep hk
  obtain ⟨htop, hclaims⟩ := turn_claims h.ctl hturn
  set s₁ : Throttling ι := { s with
    commit := c'
    waiting := fun i => enterLoop (s.commit.pc i) (c'.pc i) (s.waiting i) } with hs₁
  have hkept : ∀ i w, s.waiting i = some w → s₁.waiting i = some w := by
    intro i w hw
    show enterLoop (s.commit.pc i) (c'.pc i) (s.waiting i) = _
    rw [h.idle i (by simp [hw]), hw]
    rfl
  have hclaim : ∀ i t, s.Claims i t → s₁.Claims i t := by
    rintro i t (ht | ⟨w, ht⟩)
    · rcases hclaims i t ht with ht | ⟨hr, hi⟩
      · exact .inl ht
      · refine .inr ⟨false, ?_⟩
        show enterLoop (s.commit.pc i) (c'.pc i) (s.waiting i) = _
        rw [hr, hi]
        rfl
    · exact .inr ⟨w, hkept i _ ht⟩
  obtain ⟨holder, hholds, hinj⟩ := h.holder
  refine ⟨h.ctl.turn hturn, fun i hi => ?_, ?_⟩
  · show c'.pc i = .idle
    by_cases hw : s.waiting i = none
    · by_contra hne
      refine hi ?_
      show enterLoop (s.commit.pc i) (c'.pc i) (s.waiting i) = none
      unfold enterLoop
      split
      · exact absurd ‹c'.pc i = .idle› hne
      · exact hw
    · rw [step_pc_of_ne hstep, h.idle i hw]
      intro hthr
      rw [hthr] at hfree
      simp [Option.isSome_iff_ne_none.2 hw] at hfree
  · rcases htop with htop | ⟨i, hi, hno, htop, hnew⟩
    · have hbehind : ∀ t, s₁.Behind t ↔ s.Behind t := fun t => by
        rw [Throttling.Behind, Throttling.Behind, hs₁, htop]
      refine ⟨holder, fun t ht => ?_,
        fun t t' ht ht' => hinj t t' ((hbehind t).1 ht) ((hbehind t').1 ht')⟩
      obtain ⟨i, hi, hc⟩ := hholds t ((hbehind t).1 ht)
      exact ⟨i, hi, hclaim i t hc⟩
    · -- the new timestamp goes to a thread that holds none
      have hbehind : ∀ t, s₁.Behind t → t ≠ s.commit.top + 1 → s.Behind t := by
        rintro t ⟨ht, hle, hcut⟩ hne
        have hle' : t ≤ c'.top := hle
        exact ⟨ht, by omega, hcut⟩
      have hfresh : ∀ t, s.Behind t → holder t ≠ some i := by
        intro t ht heq
        obtain ⟨j, hj, hc⟩ := hholds t ht
        obtain rfl : i = j := Option.some.inj (heq.symm.trans hj)
        rcases hc with hc | ⟨w, hw⟩
        · exact hno t hc
        · exact hi (h.idle i (by simp [hw]))
      refine ⟨Function.update holder (s.commit.top + 1) (some i), fun t ht => ?_,
        fun t t' ht ht' heq => ?_⟩
      · by_cases hne : t = s.commit.top + 1
        · rw [hne, Function.update_self]
          exact ⟨i, rfl, .inl hnew⟩
        · rw [Function.update_of_ne hne]
          obtain ⟨j, hj, hc⟩ := hholds t (hbehind t ht hne)
          exact ⟨j, hj, hclaim j t hc⟩
      · by_cases hne : t = s.commit.top + 1 <;> by_cases hne' : t' = s.commit.top + 1
        · rw [hne, hne']
        · rw [hne, Function.update_self, Function.update_of_ne hne'] at heq
          exact absurd heq.symm (hfresh t' (hbehind t' ht' hne'))
        · rw [hne', Function.update_self, Function.update_of_ne hne] at heq
          exact absurd heq (hfresh t (hbehind t ht hne))
        · rw [Function.update_of_ne hne, Function.update_of_ne hne'] at heq
          exact hinj t t' (hbehind t ht hne) (hbehind t' ht' hne') heq

/-- A thread leaves the loop with a timestamp that is no longer held back. -/
theorem Claimed.leave (h : Claimed s) {i : ι} {n : ℕ} {w : Bool}
    (hi : s.waiting i = some (n, w)) (hcommit : s'.commit = s.commit)
    (hwait : s'.waiting = Function.update s.waiting i none)
    (hbehind : ∀ t, s'.Behind t → s.Behind t ∧ t ≠ n) : Claimed s' := by
  obtain ⟨holder, hholds, hinj⟩ := h.holder
  refine ⟨hcommit ▸ h.ctl, fun j hj => ?_, holder, fun t ht => ?_, fun t t' ht ht' =>
    hinj t t' (hbehind t ht).1 (hbehind t' ht').1⟩
  · rw [hcommit]
    rw [hwait] at hj
    by_cases hji : j = i
    · subst hji
      simp at hj
    · rw [Function.update_of_ne hji] at hj
      exact h.idle j hj
  · obtain ⟨hb, hne⟩ := hbehind t ht
    obtain ⟨j, hj, hc⟩ := hholds t hb
    have hji : j ≠ i := by
      rintro rfl
      exact hne (h.eq_of_waiting hi hc)
    refine ⟨j, hj, ?_⟩
    rw [Throttling.Claims, hcommit, hwait, Function.update_of_ne hji]
    exact hc

/-- **Every turn keeps the timestamps held.** -/
theorem Claimed.step (h : Claimed s) {a : ThrottleAct ι} (hk : ThrottleKept s a)
    (hstep : throttleStep s a = some s') : Claimed s' := by
  cases a with
  | turn a =>
    simp only [throttleStep] at hstep
    split_ifs at hstep with hfree
    obtain ⟨c', hc', rfl⟩ := Option.map_eq_some_iff.1 hstep
    exact h.turn (by simpa using hfree) hc' hk
  | publish ts =>
    simp only [throttleStep] at hstep
    split_ifs at hstep with hts
    obtain rfl := Option.some.inj hstep
    obtain ⟨holder, hholds, hinj⟩ := h.holder
    have hbehind : ∀ t, ({ s with published := ts } : Throttling ι).Behind t → s.Behind t := by
      rintro t ⟨ht, hle, hcut⟩
      have ht' : ts + maxWriteTxnsSinceCheckpoint < t := ht
      exact ⟨by omega, hle, hcut⟩
    exact ⟨h.ctl, h.idle, holder, fun t ht => hholds t (hbehind t ht),
      fun t t' ht ht' => hinj t t' (hbehind t ht) (hbehind t' ht')⟩
  | poll i signalPending =>
    simp only [throttleStep] at hstep
    rcases hi : s.waiting i with _ | ⟨n, w⟩
    · simp [hi] at hstep
    · simp only [hi] at hstep
      split_ifs at hstep with hlt hsig
      · obtain rfl := Option.some.inj hstep
        refine h.leave hi rfl rfl ?_
        rintro t ⟨ht, hle, hcut⟩
        have hcut' : t ∉ n :: s.cutShort := hcut
        rw [List.mem_cons, not_or] at hcut'
        exact ⟨⟨ht, hle, hcut'.2⟩, hcut'.1⟩
      · obtain rfl := Option.some.inj hstep
        obtain ⟨holder, hholds, hinj⟩ := h.holder
        refine ⟨h.ctl, fun j hj => ?_, holder, fun t ht => ?_, hinj⟩
        · by_cases hji : j = i
          · exact hji ▸ h.idle i (by simp [hi])
          · refine h.idle j ?_
            simpa [Function.update_of_ne hji] using hj
        · obtain ⟨j, hj, hc⟩ := hholds t ht
          refine ⟨j, hj, hc.imp_right fun ⟨w', hw⟩ => ?_⟩
          by_cases hji : j = i
          · rw [hji, hi, Option.some.injEq, Prod.mk.injEq] at hw
            exact ⟨true, by simp [hji, hw.1]⟩
          · exact ⟨w', by simpa [Function.update_of_ne hji] using hw⟩
      · obtain rfl := Option.some.inj hstep
        refine h.leave hi rfl rfl ?_
        rintro t ⟨ht, hle, hcut⟩
        refine ⟨⟨ht, hle, hcut⟩, ?_⟩
        rintro rfl
        exact hlt ht

end Steps

/-- At first nothing is held back. -/
theorem claimed_of_init {s : Throttling ι} (h : (throttled ι).init s) : Claimed s := by
  obtain ⟨hinit, -, hwait, -⟩ := h
  have htop : s.commit.top = 0 := by
    rw [State.top, hinit.2.2.2.2.1]
    rfl
  have hnone : ∀ t, ¬s.Behind t := by
    rintro t ⟨ht, hle, -⟩
    omega
  exact ⟨(init_invariants hinit).1, fun i hi => absurd (hwait i) hi, fun _ => none,
    fun t ht => absurd ht (hnone t), fun t _ ht => absurd ht (hnone t)⟩

/-- **The backlog is bounded.**  The commits that are started and not in the last published
checkpoint are at most `SIVFS_MAX_WRITE_TXNS_SINCE_CHECKPOINT`, one for each thread that is
committing or waits, and one for each wait that a signal has cut short. -/
theorem backlog_bounded {s : Throttling ι} (h : (throttled ι).ReachableWith ThrottleKept s)
    {busy : Finset ι} (hbusy : ∀ i, s.Busy i → i ∈ busy) :
    s.commit.commitStartedTs ≤
      s.published + maxWriteTxnsSinceCheckpoint + busy.card + s.cutShort.length := by
  have hc : Claimed s := h.invariant (I := Claimed) (fun s hs => claimed_of_init hs)
    fun s a s' _ hi hk hstep => hi.step hk hstep
  obtain ⟨holder, hholds, hinj⟩ := hc.holder
  set top := s.commit.top with htop
  set bound := s.published + maxWriteTxnsSinceCheckpoint with hbound
  have hstarted : s.commit.commitStartedTs ≤ top := by
    rcases hc.ctl.started with heq | ⟨-, heq⟩ <;> omega
  have hmem : ∀ t, t ∈ Finset.Ioc bound top \ s.cutShort.toFinset ↔ s.Behind t := by
    intro t
    rw [Finset.mem_sdiff, Finset.mem_Ioc, List.mem_toFinset, and_assoc]
    rfl
  -- the threads that hold the timestamps are busy, and different
  have hheld : (Finset.Ioc bound top \ s.cutShort.toFinset).card ≤
      (busy.map Function.Embedding.some).card := by
    refine Finset.card_le_card_of_injOn holder (fun t ht => ?_) fun t ht t' ht' heq =>
      hinj t t' ((hmem t).1 ht) ((hmem t').1 ht') heq
    obtain ⟨i, hi, hclaim⟩ := hholds t ((hmem t).1 ht)
    rw [hi]
    refine Finset.mem_coe.2 (Finset.mem_map.2 ⟨i, hbusy i ?_, rfl⟩)
    rcases hclaim with hclaim | ⟨w, hw⟩
    · left
      intro hidle
      rw [hidle] at hclaim
      simp [Pc.Claims, Pc.owned] at hclaim
    · right
      simp [hw]
  have hsplit : (Finset.Ioc bound top).card ≤
      (Finset.Ioc bound top \ s.cutShort.toFinset).card + s.cutShort.toFinset.card :=
    Finset.card_le_card_sdiff_add_card
  have hcut : s.cutShort.toFinset.card ≤ s.cutShort.length := List.toFinset_card_le _
  rw [Nat.card_Ioc] at hsplit
  rw [Finset.card_map] at hheld
  omega

end Machine

/-- Before the first commit. -/
def unthrottled : Throttling Unit where
  commit := ⟨0, 0, none, fun _ => none, none, 0, fun _ => ⟨invalidTs, .idle⟩⟩
  published := 0
  waiting := fun _ => none
  nWriteTxnsThrottledOnSS := fun _ => 0
  cutShort := []

/-- A thread commits and goes into the loop. -/
def oneThrottled : List (ThrottleAct Unit) :=
  [.turn (.checkout ()), .turn (.begin () [⟨7, 0, 0, 0, 1⟩]), .turn (.acquire ())] ++
    .replicate 10 (.turn (.next ()))

/-- No log entry is deleted. -/
def deletesNothing : Throttling Unit → ThrottleAct Unit → Bool
  | _, .turn (.deleteLog _) => false
  | _, _ => true

/-- The bound for a thread that waits. -/
theorem backlog_bounded_oneThrottled : ∃ s, (throttled Unit).ReachableWith ThrottleKept s ∧
    s.waiting () = some (1, false) ∧ s.commit.commitStartedTs ≤
      s.published + maxWriteTxnsSinceCheckpoint + 1 + s.cutShort.length := by
  have hrun : ((throttled Unit).run deletesNothing unthrottled oneThrottled).map
      (fun s => s.waiting ()) = some (some (1, false)) := by decide
  obtain ⟨s, hs, hwait⟩ := Option.map_eq_some_iff.1 hrun
  have hreach : (throttled Unit).ReachableWith ThrottleKept s := by
    refine Machine.ReachableWith.run (fun s a ha => ?_)
      (.init ⟨⟨rfl, rfl, rfl, fun _ => rfl, rfl, rfl, fun _ => rfl⟩, rfl, fun _ => rfl, rfl⟩) hs
    cases a with
    | turn a =>
      cases a with
      | deleteLog stop => simp [deletesNothing] at ha
      | _ => trivial
    | _ => trivial
  have hall : ∀ i, s.Busy i → i ∈ ({()} : Finset Unit) := fun i _ => Finset.mem_singleton_self i
  exact ⟨s, hreach, hwait, backlog_bounded hreach hall⟩

end Commit
end Sivfs
