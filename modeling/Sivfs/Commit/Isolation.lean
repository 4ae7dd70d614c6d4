/-
# The commit protocol is snapshot isolation

What `sivfs_commit_changes` does in many turns, seen from outside, happens in one: the store
of `Sivfs.Lib.Isolation` has the entries up to `master_ts`, and a transaction ends when
`master_ts` is moved over its entry.

| turn of the protocol | step of the store |
| --- | --- |
| `state->ts = master_ts` | `take` |
| `SIVFS_TXN_PAUSE` | `drop` |
| `master_ts` from `next_ts - 1` to `next_ts` | `finish` |
| any other | none |

At that turn everything below `next_ts` is decided: that the step may commit is what the
thread knows of its entry (`Facts`), that it may abort is `Judged`.  What holds of the store
then holds of the log (`no_update_lost`).
-/

import Sivfs.Commit.Verdicts
import Sivfs.Lib.Isolation

namespace Sivfs
namespace Commit

open Isolation (Txn isolation contents)

/-- The snapshot of a thread; `SIVFS_INVALID_TS` is none. -/
def snapshotOf (ts : Ts) : Option ℕ := ts

@[simp] theorem snapshotOf_coe (x : ℕ) : snapshotOf (x : Ts) = some x := rfl

theorem snapshotOf_eq_some {ts : Ts} {x : ℕ} : snapshotOf ts = some x ↔ ts = (x : Ts) := Iff.rfl

/-- What the store knows of an entry. -/
def LogEntry.txn (e : LogEntry) : Txn (List WsEntry) := ⟨snapshotOf e.snap, e.ws, !e.aborted⟩

namespace State

variable {ι : Type*} (s : State ι)

/-- The transactions up to `master_ts`. -/
def ended : List (Txn (List WsEntry)) := (List.range s.masterTs).map fun k =>
  (s.log (k + 1)).elim ⟨none, [], false⟩ LogEntry.txn

/-- The protocol seen as a store. -/
def store : Isolation.Store ι (List WsEntry) where
  ended := s.ended
  snapshot := fun i => snapshotOf (s.threads i).ts

/-- The step of the store that a turn of the protocol makes. -/
def event : Act ι → Option (Isolation.Act ι (List WsEntry))
  | .checkout i => some (.take i)
  | .pause i => some (.drop i)
  | .next i =>
    match s.pc i with
    | .release n => (s.log n).map fun own => .finish i own.ws (!own.aborted)
    | _ => none
  | _ => none

@[simp] theorem length_ended : s.ended.length = s.masterTs := by
  simp [ended]

variable {s}

theorem ended_getElem {t : ℕ} {e : LogEntry} (he : s.log (t + 1) = some e) (ht : t < s.masterTs) :
    s.ended[t]? = some e.txn := by
  simp [ended, ht, he]

end State

section Turn

variable {ι : Type*} {s s' : State ι} {i : ι} {n : ℕ} {own : LogEntry}

/-- What is there at a place of the store is in the log. -/
theorem exists_of_ended (hc : Ctl s) {k : ℕ} {t : Txn (List WsEntry)} (hk : s.ended[k]? = some t) :
    k < s.masterTs ∧ ∃ e, s.log (k + 1) = some e ∧ t = e.txn := by
  have hlt : k < s.masterTs := by
    have hlen := (List.getElem?_eq_some_iff.1 hk).1
    rwa [s.length_ended] at hlen
  have hmaster := hc.master_le
  have hstarted : s.commitStartedTs ≤ s.top := by
    rcases hc.started with h | ⟨-, h⟩ <;> omega
  obtain ⟨e, he⟩ := Option.isSome_iff_exists.1 ((hc.alloc (k + 1)).2 ⟨by omega, by omega⟩)
  rw [State.ended_getElem he hlt] at hk
  exact ⟨hlt, e, he, (Option.some.inj hk).symm⟩

variable [DecidableEq ι]

/-- An entry up to `master_ts` is the same transaction after a turn. -/
theorem Turn.txn (hc : Ctl s) (ht : Turn s s') (he : s.log n = some own) (hn : n ≤ s.masterTs) :
    ∃ own', s'.log n = some own' ∧ own'.txn = own.txn := by
  obtain ⟨own', hown', hdecided⟩ := ht.decided hc he hn
  obtain ⟨own₁, hown₁, -, hsnap⟩ := ht.keeps hc he fun j _ hj => by
    have hlt := (hc.owned j n hj).1
    omega
  obtain rfl := Option.some.inj (hown₁.symm.trans hown')
  exact ⟨own₁, hown', by rw [LogEntry.txn, LogEntry.txn, hsnap, hdecided.ws, hdecided.aborted]⟩

/-- The transactions up to the old `master_ts` stay. -/
theorem Turn.ended (hc : Ctl s) (ht : Turn s s') :
    (List.range s.masterTs).map (fun k => (s'.log (k + 1)).elim ⟨none, [], false⟩ LogEntry.txn) =
      s.ended := by
  refine List.ext_getElem? fun k => ?_
  by_cases hk : k < s.masterTs
  · obtain ⟨-, e, he, -⟩ := exists_of_ended hc (List.getElem?_eq_getElem (by simpa using hk))
    obtain ⟨e', he', htxn⟩ := ht.txn hc he hk
    rw [State.ended_getElem he hk]
    simp [hk, he', htxn]
  · rw [List.getElem?_eq_none (by simpa using hk), List.getElem?_eq_none (by simpa using hk)]

/-- A turn that moves neither `master_ts` nor a snapshot. -/
theorem Turn.store_eq (hc : Ctl s) (ht : Turn s s') (hm : s'.masterTs = s.masterTs)
    (hts : ∀ i, (s'.threads i).ts = (s.threads i).ts) : s'.store = s.store := by
  have hended : s'.ended = s.ended := by
    rw [State.ended, hm]
    exact ht.ended hc
  rw [State.store, State.store, hended]
  simp only [hts]

/-- Thread `i` has moved `master_ts` to `n`. -/
def State.released (s : State ι) (i : ι) (n : ℕ) : State ι :=
  { s with masterTs := n }.goto i (.report n)

/-- Only the turn at `release` moves `master_ts`. -/
theorem Turn.masterTs_cases (ht : Turn s s') : s'.masterTs = s.masterTs ∨
    ∃ i n, s.pc i = .release n ∧ s.masterTs = n - 1 ∧ s' = s.released i n := by
  cases ht with
  | @release i n hpc hm => exact .inr ⟨i, n, hpc, hm, rfl⟩
  | _ => exact .inl rfl

/-- **A thread that releases its entry ends its transaction.** -/
theorem released_store (hc : Ctl s) (hf : Facts s) (hset : Settled s) (hj : Judged s)
    (hpc : s.pc i = .release n) (hm : s.masterTs + 1 = n) (hown : s.log n = some own) :
    Isolation.step wsConflicts s.store (.finish i own.ws (!own.aborted)) =
      some (s.released i n).store := by
  have howned : (s.pc i).owned = some n := by rw [hpc]; rfl
  have hsnap : s.store.snapshot i = snapshotOf own.snap := by
    rw [hf.snap i n own howned hown]
    rfl
  have hallowed : (if !own.aborted then s.store.mayCommit wsConflicts i own.ws
      else s.store.mayAbort wsConflicts i own.ws) = true := by
    have hverdict := hj.verdict i n own howned hown
    rw [hpc] at hverdict
    cases hab : own.aborted with
    | false =>
      have hne : own.snap ≠ invalidTs := hverdict.resolve_right (by simp [hab])
      obtain ⟨x, hcoe⟩ := WithTop.ne_top_iff_exists.1 hne
      have hx : own.snap = (x : Ts) := hcoe.symm
      have hclear := (hf.filled n own hown (hset.releasing i n own hpc hown)).resolve_left
        (by simp [hab])
      refine Isolation.mayCommit_iff.2 ⟨x, by rw [hsnap, hx]; rfl, fun k t hxk hk hcommitted => ?_⟩
      obtain ⟨hkm, e, he, rfl⟩ := exists_of_ended hc hk
      have habove : own.snap < ((k + 1 : ℕ) : Ts) := by
        rw [hx]
        exact_mod_cast Nat.lt_succ_of_le hxk
      have hno := (hclear (k + 1) e he habove (by omega)).resolve_left (by
        simpa [LogEntry.txn] using hcommitted)
      exact Bool.eq_false_iff.2 fun hconflict => hno (wsConflicts_iff.1 hconflict)
    | true =>
      refine Isolation.mayAbort_iff.2 fun x hx => ?_
      rw [hsnap, snapshotOf_eq_some] at hx
      rcases hj.clash n own hown hab with htop | ⟨t, e, he, habove, htn, hshare⟩
      · rw [htop] at hx
        exact absurd hx.symm WithTop.coe_ne_top
      · rw [hx] at habove
        have hxt : x < t := by exact_mod_cast habove
        obtain ⟨k, rfl⟩ : ∃ k, t = k + 1 := ⟨t - 1, by omega⟩
        exact ⟨k, e.txn, Nat.lt_succ_iff.1 hxt, State.ended_getElem he (by omega),
          wsConflicts_iff.2 hshare⟩
  -- the entry is the last of the transactions after the turn
  have hended : (s.released i n).ended =
      s.ended ++ [⟨s.store.snapshot i, own.ws, !own.aborted⟩] := by
    have hlog : (s.released i n).log = s.log := rfl
    have hmaster : (s.released i n).masterTs = s.masterTs + 1 := hm.symm
    rw [State.ended, hmaster, hlog, List.range_succ, List.map_append, ← State.ended]
    simp [hm, hown, LogEntry.txn, hsnap]
  have hts : ∀ j, ((s.released i n).threads j).ts = (s.threads j).ts := fun j => State.goto_ts ..
  rw [Isolation.step, if_pos hallowed]
  refine congrArg some ?_
  simp only [State.store, hended, hts]

omit [DecidableEq ι] in
/-- After mounting the store is empty. -/
theorem init_store (h : Init s) : s.ended = [] ∧ ∀ i, s.store.snapshot i = none := by
  obtain ⟨hm, -, -, -, -, -, hthr⟩ := h
  refine ⟨by simp [State.ended, hm], fun i => ?_⟩
  simp only [State.store, hthr]
  rfl

/-- **A turn is the step of the store that it is said to be.** -/
theorem step_store {a : Act ι} (hr : (protocol ι).ReachableWith LogKept s) (hk : LogKept s a)
    (hstep : step s a = some s') : (s.event a).elim (s'.store = s.store) fun b =>
      Isolation.step wsConflicts s.store b = some s'.store := by
  obtain ⟨hc, -, hf, -⟩ := invariants hr
  have ht := step_turn hstep hk
  have hgoto : ∀ {s₁ : State ι} {i : ι} {p : Pc}, s₁.threads = s.threads →
      ∀ j, ((s₁.goto i p).threads j).ts = (s.threads j).ts := by
    intro s₁ i p hthr j
    rw [State.goto_ts, hthr]
  have hsnapshot : ∀ (i : ι) (ts : Ts), (fun j => snapshotOf
      (Function.update s.threads i ⟨ts, .idle⟩ j).ts) =
        Function.update s.store.snapshot i (snapshotOf ts) := by
    intro i ts
    funext j
    by_cases hj : j = i
    · rw [hj, Function.update_self, Function.update_self]
    · rw [Function.update_of_ne hj, Function.update_of_ne hj]
      rfl
  cases a with
  | checkout i =>
    simp only [step] at hstep
    split_ifs at hstep
    obtain rfl := Option.some.inj hstep
    simp only [State.event, Option.elim_some, Isolation.step, State.store, hsnapshot]
    simp [State.ended]
  | pause i =>
    simp only [step] at hstep
    split_ifs at hstep
    obtain rfl := Option.some.inj hstep
    simp only [State.event, Option.elim_some, Isolation.step, State.store, hsnapshot]
    simp only [State.ended, Option.some.injEq, Isolation.Store.mk.injEq, true_and]
    rfl
  | begin i ws =>
    simp only [step] at hstep
    split_ifs at hstep
    obtain rfl := Option.some.inj hstep
    exact ht.store_eq hc rfl (hgoto rfl)
  | interrupt i | createFails i =>
    simp only [step] at hstep
    split at hstep
    · obtain rfl := Option.some.inj hstep
      exact ht.store_eq hc rfl (hgoto rfl)
    · simp at hstep
  | acquire i =>
    simp only [step] at hstep
    split at hstep
    · split_ifs at hstep
      obtain rfl := Option.some.inj hstep
      exact ht.store_eq hc rfl (hgoto rfl)
    · simp at hstep
  | deleteLog stop =>
    simp only [step] at hstep
    split_ifs at hstep
    obtain rfl := Option.some.inj hstep
    exact ht.store_eq hc rfl fun _ => rfl
  | next i =>
    obtain ⟨s₁, p, hthr, hs'⟩ := next_goto hstep
    have hts : ∀ j, (s'.threads j).ts = (s.threads j).ts := hs' ▸ hgoto hthr
    rcases ht.masterTs_cases with hm | ⟨j, n, hpc, hm, hrel⟩
    · have hnone : State.event s (.next i) = none := by
        rw [State.event]
        split
        · rename_i n hpc
          have hlt := (hc.owned i n (by rw [hpc]; rfl)).1
          simp only [step, next, show (s.threads i).pc = _ from hpc] at hstep
          split_ifs at hstep
          obtain rfl := Option.some.inj hstep
          have heq : n = s.masterTs := hm
          omega
        · rfl
      rw [hnone]
      exact ht.store_eq hc hm hts
    · have hji : j = i := by
        by_contra hne
        have hturn : step s (.next i) = some s' := hstep
        have hsame := step_pc_of_ne hturn (j := j) fun h => hne (Option.some.inj h).symm
        rw [hrel, State.released, State.goto_pc_self, hpc] at hsame
        cases hsame
      subst hji
      have howned : (s.pc j).owned = some n := by rw [hpc]; rfl
      obtain ⟨hlt, hle⟩ := hc.owned j n howned
      obtain ⟨own, hown⟩ := Option.isSome_iff_exists.1 ((hc.alloc n).2 ⟨by omega, hle⟩)
      have hevent : State.event s (.next j) = some (.finish j own.ws (!own.aborted)) := by
        rw [State.event, hpc]
        simp [hown]
      rw [hevent, hrel]
      exact released_store hc hf (settled hr) (judged hr) hpc (by omega) hown

/-- Every state is a state of the store. -/
theorem store_reachable (hr : (protocol ι).ReachableWith LogKept s) :
    (isolation ι (List WsEntry) wsConflicts).Reachable s.store := by
  have hsim : (protocol ι).Simulates LogKept (isolation ι (List WsEntry) wsConflicts) State.store
      State.event := ⟨fun _ => init_store, fun _ _ _ => step_store⟩
  exact hsim.reachable hr

end Turn

/-! ### What the log says of a word -/

/-- What a write-set makes of the words that its entries name.  Of a stream that is the first
word, as for `sivfs_ws_ent_conflicts`. -/
def applyWs (m : ℕ × ℕ → ℕ) (ws : List WsEntry) : ℕ × ℕ → ℕ :=
  ws.foldl (fun m ent => Function.update m (ent.ino, ent.fileOffset) ent.value) m

/-- An entry names a word. -/
def Names (ws : List WsEntry) (a : ℕ × ℕ) : Prop := ∃ ent ∈ ws, (ent.ino, ent.fileOffset) = a

/-- The words, by file and offset, after the transactions up to `t`. -/
def State.wordsAt {ι : Type*} (s : State ι) (t : ℕ) : ℕ × ℕ → ℕ :=
  contents applyWs (fun _ => 0) s.ended t

theorem applyWs_of_not_names {m : ℕ × ℕ → ℕ} {ws : List WsEntry} {a : ℕ × ℕ} (h : ¬Names ws a) :
    applyWs m ws a = m a := by
  induction ws generalizing m with
  | nil => rfl
  | cons ent ws ih =>
    have hne : a ≠ (ent.ino, ent.fileOffset) := fun heq => h ⟨ent, by simp, heq.symm⟩
    have hrest : ¬Names ws a := by
      rintro ⟨ent', hent', heq⟩
      exact h ⟨ent', List.mem_cons_of_mem _ hent', heq⟩
    rw [applyWs, List.foldl_cons, ← applyWs, ih hrest, Function.update_of_ne hne]

theorem not_names_of_conflicts {ws other : List WsEntry} {a : ℕ × ℕ}
    (h : wsConflicts ws other = false) (ha : Names ws a) : ¬Names other a := by
  rintro ⟨y, hy, rfl⟩
  obtain ⟨x, hx, heq⟩ := ha
  obtain ⟨hino, hoff⟩ := Prod.mk.inj heq
  exact Bool.eq_false_iff.1 h (wsConflicts_iff.2 ⟨x, hx, y, hy, hino, hoff⟩)

/-- **No update is lost.**  A transaction that has committed had a snapshot, and at every word
that it writes the log says before its entry what it said at that snapshot. -/
theorem no_update_lost {ι : Type*} [DecidableEq ι] {s : State ι}
    (hr : (protocol ι).ReachableWith LogKept s) {n : ℕ} {e : LogEntry} (he : s.log n = some e)
    (hn : n ≤ s.masterTs) (hcommitted : e.aborted = false) :
    ∃ x : ℕ, x < n ∧ e.snap = (x : Ts) ∧ ∀ a, Names e.ws a →
      s.wordsAt x a = s.wordsAt (n - 1) a := by
  have hsound := Isolation.Sound.of_reachable (store_reachable hr)
  obtain ⟨hc, -⟩ := invariants hr
  obtain ⟨k, rfl⟩ : ∃ k, n = k + 1 := ⟨n - 1, by
    have hpos := ((hc.alloc n).1 (by rw [he]; rfl)).1
    omega⟩
  have hk : s.store.ended[k]? = some e.txn := State.ended_getElem he hn
  have hdone : e.txn.committed = true := by simp [LogEntry.txn, hcommitted]
  obtain ⟨x, hx, hsnap, -⟩ := hsound.isolated k e.txn hk hdone
  refine ⟨x, Nat.lt_succ_of_le hx, snapshotOf_eq_some.1 hsnap, fun a ha => ?_⟩
  rw [Nat.add_sub_cancel]
  exact hsound.isolated.contents_eq (fun _ _ _ h => applyWs_of_not_names h)
    (fun _ _ _ => not_names_of_conflicts) hk hdone hsnap ha

/-- The second of `twoCommits` has the snapshot of the first. -/
theorem no_update_lost_twoCommits : ∃ s e, (protocol Bool).ReachableWith LogKept s ∧
    s.log 2 = some e ∧ ∃ x : ℕ, x < 2 ∧ e.snap = (x : Ts) ∧
      ∀ a, Names e.ws a → s.wordsAt x a = s.wordsAt (2 - 1) a := by
  have hlog : ((protocol Bool).run keepsLog fresh twoCommits).bind (fun s => s.log 2) =
      some ⟨(2 : ℕ), [⟨7, 8, 8, 0, 2⟩], false, true, none, false, (0 : ℕ)⟩ := by decide
  have hmaster : ((protocol Bool).run keepsLog fresh twoCommits).map (fun s => s.masterTs) =
      some 2 := by decide
  obtain ⟨s, hs, hlog⟩ := Option.bind_eq_some_iff.1 hlog
  rw [hs] at hmaster
  have hinit : Init fresh := ⟨rfl, rfl, rfl, fun _ => rfl, rfl, rfl, fun _ => rfl⟩
  have hr : (protocol Bool).ReachableWith LogKept s := by
    refine Machine.ReachableWith.run (fun s a ha => ?_) (.init hinit) hs
    cases a with
    | deleteLog stop => simp [keepsLog] at ha
    | _ => trivial
  have hn : 2 ≤ s.masterTs := (Option.some.inj hmaster).ge
  exact ⟨s, _, hr, hlog, no_update_lost hr hlog hn rfl⟩

end Commit
end Sivfs
