/-
# Each step is one of the abstract machine

The machine of `Sivfs.Commit.Memory` and the one of `Sivfs.Checkpoint.Snapshot` agree behind
every checkpoint that is published or checked out, since `sivfs_gc_log` asks for those (`Kept`,
`Sound.readable_eq`).  A turn of the protocol is one step there or none (`Sound.turn`), as are
the exchange of a checkpoint (`Sound.exchange`) and the making of one
(`Sound.makeCheckpoint`); so what is proved of every state there holds here (`sound`).
-/

import Sivfs.Commit.Memory

namespace Sivfs
namespace Memory

open Checkpoint (Cp Heap Shared MakeFaults)
open Isolation (Txn contents)

/-! ### The invariant -/

section Machine

variable {ι : Type*} [DecidableEq ι]

/-- What holds between the threads, the checkpoints and the log. -/
structure Inv (s : State ι) : Prop where
  prior : ∀ i, (s.held i).priorTs ≤ (s.commit.threads i).ts
  freedLatest : ∀ t e, s.commit.log t = some e → e.freed = true → t < s.latest.cpTs
  freedHeld : ∀ t e, s.commit.log t = some e → e.freed = true →
    ∀ i, (t : Ts) < (s.held i).checkpointTs
  words : Commit.WholeWords s.commit

/-- Everything that holds in a run. -/
structure Sound (s : State ι) : Prop where
  commit : (Commit.protocol ι).ReachableWith Commit.LogKept s.commit
  whole : (Checkpoint.machine ι).Reachable s.whole
  inv : Inv s

variable {s s' : State ι} {a : Commit.Act ι}

/-- What a deletion spares is what the threads may still ask for. -/
theorem Sound.logKept (h : Sound s) (hk : Kept s (.turn a)) : Commit.LogKept s.commit a := by
  cases a with
  | deleteLog stop =>
    obtain ⟨hlatest, hheld⟩ := hk
    have hle : s.latest.cpTs ≤ s.commit.ended.length :=
      (Checkpoint.reachable_inv h.whole).shared.latest.le
    refine ⟨hlatest.trans (by simpa using hle), fun i x hx => ?_⟩
    have hstop := (hheld i).2.trans (h.inv.prior i)
    rw [hx] at hstop
    exact Nat.le_succ_of_le (by exact_mod_cast hstop)
  | _ => trivial

omit [DecidableEq ι] in
theorem whole_masterTs (s : State ι) : s.whole.masterTs = s.commit.masterTs :=
  s.commit.length_ended

/-- Behind the latest checkpoint, and behind every checkpoint that is checked out, a reader
finds the whole log. -/
theorem Sound.readable_eq (h : Sound s) {cp : Cp}
    (hcp : cp = s.latest ∨ ∃ i, (s.held i).checkpoint = some cp) :
    tsToLogEntry s.shared.log (cp.cpTs + 1) = tsToLogEntry s.whole.log (cp.cpTs + 1) := by
  have hinv := Checkpoint.reachable_inv h.whole
  have hle : cp.cpTs ≤ s.commit.masterTs := by
    rw [← whole_masterTs]
    rcases hcp with rfl | ⟨i, hi⟩
    · exact hinv.shared.latest.le
    · exact (hinv.threads i cp hi).le
  refine tsToLogEntry_readable h.commit hle fun t e he hf => ?_
  rcases hcp with rfl | ⟨i, hi⟩
  · exact (h.inv.freedLatest t e he hf).le
  · have hlt := h.inv.freedHeld t e he hf i
    rw [Held.checkpointTs, hi] at hlt
    exact (WithTop.coe_lt_coe.1 hlt).le

/-- A thread gives up its checkpoint with its snapshot, or keeps it. -/
theorem heldAfter_checkpointTs (s : State ι) (a : Commit.Act ι) (i : ι) :
    (s.heldAfter a i).checkpointTs = (s.held i).checkpointTs ∨
      (s.heldAfter a i).checkpointTs = invalidTs := by
  cases a with
  | checkout j =>
    by_cases hij : i = j
    · subst hij
      simp only [State.heldAfter, Function.update_self]
      exact .inl rfl
    · exact .inl (congrArg Held.checkpointTs (Function.update_of_ne hij ..))
  | pause j =>
    by_cases hij : i = j
    · subst hij
      simp only [State.heldAfter, Function.update_self]
      exact .inr rfl
    · exact .inl (congrArg Held.checkpointTs (Function.update_of_ne hij ..))
  | _ => exact .inl rfl

/-- Entries are freed behind what is checked out. -/
theorem Inv.freed (h : Inv s) (hk : Kept s (.turn a)) {c : Commit.State ι}
    (hstep : Commit.step s.commit a = some c) {t : ℕ} {e : Commit.LogEntry}
    (he : c.log t = some e) (hf : e.freed = true) :
    t < s.latest.cpTs ∧ ∀ i, (t : Ts) < (s.held i).checkpointTs := by
  rcases Commit.step_freed hstep he hf with ⟨e, he, hf⟩ | ⟨stop, rfl, hlt⟩
  · exact ⟨h.freedLatest t e he hf, h.freedHeld t e he hf⟩
  · obtain ⟨hlatest, hheld⟩ := hk
    exact ⟨hlt.trans_le hlatest, fun i => lt_of_lt_of_le (by exact_mod_cast hlt) (hheld i).1⟩

/-- **A turn of the protocol keeps the invariant**, if the snapshots stay above the checkpoints
that are given up. -/
theorem Sound.turn_inv (h : Sound s) (hk : Kept s (.turn a)) {c : Commit.State ι}
    (hstep : Commit.step s.commit a = some c)
    (hprior : ∀ i, (s.heldAfter a i).priorTs ≤ (c.threads i).ts) :
    Inv (s.turned a c) := by
  have ht := Commit.step_turn hstep (h.logKept hk)
  refine ⟨hprior, fun t e he hf => (h.inv.freed hk hstep he hf).1, fun t e he hf i => ?_, ?_⟩
  · show (t : Ts) < (s.heldAfter a i).checkpointTs
    rcases heldAfter_checkpointTs s a i with heq | htop
    · rw [heq]
      exact (h.inv.freed hk hstep he hf).2 i
    · rw [htop]
      exact WithTop.coe_lt_top t
  · refine h.inv.words.turn (Commit.invariants h.commit).1 ht fun i ws hlock => ?_
    rcases Commit.step_lock hstep hlock with hold | rfl
    · exact .inl hold
    · exact .inr hk

/-- The whole log after a turn of the protocol. -/
theorem whole_turned {c : Commit.State ι} {ended : List (Txn (List WsEntry))} {ts : ι → Ts}
    (hended : c.ended = ended) (hts : ∀ i, (c.threads i).ts = ts i) :
    (s.turned a c).whole = { s.whole with
      log := history ended
      masterTs := ended.length
      threads := fun i => ⟨ts i, (s.heldAfter a i).checkpoint⟩ } := by
  rw [State.whole, State.turned, hended]
  simp only [hts]
  rfl

/-- **A turn of the protocol.** -/
theorem Sound.turn (h : Sound s) (hk : Kept s (.turn a)) (hready : s.ready a = true)
    {c : Commit.State ι} (hstep : Commit.step s.commit a = some c) :
    Sound (s.turned a c) := by
  have hkept := h.logKept hk
  have hsim := Commit.step_store h.commit hkept hstep
  have hcommit : (Commit.protocol ι).ReachableWith Commit.LogKept c := .step a h.commit hkept hstep
  have hinv := h.turn_inv hk hstep
  rcases Commit.event_cases s.commit a with ⟨i, rfl⟩ | ⟨i, rfl⟩ | ⟨i, n, own, hown, rfl, hevent⟩ |
    ⟨hother, hevent⟩
  · obtain ⟨cp, hcp⟩ := Option.isSome_iff_exists.1 hready
    have hstore := (Option.some.inj hsim).symm
    have hended : c.ended = s.commit.ended := congrArg Isolation.Store.ended hstore
    have hts (j : ι) : (c.threads j).ts = Function.update (fun j => (s.commit.threads j).ts) i
        (s.commit.ended.length : Ts) j := congrFun (congrArg Isolation.Store.snapshot hstore) j
    refine ⟨hcommit, .step (.update i) h.whole trivial ?_, hinv fun j => ?_⟩
    · rw [whole_turned hended hts]
      refine congrArg some ?_
      simp only [Checkpoint.State.setThread, State.whole, Checkpoint.State.mk.injEq, true_and]
      funext j
      by_cases hij : j = i
      · subst hij
        simp [State.heldAfter]
      · simp [State.heldAfter, Function.update_of_ne hij]
    · rw [hts]
      by_cases hij : j = i
      · subst hij
        simp only [State.heldAfter, Function.update_self, Held.checkpointTs, hcp]
        exact WithTop.coe_le_coe.2 ((Checkpoint.reachable_inv h.whole).threads j cp hcp).le
      · simp only [State.heldAfter, Function.update_of_ne hij]
        exact h.inv.prior j
  · have hstore := (Option.some.inj hsim).symm
    have hended : c.ended = s.commit.ended := congrArg Isolation.Store.ended hstore
    have hts (j : ι) : (c.threads j).ts = Function.update (fun j => (s.commit.threads j).ts) i
        invalidTs j := congrFun (congrArg Isolation.Store.snapshot hstore) j
    refine ⟨hcommit, .step (.pause i) h.whole trivial ?_, hinv fun j => ?_⟩
    · rw [whole_turned hended hts]
      refine congrArg some ?_
      simp only [Checkpoint.State.setThread, State.whole, Checkpoint.State.mk.injEq, true_and]
      funext j
      by_cases hij : j = i
      · subst hij
        simp [State.heldAfter]
      · simp [State.heldAfter, Function.update_of_ne hij]
    · rw [hts]
      by_cases hij : j = i
      · subst hij
        simp [State.heldAfter]
      · simp only [State.heldAfter, Function.update_of_ne hij]
        exact h.inv.prior j
  · have hfinish : Isolation.step Commit.wsConflicts s.commit.store
        (.finish i own.ws (!own.aborted)) = some c.store := by
      rw [hevent] at hsim
      exact hsim
    rw [Isolation.step, Option.ite_none_right_eq_some] at hfinish
    have hstore := (Option.some.inj hfinish.2).symm
    have hended : c.ended = s.commit.ended ++ [⟨s.commit.store.snapshot i, own.ws, !own.aborted⟩] :=
      congrArg Isolation.Store.ended hstore
    have hts (j : ι) : (c.threads j).ts = (s.commit.threads j).ts :=
      congrFun (congrArg Isolation.Store.snapshot hstore) j
    refine ⟨hcommit, .step (.commit own.aborted own.ws) h.whole trivial ?_, hinv fun j => ?_⟩
    · rw [whole_turned hended hts]
      refine (if_pos (h.inv.words.logged n own hown)).trans ?_
      simp only [history_snoc, State.whole, List.length_append, List.length_singleton,
        Bool.not_not, State.heldAfter]
    · rw [hts]
      exact h.inv.prior j
  · have hstore : c.store = s.commit.store := by
      rw [hevent] at hsim
      exact hsim
    have hended : c.ended = s.commit.ended := congrArg Isolation.Store.ended hstore
    have hts (j : ι) : (c.threads j).ts = (s.commit.threads j).ts :=
      congrFun (congrArg Isolation.Store.snapshot hstore) j
    have hheld : s.heldAfter a = s.held := by
      cases a with
      | checkout i => exact absurd rfl (hother i).1
      | pause i => exact absurd rfl (hother i).2
      | _ => rfl
    refine ⟨hcommit, ?_, hinv fun j => ?_⟩
    · rw [whole_turned hended hts, hheld]
      exact h.whole
    · rw [hheld, hts]
      exact h.inv.prior j

/-- A thread takes the latest checkpoint. -/
theorem Sound.exchange (h : Sound s) (i : ι) : Sound { s with
    held := Function.update s.held i { s.held i with checkpoint := some s.latest } } := by
  have hother (j : ι) (hij : j ≠ i) :
      Function.update s.held i { s.held i with checkpoint := some s.latest } j = s.held j :=
    Function.update_of_ne hij ..
  refine ⟨h.commit, .step (.checkout i) h.whole trivial ?_, fun j => ?_, h.inv.freedLatest,
    fun t e he hf j => ?_, h.inv.words⟩
  · refine congrArg some ?_
    simp only [Checkpoint.State.setThread, State.whole, Checkpoint.State.mk.injEq, true_and]
    funext j
    by_cases hij : j = i
    · subst hij
      simp
    · simp [Function.update_of_ne hij]
  · dsimp only
    by_cases hij : j = i
    · subst hij
      rw [Function.update_self]
      exact h.inv.prior j
    · rw [hother j hij]
      exact h.inv.prior j
  · dsimp only
    by_cases hij : j = i
    · subst hij
      rw [Function.update_self]
      exact WithTop.coe_lt_coe.2 (h.inv.freedLatest t e he hf)
    · rw [hother j hij]
      exact h.inv.freedHeld t e he hf j

/-- **The checkpoint thread** finds what it needs of the log. -/
theorem Sound.makeCheckpoint (h : Sound s) (faults : MakeFaults) : Sound { s with
    heap := (Checkpoint.makeCheckpoint faults s.shared).1.heap
    latest := (Checkpoint.makeCheckpoint faults s.shared).1.latest } := by
  have hle := (Checkpoint.reachable_inv h.whole).shared.latest.le
  obtain ⟨hlog, hmaster, hlatest⟩ := Checkpoint.makeCheckpoint_stores faults hle
  have hshared : s.shared = { s.whole.toShared with log := readable s.commit } := by
    rw [State.shared, State.whole, s.commit.length_ended]
  have hmade : (Checkpoint.makeCheckpoint faults s.shared).1 =
      { (Checkpoint.makeCheckpoint faults s.whole.toShared).1 with log := readable s.commit } := by
    rw [hshared]
    exact makeCheckpoint_congr faults (h.readable_eq (.inl rfl))
  rw [hmade]
  refine ⟨h.commit, .step (.makeCheckpoint faults) h.whole trivial ?_, h.inv.prior,
    fun t e he hf => (h.inv.freedLatest t e he hf).trans_le hlatest, h.inv.freedHeld, h.inv.words⟩
  refine congrArg some ?_
  generalize (Checkpoint.makeCheckpoint faults s.whole.toShared).1 = made at hlog hmaster
  obtain ⟨log, masterTs, heap, latest⟩ := made
  obtain rfl : log = s.whole.log := hlog
  obtain rfl : masterTs = s.whole.masterTs := hmaster
  rfl

/-- **Every step keeps everything.** -/
theorem Sound.step (h : Sound s) {a : Act ι} (hk : Kept s a) (hstep : step s a = some s') :
    Sound s' := by
  cases a with
  | turn a =>
    simp only [Memory.step] at hstep
    split_ifs at hstep with hready
    obtain ⟨c, hc, rfl⟩ := Option.map_eq_some_iff.1 hstep
    exact h.turn hk hready hc
  | exchange i =>
    simp only [Memory.step] at hstep
    split_ifs at hstep
    obtain rfl := Option.some.inj hstep
    exact h.exchange i
  | makeCheckpoint faults =>
    obtain rfl := Option.some.inj hstep
    exact h.makeCheckpoint faults

/-- After mounting. -/
theorem Init.sound (h : Init s) : Sound s := by
  obtain ⟨hcommit, hheap, hlatest, hheld⟩ := h
  have hended := (Commit.init_store hcommit).1
  have hlog := hcommit.2.2.2.1
  have hthr := hcommit.2.2.2.2.2.2
  refine ⟨.init hcommit, .init ⟨?_, fun i => ?_⟩, fun i => ?_, fun t e he => ?_, fun t e he => ?_,
    fun i ws hi => ?_, fun t e he => ?_⟩
  · rw [State.whole, hended, hheap, hlatest]
    rfl
  · rw [State.whole]
    simp only [hthr, hheld]
  · rw [hheld, hthr]
  · rw [hlog] at he
    cases he
  · rw [hlog] at he
    cases he
  · rw [Commit.State.pc, hthr] at hi
    cases hi
  · rw [hlog] at he
    cases he

/-- **It holds in every run.** -/
theorem sound (h : (machine ι).ReachableWith Kept s) : Sound s :=
  h.invariant (fun _ hs => Init.sound hs) fun _ _ _ _ hs hk hstep => hs.step hk hstep

end Machine

end Memory
end Sivfs
