/-
# Turns that read

A turn that stores nothing may change the read set and the place of its thread
(`Inv.setActive`).  What the thread knows then is what it has just read: the word with the owner
and the timestamp before it (`Inv.sampleOk`), the owner after it (`Inv.recheckOwner`), the clock
(`Inv.loadClock`), and in a validation the owner of an entry (`Inv.validateOwner`).
-/

import Sivfs.Locktable.TinyStmInv

namespace Sivfs
namespace Locktable
namespace TinyStm

open History UndoLog

variable {ι : Type} [DecidableEq ι] {cfg : Config} {s s' : State ι} {t t' : Local} {i j : ι}
  {l a v : ℕ}

/-! ### Turns without a store -/

/-- The transaction goes on with the same locks. -/
structure Local.Keeps (t t' : Local) : Prop where
  active : t'.pc.active = true
  thrId : t'.state.thrId = t.state.thrId
  locksHeld : t'.state.locksHeld = t.state.locksHeld

namespace Local

/-- A new entry of the read set leaves the locks alone. -/
theorem keeps_push (entry : ReadEntry) (caller : Caller) : t.Keeps (t.push entry caller) := by
  cases caller <;> exact ⟨rfl, rfl, rfl⟩

/-- So does the validation that may come before it. -/
theorem keeps_addReadSetEntry (entry : ReadEntry) (caller : Caller) :
    t.Keeps (t.addReadSetEntry entry caller) := by
  rw [addReadSetEntry]
  split_ifs
  · exact ⟨rfl, rfl, rfl⟩
  · exact keeps_push entry caller

/-- The loop of a validation goes back to the caller. -/
theorem keeps_finishLoop (loop : Loop) : t.Keeps (t.finishLoop loop) := by
  cases loop with
  | entry entry n caller =>
    rw [finishLoop]
    split_ifs
    · exact ⟨rfl, rfl, rfl⟩
    · exact ⟨(keeps_push ..).active, (keeps_push ..).thrId, (keeps_push ..).locksHeld⟩
  | commit => exact ⟨rfl, rfl, rfl⟩

/-- A validation goes from one entry to the next. -/
theorem keeps_validate (rest : List ReadEntry) (loop : Loop) : t.Keeps (t.validate rest loop) := by
  rw [validate]
  split_ifs
  · exact keeps_finishLoop loop
  · exact ⟨rfl, rfl, rfl⟩

end Local

/-- **A turn that stores nothing**: what the thread knows has to be right, and nothing else
changes. -/
theorem Inv.setActive (h : Inv cfg s) (hid : (s.thread i).state.thrId ≠ 0)
    (hact : (s.thread i).pc.active = true) (hok : LocalOk cfg s t) (hkeeps : (s.thread i).Keeps t) :
    Inv cfg (s.setThread i t) := by
  refine h.setLocal hid hok hkeeps.thrId ?_ ?_
  · rw [Local.held_of_active hact, Local.held_of_active hkeeps.active, hkeeps.locksHeld]
  · rw [Local.unstamped_of_active hact, Local.unstamped_of_active hkeeps.active, hkeeps.locksHeld]

section Reading

variable (h : Inv cfg s)

include h

omit [DecidableEq ι] in
/-- **The word of a read**: under a lock that no other thread is writing under, it is in
every committed state from the timestamp of the lock to now. -/
theorem Inv.sampleOk {owner ts : ℕ} (hpc : (s.thread i).pc = .readWord a owner ts)
    (hforeign : s.writing (cfg.addrToLock a) = true →
      s.lockOwnership (cfg.addrToLock a) = (s.thread i).state.thrId) :
    SampleOk s (s.thread i) a (s.mem a) (s.ts (cfg.addrToLock a)) := by
  have hact : (s.thread i).pc.active = true := by rw [hpc]; rfl
  have hok := h.thread i
  refine ⟨fun hw m => hok.replay hact a m hw, fun hw => ⟨s.globalTs, le_rfl, hok.validated,
    h.table.ts_le _, fun k hk hkg => ?_⟩⟩
  -- The word is the committed one, and nothing of its lock changed since the timestamp.
  suffices hmem : s.mem a = s.committedAt s.globalTs a ∧
      s.lastCommit (cfg.addrToLock a) ≤ s.ts (cfg.addrToLock a) by
    rw [h.table.const a k (hmem.2.trans hk) hkg, hmem.1]
  by_cases hwriting : s.writing (cfg.addrToLock a) = true
  · have hheld := h.held_of_owner (h.thrId_of_pc (by rw [hpc]; simp)) (hforeign hwriting)
    refine ⟨?_, hok.fresh hact _ hheld⟩
    rw [← hok.undo a hheld, rollback_of_not_mem]
    rw [Local.pending_of_active hact]
    exact fun ha => hw (hok.writes_of_plain (by rw [hpc]; rfl) ha)
  · have hquiet := h.table.quiet _ (Bool.eq_false_iff.2 hwriting)
    exact ⟨hquiet.2 a rfl, hquiet.1⟩

omit [DecidableEq ι] in
/-- **A read passes its checks.** -/
theorem Inv.recheckOwner {owner ts : ℕ} {foreign : Bool}
    (hpc : (s.thread i).pc = .recheckOwner a owner ts v foreign) (hforeign : foreign = false) :
    LocalOk cfg s ((s.thread i).addReadSetEntry ⟨cfg.addrToLock a, ts⟩ (.read a v)) := by
  have hok := h.thread i
  obtain ⟨hts, hown, hother⟩ : ts ≤ s.globalTs ∧ SampleOk s (s.thread i) a v ts :=
    hok.pcOk hpc hforeign
  refine hok.addReadSetEntry (by rw [hpc]; rfl) hts fun n hn => ⟨rfl, hown, fun hw => ?_⟩
  obtain ⟨g, hg, hval, hle, hk⟩ := hother hw
  refine ⟨?_, hk ts le_rfl hle⟩
  rcases hn with rfl | ⟨hn, rfl⟩
  · exact hk _ le_rfl hle
  · exact hk _ hn hval

omit [DecidableEq ι] in
/-- **The clock is loaded for a validation.** -/
theorem Inv.loadClock {entry : ReadEntry} {caller : Caller}
    (hpc : (s.thread i).pc = .loadClock entry caller)
    (hguard : ∀ a v, caller = .read a v → s.lastCommit entry.lockid ≤ entry.ts) :
    LocalOk cfg s
      ((s.thread i).validate (s.thread i).state.readset (.entry entry s.globalTs caller)) := by
  have hok := h.thread i
  obtain ⟨hts, hcaller⟩ : entry.ts ≤ s.globalTs ∧
      CallerOk cfg s (s.thread i) entry entry.ts caller := hok.pcOk hpc
  refine hok.validate (by rw [hpc]; rfl) ⟨le_rfl, hts, hok.entries, fun r hr => hr,
    .inr fun r hr => .inl hr, ?_⟩
  cases caller with
  | write a v => exact hcaller
  | read a v =>
    obtain ⟨hlock, hown, hother⟩ := hcaller
    refine ⟨hlock, hown, fun hw => ⟨?_, (hother hw).2⟩⟩
    rw [← h.table.const a entry.ts (hlock ▸ hguard a v rfl) hts]
    exact (hother hw).2

omit [DecidableEq ι] in
/-- The owner of an entry is loaded. -/
theorem Inv.validateOwner {r : ReadEntry} {rest : List ReadEntry} {loop : Loop}
    (hpc : (s.thread i).pc = .validateOwner (r :: rest) loop) :
    LocalOk cfg s
      ((s.thread i).goto (.validateTs (r :: rest) (s.lockOwnership r.lockid) loop)) := by
  have hok := h.thread i
  have hloop : LoopOk cfg s (s.thread i) (r :: rest) loop := hok.pcOk hpc
  refine hok.goto (by rw [hpc]; rfl) rfl ⟨?_, fun r' hr' hmay => ?_⟩
  · cases loop with
    | commit => trivial
    | entry entry n caller => exact hloop
  · obtain rfl := Option.some.inj hr'
    cases loop with
    | commit => trivial
    | entry entry n caller =>
      have hfresh := h.fresh (i := i) (by rw [hpc]; rfl) hmay
      refine ⟨_, le_rfl, fun a k ha hk hkn => ?_⟩
      rw [← ha] at hfresh hk
      exact h.const (hfresh.trans (hk.trans hkn)) hloop.1 (hfresh.trans hk) (hkn.trans hloop.1)

end Reading

end TinyStm
end Locktable
end Sivfs
