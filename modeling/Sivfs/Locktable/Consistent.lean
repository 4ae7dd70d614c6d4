/-
# Reads of TinySTM are consistent

One lemma for each access of a call, from what `Sivfs.Locktable.Reading`,
`Sivfs.Locktable.Storing` and `Sivfs.Locktable.FetchAdd` say, and the induction over the turns of
all threads.  The result is `reads_consistent`; `not_consistent_dirtyRead` is a run into the first
window.
-/

import Sivfs.Locktable.FetchAdd

namespace Sivfs
namespace Locktable
namespace TinyStm

open History UndoLog

variable {ι : Type} [DecidableEq ι] {cfg : Config} {s s' : State ι} {t t' : Local} {i j : ι}
  {l a v : ℕ}

/-! ### One lemma for each access -/

/-- A turn that stays in the transaction, with its locks. -/
theorem Inv.stay (h : Inv cfg s) {pc : Pc} (hpc : (s.thread i).pc = pc) (hact : pc.active = true)
    (hne : pc ≠ .idle) (hok : LocalOk cfg s t) (hkeeps : (s.thread i).Keeps t) :
    Inv cfg (s.setThread i t) :=
  h.setActive (h.thrId_of_pc (hpc ▸ hne)) (hpc ▸ hact) hok hkeeps

/-- A turn that only goes on to the next access. -/
theorem Inv.goto (h : Inv cfg s) {pc pc' : Pc} (hpc : (s.thread i).pc = pc) (hp : pc.plain = true)
    (hne : pc ≠ .idle) (hp' : pc'.plain = true) (hok : PcOk cfg s ((s.thread i).goto pc')) :
    Inv cfg (s.setThread i ((s.thread i).goto pc')) :=
  h.stay hpc (Pc.active_of_plain hp) hne ((h.thread i).goto (hpc ▸ hp) hp' hok)
    ⟨Pc.active_of_plain hp', rfl, rfl⟩

/-- A turn that throws. -/
theorem Inv.throwAborted (h : Inv cfg s) {pc : Pc} (hpc : (s.thread i).pc = pc)
    (hp : pc.plain = true) (hne : pc ≠ .idle) :
    Inv cfg (s.setThread i (s.thread i).throwAborted) :=
  h.stay hpc (Pc.active_of_plain hp) hne ((h.thread i).throwAborted (hpc ▸ hp)) ⟨rfl, rfl, rfl⟩

/-- The word of a read is loaded. -/
theorem Inv.readWord (h : Inv cfg s) {owner ts : ℕ} (hpc : (s.thread i).pc = .readWord a owner ts) :
    Inv cfg (s.setThread i ((s.thread i).goto (.recheckTs a owner ts (s.mem a)
      (s.writing (cfg.addrToLock a) ∧
        s.lockOwnership (cfg.addrToLock a) ≠ (s.thread i).state.thrId)))) := by
  refine h.goto hpc rfl (by simp) rfl fun hforeign =>
    ⟨_, (h.thread i).pcOk hpc, le_rfl, h.sampleOk hpc fun hwriting => ?_⟩
  by_contra hne
  exact of_decide_eq_false hforeign ⟨hwriting, hne⟩

/-- The timestamp of the lock is loaded again. -/
theorem Inv.recheckTs (h : Inv cfg s) {owner ts : ℕ} {foreign : Bool}
    (hpc : (s.thread i).pc = .recheckTs a owner ts v foreign) :
    Inv cfg (s.setThread i (if s.ts (cfg.addrToLock a) ≠ ts then (s.thread i).throwAborted
      else (s.thread i).goto (.recheckOwner a owner ts v foreign))) := by
  split_ifs with hts
  · exact h.throwAborted hpc rfl (by simp)
  · refine h.goto hpc rfl (by simp) rfl fun hforeign => ?_
    obtain ⟨x, hx, hxs, hsample⟩ := (h.thread i).pcOk hpc hforeign
    have hts := not_not.1 hts
    obtain rfl : x = ts := (hts ▸ hxs).antisymm hx
    exact ⟨hts ▸ h.table.ts_le _, hsample⟩

/-- An entry of the read set is checked. -/
theorem Inv.validateTs (h : Inv cfg s) {r : ReadEntry} {rest : List ReadEntry} {owner : ℕ}
    {loop : Loop} (hpc : (s.thread i).pc = .validateTs (r :: rest) owner loop) :
    Inv cfg (s.setThread i
      (if mayRead owner (s.thread i).state.thrId ∧ r.ts = s.ts r.lockid then
        (s.thread i).validate rest loop
      else { s.thread i with state := { (s.thread i).state with aborted := true } }.validate rest
        loop)) := by
  refine h.stay hpc rfl (by simp) ((h.thread i).validateTs hpc) ?_
  split_ifs
  · exact Local.keeps_validate ..
  · exact ⟨(Local.keeps_validate ..).active, (Local.keeps_validate ..).thrId,
      (Local.keeps_validate ..).locksHeld⟩

/-- The thread of a write has the lock already. -/
theorem Inv.cas_own (h : Inv cfg s) (hpc : (s.thread i).pc = .cas a v)
    (howner : s.lockOwnership (cfg.addrToLock a) = (s.thread i).state.thrId) :
    Inv cfg (s.setThread i ((s.thread i).goto (.loadOld a v))) := by
  have hheld := h.held_of_owner (h.thrId_of_pc (by simp [hpc])) howner
  rw [Local.held_of_active (by rw [hpc]; rfl)] at hheld
  exact h.goto hpc rfl (by simp) rfl hheld

/-- The store of a write. -/
theorem Inv.store (h : Inv cfg s) (hpc : (s.thread i).pc = .store a v) :
    Inv cfg { s.setThread i
        { s.thread i with txn := (s.thread i).txn ++ [.write a v], pc := .idle } with
      mem := Function.update s.mem a v } := by
  have hok := h.thread i
  have hact : (s.thread i).pc.active = true := by rw [hpc]; rfl
  have hlock : cfg.addrToLock a ∈ (s.thread i).state.locksHeld := (hok.pcOk hpc).1
  refine h.setMem (h.thrId_of_pc (by simp [hpc])) ?_ (hok.store hpc) rfl ?_ ?_
  · rwa [Local.unstamped_of_active hact]
  · exact (Local.held_of_active hact).symm
  · exact (Local.unstamped_of_active hact).symm

/-- An undo entry is put back. -/
theorem Inv.undo (h : Inv cfg s) {rest : List (ℕ × ℕ)}
    (hpc : (s.thread i).pc = .undo ((a, v) :: rest)) :
    Inv cfg { s.setThread i ((s.thread i).undoFrom rest) with
      mem := Function.update s.mem a v } := by
  have hok := h.thread i
  have hends : (s.thread i).Ends _ _ := Local.ends_undoFrom rest
  have hpending : (s.thread i).pending = ((a, v) :: rest).reverse := by rw [Local.pending, hpc]
  refine h.setMem (h.thrId_of_pc (by simp [hpc])) (hok.locked a ?_) (hok.undoEntry hpc)
    hends.thrId ?_ ?_
  · simp [hpending]
  · rw [hends.held, Local.held, hpc]
  · rw [hends.unstamped, Local.unstamped, hpc]

/-- The clock is loaded at the end of a call that opens a transaction or has ended one. -/
theorem Inv.loadStart (h : Inv cfg s) {opens : Bool} (hpc : (s.thread i).pc = .loadStart opens)
    (hguard : GuardedAt cfg s (s.thread i) (.loadStart opens)) :
    Inv cfg (s.setThread i
      { state := { (s.thread i).state with readsetValidatedTs := s.globalTs }
        pc := .idle
        txn := if opens then (s.thread i).txn else [] }) := by
  have hid := h.thrId_of_pc (i := i) (by rw [hpc]; simp)
  have hheld : (s.thread i).held = (s.thread i).state.locksHeld := by rw [Local.held, hpc]
  have hunstamped : (s.thread i).unstamped = (s.thread i).state.locksHeld := by
    rw [Local.unstamped, hpc]
  cases opens with
  | true => exact h.setLocal hid ((h.thread i).openTxn hpc hguard) rfl hheld.symm hunstamped.symm
  | false => exact h.setLocal hid ((h.thread i).startTxn hpc) rfl hheld.symm hunstamped.symm

/-- **One access** keeps the invariant. -/
theorem Inv.next (h : Inv cfg s) (hguard : Guarded cfg s (.next i))
    (hstep : s.next cfg i = some s') :
    Inv cfg s' := by
  have hok := h.thread i
  rw [State.next] at hstep
  dsimp only at hstep
  rw [Guarded] at hguard
  cases hpc : (s.thread i).pc <;> rw [hpc] at hstep hguard
  case idle => cases hstep
  case thrown => cases hstep
  -- `locktable_read`
  case readOwner a =>
    obtain rfl := Option.some.inj hstep
    exact h.goto hpc rfl (by simp) rfl trivial
  case readTs a owner =>
    obtain rfl := Option.some.inj hstep
    exact h.goto hpc rfl (by simp) rfl le_rfl
  case readWord a owner ts =>
    obtain rfl := Option.some.inj hstep
    exact h.readWord hpc
  case recheckTs a owner ts v foreign =>
    obtain rfl := Option.some.inj hstep
    exact h.recheckTs hpc
  case recheckOwner a owner ts v foreign =>
    obtain rfl := Option.some.inj hstep
    split_ifs with howner hmay
    · exact h.throwAborted hpc rfl (by simp)
    · refine h.stay hpc rfl (by simp) (h.recheckOwner hpc ?_) (Local.keeps_addReadSetEntry ..)
      rw [← Bool.not_eq_true]
      exact fun hforeign => hguard hforeign ⟨not_not.1 howner, hmay⟩
    · exact h.throwAborted hpc rfl (by simp)
  -- the validation of the read set
  case loadClock entry caller =>
    obtain rfl := Option.some.inj hstep
    refine h.stay hpc rfl (by simp) (h.loadClock hpc ?_) (Local.keeps_validate ..)
    rintro a v rfl
    exact hguard
  case validateOwner rest loop =>
    cases rest with
    | nil => cases hstep
    | cons r rest =>
      obtain rfl := Option.some.inj hstep
      exact h.stay hpc rfl (by simp) (h.validateOwner hpc) ⟨rfl, rfl, rfl⟩
  case validateTs rest owner loop =>
    cases rest with
    | nil => cases hstep
    | cons r rest =>
      obtain rfl := Option.some.inj hstep
      exact h.validateTs hpc
  -- `locktable_write`
  case cas a v =>
    dsimp only at hstep
    split_ifs at hstep with hfree howner
    · obtain rfl := Option.some.inj hstep
      exact h.take hpc hfree
    · obtain rfl := Option.some.inj hstep
      exact h.cas_own hpc howner
    · obtain rfl := Option.some.inj hstep
      exact h.throwAborted hpc rfl (by simp)
  case entryTs a v =>
    obtain rfl := Option.some.inj hstep
    exact h.stay hpc rfl (by simp) (hok.addReadSetEntry (by rw [hpc]; rfl)
      (h.table.ts_le _) fun _ _ => hok.pcOk hpc) (Local.keeps_addReadSetEntry ..)
  case loadOld a v =>
    obtain rfl := Option.some.inj hstep
    exact h.stay hpc rfl (by simp) (hok.loadOld hpc) ⟨rfl, rfl, rfl⟩
  case store a v =>
    obtain rfl := Option.some.inj hstep
    exact h.store hpc
  -- the end of a transaction
  case fetchAdd =>
    obtain rfl := Option.some.inj hstep
    exact h.fetchAdd hpc
  case undo rest =>
    cases rest with
    | nil => cases hstep
    | cons entry rest =>
      obtain rfl := Option.some.inj hstep
      exact h.undo hpc
  case stampTs rest =>
    cases rest with
    | nil => cases hstep
    | cons l rest =>
      obtain rfl := Option.some.inj hstep
      exact h.stampTs hpc
  case unlock rest =>
    cases rest with
    | nil => cases hstep
    | cons l rest =>
      obtain rfl := Option.some.inj hstep
      exact h.unlock hpc
  case loadStart opens =>
    obtain rfl := Option.some.inj hstep
    exact h.loadStart hpc hguard

/-- **Every turn outside the windows** keeps the invariant. -/
theorem Inv.step (h : Inv cfg s) {act : Act ι} (hguard : Guarded cfg s act)
    (hstep : step cfg s act = some s') : Inv cfg s' := by
  have hbegin {j : ι} (hpc : (s.thread j).pc = .idle) {pc : Pc} (hp : pc.plain = true)
      (hpcOk : PcOk cfg (s.getState j) (((s.getState j).thread j).goto pc)) :
      Inv cfg ((s.getState j).setThread j (((s.getState j).thread j).goto pc)) := by
    obtain ⟨hinv, hid, hpc'⟩ := h.getState (i := j)
    have hidle := hpc'.trans hpc
    exact hinv.setActive hid (by rw [hidle]; rfl)
      ((hinv.thread j).goto (by rw [hidle]; rfl) hp hpcOk) ⟨Pc.active_of_plain hp, rfl, rfl⟩
  cases act with
  | read j a =>
    simp only [TinyStm.step] at hstep
    split_ifs at hstep with hpc
    obtain rfl := Option.some.inj hstep
    exact hbegin hpc rfl trivial
  | write j a v =>
    simp only [TinyStm.step] at hstep
    split_ifs at hstep with hpc
    obtain rfl := Option.some.inj hstep
    exact hbegin hpc rfl trivial
  | commitUpdate j =>
    simp only [TinyStm.step] at hstep
    split_ifs at hstep with hpc
    obtain rfl := Option.some.inj hstep
    obtain ⟨hinv, hid, hpc'⟩ := h.getState (i := j)
    exact hinv.beginCommit hid (by rwa [hpc'])
  | next j => exact h.next hguard hstep

/-- **Reads are consistent**: in a run whose turns all stay out of the windows, the reads of
every running transaction belong to one committed state. -/
theorem reads_consistent (cfg : Config) {s : State ι}
    (hs : (turns cfg ι).ReachableWith (Guarded cfg) s) (i : ι) : Consistent s i := by
  have h : Inv cfg s := hs.invariant (fun _ => Inv.of_init) fun _ _ _ _ h hguard hstep =>
    h.step hguard hstep
  exact ⟨_, (h.thread i).validated, (h.thread i).reads⟩

/-- TinySTM with the table of the source. -/
def config : Config := ⟨.tinystm, locktableAddrToLock 1024⟩

/-- Threads 0 and 1 open their first transactions. -/
def openBoth : List (Act ℕ) := [.commitUpdate 0, .next 0, .commitUpdate 1, .next 1]

/-- Thread 0 reads at 0 before thread 1 commits a write at 64, and at 64 after that. -/
def readAround : List (Act ℕ) :=
  openBoth ++ .read 0 0 :: List.replicate 5 (.next 0) ++
    .write 1 64 7 :: List.replicate 4 (.next 1) ++
    .commitUpdate 1 :: List.replicate 6 (.next 1) ++ .read 0 64 :: List.replicate 8 (.next 0)

theorem reads_consistent_readAround : ∃ s : State ℕ,
    (turns config ℕ).run (fun s act => decide (Guarded config s act)) (initial fun _ => 0)
      readAround = some s ∧
      (s.thread 0).txn = [.read 0 0, .read 64 7] ∧ Consistent s 0 := by
  have h : ((turns config ℕ).run (fun s act => decide (Guarded config s act)) (initial fun _ => 0)
      readAround).map (fun s => (s.thread 0).txn) =
        some [.read 0 0, .read 64 7] := by decide +kernel
  obtain ⟨s, hs, htxn⟩ := Option.map_eq_some_iff.1 h
  refine ⟨s, hs, htxn, reads_consistent config (Machine.ReachableWith.run (fun _ _ h => ?_)
    (.init (init_initial _)) hs) 0⟩
  exact of_decide_eq_true h

/-- Thread 0 reads at 0 while thread 1 writes 7 and then 8 there and commits. -/
def dirtyRead : List (Act ℕ) :=
  openBoth ++ [.read 0 0, .next 0, .next 0] ++ .write 1 0 7 :: List.replicate 4 (.next 1) ++
    [.next 0, .next 0] ++ .write 1 0 8 :: List.replicate 3 (.next 1) ++
    .commitUpdate 1 :: List.replicate 6 (.next 1) ++ [.next 0]

/-- **A read of an uncommitted value.**  The timestamp is loaded twice before the writer
stores its own, the owner before the writer takes the lock and after it gave it back. -/
theorem not_consistent_dirtyRead : ¬∀ s : State ℕ, (turns config ℕ).Reachable s →
    ∀ i, Consistent s i := by
  intro hall
  have h : ((turns config ℕ).run (fun _ _ => true) (initial fun _ => 0) dirtyRead).map
      (fun s => ((s.thread 0).txn, s.globalTs, s.committedAt 0 0, s.committedAt 1 0)) =
      some ([.read 0 7], 1, 0, 8) := by decide +kernel
  obtain ⟨s, hs, hfields⟩ := Option.map_eq_some_iff.1 h
  simp only [Prod.mk.injEq] at hfields
  obtain ⟨htxn, hglobal, hold, hnew⟩ := hfields
  obtain ⟨k, hk, hreads⟩ := hall s (Machine.ReachableWith.run (fun _ _ _ => trivial)
    (.init (init_initial _)) hs) 0
  rw [htxn] at hreads
  obtain rfl | rfl : k = 0 ∨ k = 1 := by omega
  · exact absurd (hold.symm.trans hreads.1) (by decide)
  · exact absurd (hnew.symm.trans hreads.1) (by decide)

end TinyStm
end Locktable
end Sivfs
