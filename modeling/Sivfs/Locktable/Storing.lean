/-
# Turns that store

A lock is taken (`Inv.take`), a word is stored or undone (`Inv.setMem`), and the locks get their
timestamps and are given back one by one (`Inv.stampTs`, `Inv.unlock`).  The words that change are
those of locks the thread holds, so no committed state changes with them.
-/

import Sivfs.Locktable.Reading

namespace Sivfs
namespace Locktable
namespace TinyStm

open History UndoLog

variable {ι : Type} [DecidableEq ι] {cfg : Config} {s s' : State ι} {t t' : Local} {i j : ι}
  {l a v : ℕ}

/-! ### Turns that store -/

/-- The transaction is ended: the locks `rest` are left. -/
structure Local.Ends (t : Local) (rest : List ℕ) (t' : Local) : Prop where
  thrId : t'.state.thrId = t.state.thrId
  held : t'.held = rest
  unstamped : t'.unstamped = rest

namespace Local

/-- The locks that are left are those still to be given back. -/
theorem ends_unlockFrom (rest : List ℕ) : t.Ends rest (t.unlockFrom rest) := by
  rw [unlockFrom]
  split_ifs with hrest
  · exact ⟨rfl, hrest.symm, hrest.symm⟩
  · exact ⟨rfl, rfl, rfl⟩

/-- While words are undone, all locks are held. -/
theorem ends_undoFrom (rest : List (ℕ × ℕ)) : t.Ends t.state.locksHeld (t.undoFrom rest) := by
  rw [undoFrom]
  split_ifs
  · exact ⟨(ends_unlockFrom _).thrId, (ends_unlockFrom _).held, (ends_unlockFrom _).unstamped⟩
  · exact ⟨rfl, rfl, rfl⟩

/-- So they are when the undo entries are dropped. -/
theorem ends_undoOrKeep : t.Ends t.state.locksHeld t.undoOrKeep := by
  rw [undoOrKeep]
  split_ifs
  · exact ends_undoFrom _
  · exact ⟨(ends_unlockFrom _).thrId, (ends_unlockFrom _).held, (ends_unlockFrom _).unstamped⟩

end Local

/-- **A store under a lock** that the thread is writing under. -/
theorem Inv.setMem (h : Inv cfg s) (hid : (s.thread i).state.thrId ≠ 0)
    (ha : cfg.addrToLock a ∈ (s.thread i).unstamped)
    (hok : LocalOk cfg { s with mem := Function.update s.mem a v } t)
    (hthrId : t.state.thrId = (s.thread i).state.thrId) (hheld : t.held = (s.thread i).held)
    (hunstamped : t.unstamped = (s.thread i).unstamped) :
    Inv cfg { s.setThread i t with mem := Function.update s.mem a v } := by
  have hother (j : ι) (hj : j ≠ i) : (s.setThread i t).thread j = s.thread j :=
    State.setThread_of_ne hj
  have hself : (s.setThread i t).thread i = t := State.setThread_self
  have hmem (b : ℕ) (hb : cfg.addrToLock b ≠ cfg.addrToLock a) :
      Function.update s.mem a v b = s.mem b := by
    refine Function.update_of_ne ?_ ..
    rintro rfl
    exact hb rfl
  refine h.turn (i := i) ?_ hother
    (State.owned_view h.owned hid rfl rfl (fun j hj => State.view_thread (hother j hj)) ?_ ?_)
    (h.writing_of_same hother ?_) ⟨h.table.ts_le, h.table.lastCommit_le, h.table.const,
      fun l hl => ⟨(h.table.quiet l hl).1, fun b hb => ?_⟩⟩ ?_ fun j hj =>
      ⟨le_rfl, fun _ _ => rfl, fun _ => le_rfl, fun _ _ => ⟨rfl, rfl⟩, fun b hb => ⟨?_, rfl⟩⟩
  · simpa only [hself, hthrId] using hid
  · exact (congrArg (·.state.thrId) hself).trans hthrId
  · exact (congrArg Local.held hself).trans hheld
  · exact (congrArg Local.unstamped hself).trans hunstamped
  · refine (hmem b fun hlock => ?_).trans ((h.table.quiet l hl).2 b hb)
    have hwriting := (h.writing _).2 ⟨i, ha⟩
    rw [← hlock, hb] at hwriting
    exact Bool.noConfusion (hwriting.symm.trans hl)
  · simp only [hself]
    exact LocalOk.setThread (i := i) (u := t) hok
  · refine hmem b fun hlock => hj ?_
    exact h.holder_eq (hlock ▸ hb) (Local.held_of_unstamped ha)

/-- **A free lock is taken.** -/
theorem Inv.take (h : Inv cfg s) (hpc : (s.thread i).pc = .cas a v)
    (hfree : s.lockOwnership (cfg.addrToLock a) = 0) :
    Inv cfg { s.setThread i ⟨{ (s.thread i).state with
        locksHeld := (s.thread i).state.locksHeld ++ [cfg.addrToLock a] }, .entryTs a v,
        (s.thread i).txn⟩ with
      lockOwnership := Function.update s.lockOwnership (cfg.addrToLock a) (s.thread i).state.thrId
      writing := Function.update s.writing (cfg.addrToLock a) true } := by
  set l := cfg.addrToLock a
  set t : Local := ⟨{ (s.thread i).state with
    locksHeld := (s.thread i).state.locksHeld ++ [l] }, .entryTs a v, (s.thread i).txn⟩
  have hid := h.thrId_of_pc (i := i) (by rw [hpc]; simp)
  have hact : (s.thread i).pc.active = true := by rw [hpc]; rfl
  have hother (j : ι) (hj : j ≠ i) : (s.setThread i t).thread j = s.thread j :=
    State.setThread_of_ne hj
  have hself : (s.setThread i t).thread i = t := State.setThread_self
  have hquiet := h.table.quiet l (h.not_writing_of_free hfree)
  have hnew (j : ι) : l ∉ (s.thread j).held := h.owned.not_held_of_free hfree
  have hheld := Local.held_of_active hact
  refine h.turn (i := i) ?_ hother ?_ (fun l' => ?_) ⟨h.table.ts_le, h.table.lastCommit_le,
    h.table.const, fun l' hl' => h.table.quiet l' ((Function.update_of_ne ?_ ..).symm.trans hl')⟩ ?_
      fun j hj =>
      ⟨le_rfl, fun _ _ => rfl, fun _ => le_rfl, fun _ _ => ⟨rfl, rfl⟩, fun _ _ => ⟨rfl, rfl⟩⟩
  · simpa only [hself] using hid
  · refine State.owned_view (i := i) (h.owned.take (i := i) hid hfree) ?_ rfl rfl
      (fun j hj => ?_) ?_ ?_
    · rw [Shared.take_self]
      exact hid
    · rw [Shared.take_of_ne hj]
      exact State.view_thread (hother j hj)
    · rw [Shared.take_self]
      simp only [hself]
      rfl
    · rw [Shared.take_self]
      simp only [hself, State.view, hheld]
      rfl
  · refine h.writing_update (i := i) hother (fun j _ hj => hnew j (Local.held_of_unstamped hj)) ?_
      (fun l'' hl => ?_) l'
    · exact iff_of_true (hself.symm ▸ List.mem_append_right _ (List.mem_singleton_self l)) rfl
    · rw [Local.unstamped_of_active hact]
      simp only [hself]
      exact List.mem_append.trans (or_iff_left fun hmem => hl (List.mem_singleton.1 hmem))
  · rintro rfl
    exact Bool.noConfusion ((Function.update_self l true s.writing).symm.trans hl')
  · simp only [hself]
    exact LocalOk.env (s := s) ((h.thread i).take hpc (hheld ▸ hnew i) hquiet.1 hquiet.2)
      ⟨le_rfl, fun _ _ => rfl, fun _ => le_rfl, fun _ _ => ⟨rfl, rfl⟩, fun _ _ => ⟨rfl, rfl⟩⟩

/-- **A lock gets its timestamp**, with which its words are the committed ones. -/
theorem Inv.stampTs (h : Inv cfg s) {rest : List ℕ} (hpc : (s.thread i).pc = .stampTs (l :: rest)) :
    Inv cfg { s.setThread i ((s.thread i).goto (.unlock (l :: rest))) with
      ts := Function.update s.ts l (s.thread i).state.commitTs
      writing := Function.update s.writing l false } := by
  set t : Local := (s.thread i).goto (.unlock (l :: rest))
  have hid := h.thrId_of_pc (i := i) (by rw [hpc]; simp)
  have hother (j : ι) (hj : j ≠ i) : (s.setThread i t).thread j = s.thread j :=
    State.setThread_of_ne hj
  have hself : (s.setThread i t).thread i = t := State.setThread_self
  have hheld : (s.thread i).held = l :: rest := by rw [Local.held, hpc]
  have hunstamped : (s.thread i).unstamped = l :: rest := by rw [Local.unstamped, hpc]
  have hpending : (s.thread i).pending = [] := by
    rw [Local.pending, hpc]
    exact (h.thread i).pcOk hpc
  have hend := (h.thread i).endOk (by rw [hpc]; rfl)
  rw [hunstamped, hpending] at hend
  have hstamp := hend.stamps l (List.mem_cons_self ..)
  have hnot (j : ι) (hj : j ≠ i) : l ∉ (s.thread j).held := fun hl =>
    hj (h.holder_eq hl (hheld ▸ List.mem_cons_self ..))
  refine h.turn (i := i) ?_ hother
    (State.owned_view h.owned hid rfl rfl (fun j hj => State.view_thread (hother j hj)) ?_ ?_)
    (h.writing_update (i := i) hother (fun j hj hl => hnot j hj (Local.held_of_unstamped hl)) ?_
      fun l' hl => ?_) ⟨fun l' => ?_, h.table.lastCommit_le, h.table.const, fun l' hl' => ?_⟩ ?_
      fun j hj => ⟨le_rfl, fun _ _ => rfl, fun l' => ?_, fun l' hl => ⟨?_, rfl⟩,
        fun _ _ => ⟨rfl, rfl⟩⟩
  · simp only [hself]
    exact hid
  · exact congrArg (·.state.thrId) hself
  · exact (congrArg Local.held hself).trans hheld.symm
  · refine iff_of_false (fun hl => ?_) Bool.false_ne_true
    simp only [hself] at hl
    exact (List.nodup_cons.1 hend.nodup).1 hl
  · rw [hunstamped]
    simp only [hself]
    exact (List.mem_cons.trans (or_iff_right hl)).symm
  · by_cases hl : l' = l
    · simp only [hl, Function.update_self]
      exact hend.commitTs
    · simp only [Function.update_of_ne hl]
      exact h.table.ts_le l'
  · by_cases hl : l' = l
    · simp only [hl, Function.update_self]
      exact ⟨hstamp.2, fun a ha => hend.undo a (ha ▸ List.mem_cons_self ..)⟩
    · simp only [Function.update_of_ne hl]
      exact h.table.quiet l' ((Function.update_of_ne hl ..).symm.trans hl')
  · simp only [hself]
    exact LocalOk.setThread (i := i) (u := t) ((h.thread i).stampTs hpc)
  · by_cases hl : l' = l
    · simp only [hl, Function.update_self]
      exact hstamp.1.le
    · simp only [Function.update_of_ne hl]
      exact le_rfl
  · refine Function.update_of_ne ?_ ..
    rintro rfl
    exact hnot j hj hl

/-- **A lock is given back.** -/
theorem Inv.unlock (h : Inv cfg s) {rest : List ℕ} (hpc : (s.thread i).pc = .unlock (l :: rest)) :
    Inv cfg { s.setThread i ((s.thread i).unlockFrom rest) with
      lockOwnership := Function.update s.lockOwnership l 0 } := by
  set t : Local := (s.thread i).unlockFrom rest
  have hends : (s.thread i).Ends rest t := Local.ends_unlockFrom rest
  have hid := h.thrId_of_pc (i := i) (by rw [hpc]; simp)
  have hother (j : ι) (hj : j ≠ i) : (s.setThread i t).thread j = s.thread j :=
    State.setThread_of_ne hj
  have hself : (s.setThread i t).thread i = t := State.setThread_self
  have hheld : (s.thread i).held = l :: rest := by rw [Local.held, hpc]
  have hunstamped : (s.thread i).unstamped = rest := by rw [Local.unstamped, hpc]; rfl
  have hrelease := h.owned.release (i := i) hid hheld (hheld ▸ (h.thread i).nodup)
  refine h.turn (i := i) ?_ hother (State.owned_view (i := i) hrelease ?_ rfl rfl (fun j hj => ?_)
    ?_ ?_) (h.writing_of_same hother ?_) ⟨h.table.ts_le, h.table.lastCommit_le, h.table.const,
      h.table.quiet⟩ ?_ fun _ _ => ⟨le_rfl, fun _ _ => rfl, fun _ => le_rfl, fun _ _ => ⟨rfl, rfl⟩,
      fun _ _ => ⟨rfl, rfl⟩⟩
  · simpa only [hself, hends.thrId] using hid
  · rw [Shared.release_self]
    exact hid
  · exact (State.view_thread (hother j hj)).trans (Shared.release_of_ne hj).symm
  · rw [Shared.release_self]
    exact (congrArg (·.state.thrId) hself).trans hends.thrId
  · rw [Shared.release_self]
    exact (congrArg Local.held hself).trans hends.held
  · rw [hunstamped]
    exact (congrArg Local.unstamped hself).trans hends.unstamped
  · simp only [hself]
    exact LocalOk.env (s := s) ((h.thread i).unlock hpc)
      ⟨le_rfl, fun _ _ => rfl, fun _ => le_rfl, fun _ _ => ⟨rfl, rfl⟩, fun _ _ => ⟨rfl, rfl⟩⟩

end TinyStm
end Locktable
end Sivfs
