/-
# The invariant of all threads

`TableOk` is what the table says of the committed states, and `Inv` adds who holds the locks and
what is known of each thread.  A turn of one thread keeps what is known of the others, as it
only touches words and timestamps of locks that it holds: what it has to show is about itself and
the table (`Inv.turn`), and if it changes only its own place, about itself (`Inv.setLocal`).
-/

import Sivfs.Locktable.Validated

namespace Sivfs
namespace Locktable
namespace TinyStm

open History UndoLog

variable {ι : Type} [DecidableEq ι] {cfg : Config} {s s' : State ι} {t t' : Local} {i j : ι}
  {l a v : ℕ}

/-! ### The invariant -/

/-- The threads with the locks that the table names them for. -/
def State.view (s : State ι) : Shared ι where
  mem := s.mem
  lockOwnership := s.lockOwnership
  ts := s.ts
  globalTs := s.globalTs
  lastThrId := s.lastThrId
  thread i := { (s.thread i).state with locksHeld := (s.thread i).held }

/-- What the table says of the committed states. -/
structure TableOk (cfg : Config) (s : State ι) : Prop where
  ts_le : ∀ l, s.ts l ≤ s.globalTs
  lastCommit_le : ∀ l, s.lastCommit l ≤ s.globalTs
  const : ∀ a k, s.lastCommit (cfg.addrToLock a) ≤ k → k ≤ s.globalTs →
    s.committedAt k a = s.committedAt s.globalTs a
  quiet : ∀ l, s.writing l = false → s.lastCommit l ≤ s.ts l ∧
    ∀ a, cfg.addrToLock a = l → s.mem a = s.committedAt s.globalTs a

/-- **The invariant of the turns.** -/
structure Inv (cfg : Config) (s : State ι) : Prop where
  owned : Owned s.view
  started : ∀ i, (s.thread i).state.thrId = 0 → s.thread i = ⟨newThread 0, .idle, []⟩
  writing : ∀ l, s.writing l = true ↔ ∃ i, l ∈ (s.thread i).unstamped
  table : TableOk cfg s
  thread : ∀ i, LocalOk cfg s (s.thread i)

omit [DecidableEq ι] in
/-- A thread that has called nothing yet, or has just got its state. -/
theorem LocalOk.new (n : ℕ) : LocalOk cfg s ⟨newThread n, .idle, []⟩ :=
  ⟨Nat.zero_le _, reads_nil, fun _ hr => absurd hr List.not_mem_nil, fun _ _ _ _ => reads_nil,
    fun _ _ ha => absurd ha not_writes_nil, fun _ _ ha => absurd ha List.not_mem_nil,
    fun _ _ _ ha => absurd ha not_writes_nil, fun _ ha => absurd ha List.not_mem_nil,
    fun _ ha => absurd ha List.not_mem_nil, List.nodup_nil,
    fun _ _ hl => absurd hl List.not_mem_nil, fun hno => Bool.noConfusion hno, trivial⟩

omit [DecidableEq ι] in
/-- It holds before any call. -/
theorem Inv.of_init (h : Init s) : Inv cfg s := by
  obtain ⟨howner, hts, hglobal, hlast, hthread, hmem, hwriting, hcommit⟩ := h
  refine ⟨Owned.of_start howner hlast fun i => ?_, fun i _ => hthread i, fun l => ?_,
    ⟨fun l => ?_, fun l => ?_, fun a k _ hk => ?_, fun l _ => ⟨?_, fun a _ => ?_⟩⟩, fun i => ?_⟩
  · simp [State.view, hthread i, Local.held, newThread]
  · simp [hwriting l, hthread, Local.unstamped, newThread]
  · rw [hts, hglobal]
  · rw [hcommit, hglobal]
  · rw [hglobal] at hk ⊢
    rw [Nat.le_zero.1 hk]
  · rw [hcommit, hts]
  · rw [hglobal, hmem]
  · rw [hthread i]
    exact .new 0

section Inv

variable (h : Inv cfg s)

include h

omit [DecidableEq ι] in
/-- A thread in a call has a state. -/
theorem Inv.thrId_of_pc (hpc : (s.thread i).pc ≠ .idle) : (s.thread i).state.thrId ≠ 0 := by
  intro hid
  rw [h.started i hid] at hpc
  exact hpc rfl

omit [DecidableEq ι] in
/-- What a thread holds, the table says is its own. -/
theorem Inv.owner_of_held (hl : l ∈ (s.thread i).held) :
    s.lockOwnership l = (s.thread i).state.thrId ∧ (s.thread i).state.thrId ≠ 0 :=
  ⟨((h.owned.held i l).1 hl).2, ((h.owned.held i l).1 hl).1⟩

omit [DecidableEq ι] in
/-- And the other way round. -/
theorem Inv.held_of_owner (hid : (s.thread i).state.thrId ≠ 0)
    (hl : s.lockOwnership l = (s.thread i).state.thrId) : l ∈ (s.thread i).held :=
  (h.owned.held i l).2 ⟨hid, hl⟩

omit [DecidableEq ι] in
/-- A lock has one holder. -/
theorem Inv.holder_eq (hi : l ∈ (s.thread i).held) (hj : l ∈ (s.thread j).held) : i = j :=
  h.owned.holder_eq hi hj

omit [DecidableEq ι] in
/-- Under a free lock nobody is writing. -/
theorem Inv.not_writing_of_free (hl : s.lockOwnership l = 0) : s.writing l = false := by
  refine Bool.eq_false_iff.2 fun hw => ?_
  obtain ⟨j, hj⟩ := (h.writing l).1 hw
  obtain ⟨howner, hid⟩ := h.owner_of_held (Local.held_of_unstamped hj)
  exact hid (howner.symm.trans hl)

omit [DecidableEq ι] in
/-- **The timestamp of a lock that may be read** is not older than its last commit. -/
theorem Inv.fresh (hact : (s.thread i).pc.active = true)
    (hmay : mayRead (s.lockOwnership l) (s.thread i).state.thrId = true) :
    s.lastCommit l ≤ s.ts l := by
  by_cases hfree : s.lockOwnership l = 0
  · exact (h.table.quiet l (h.not_writing_of_free hfree)).1
  · have hme := (of_decide_eq_true hmay).resolve_left hfree
    exact (h.thread i).fresh hact l (h.held_of_owner (hme ▸ hfree) hme)

omit [DecidableEq ι] in
/-- Between the timestamp of such a lock and now the committed states agree on its words. -/
theorem Inv.const {k k' : ℕ} (hfresh : s.lastCommit (cfg.addrToLock a) ≤ k) (hk : k ≤ s.globalTs)
    (hfresh' : s.lastCommit (cfg.addrToLock a) ≤ k') (hk' : k' ≤ s.globalTs) :
    s.committedAt k a = s.committedAt k' a := by
  rw [h.table.const a k hfresh hk, h.table.const a k' hfresh' hk']

end Inv

/-! ### Frames -/

/-- What is known of a thread does not speak of the other threads. -/
theorem Env.setThread {u : Local} : Env cfg t s (s.setThread i u) :=
  ⟨le_rfl, fun _ _ => rfl, fun _ => le_rfl, fun _ _ => ⟨rfl, rfl⟩, fun _ _ => ⟨rfl, rfl⟩⟩

/-- What is known of a thread does not depend on where the others are. -/
theorem LocalOk.setThread (h : LocalOk cfg s t) {u : Local} : LocalOk cfg (s.setThread i u) t :=
  h.env .setThread

namespace State

variable {u : Local}

@[simp] theorem setThread_self : (s.setThread i u).thread i = u := Function.update_self ..

/-- The others are what they were. -/
theorem setThread_of_ne (h : j ≠ i) : (s.setThread i u).thread j = s.thread j :=
  Function.update_of_ne h ..

end State

/-- **A turn of thread `i`** leaves what is known of the others. -/
theorem Inv.turn (h : Inv cfg s) (hid : (s'.thread i).state.thrId ≠ 0)
    (hother : ∀ j, j ≠ i → s'.thread j = s.thread j) (howned : Owned s'.view)
    (hwriting : ∀ l, s'.writing l = true ↔ ∃ j, l ∈ (s'.thread j).unstamped)
    (htable : TableOk cfg s') (hlocal : LocalOk cfg s' (s'.thread i))
    (henv : ∀ j, j ≠ i → Env cfg (s.thread j) s s') : Inv cfg s' := by
  refine ⟨howned, fun j hj => ?_, hwriting, htable, fun j => ?_⟩
  · have hji : j ≠ i := by
      rintro rfl
      exact hid hj
    rw [hother j hji] at hj ⊢
    exact h.started j hj
  · by_cases hji : j = i
    · exact hji ▸ hlocal
    · rw [hother j hji]
      exact (h.thread j).env (henv j hji)

/-- The owners after a turn of thread `i`. -/
theorem State.owned_view {u : Shared ι} (h : Owned u) (hid : (u.thread i).thrId ≠ 0)
    (howner : s.lockOwnership = u.lockOwnership) (hlast : s.lastThrId = u.lastThrId)
    (hother : ∀ j, j ≠ i → s.view.thread j = u.thread j)
    (hthrId : (s.thread i).state.thrId = (u.thread i).thrId)
    (hheld : (s.thread i).held = (u.thread i).locksHeld) : Owned s.view := by
  refine h.congr hlast howner (fun j => ?_) (fun j => ?_) fun j hj => ?_
  · by_cases hji : j = i
    · exact hji ▸ hthrId
    · rw [hother j hji]
  · by_cases hji : j = i
    · exact hji ▸ hheld
    · rw [hother j hji]
  · refine hother j ?_
    rintro rfl
    exact hid hj

omit [DecidableEq ι] in
/-- The same for what the table shows of them. -/
theorem State.view_thread (h : s'.thread j = s.thread j) : s'.view.thread j = s.view.thread j := by
  simp only [view, h]

/-- The locks without a timestamp are the same. -/
theorem Inv.writing_of_same (h : Inv cfg s) (hother : ∀ j, j ≠ i → s'.thread j = s.thread j)
    (hunstamped : (s'.thread i).unstamped = (s.thread i).unstamped) (l : ℕ) :
    s.writing l = true ↔ ∃ j, l ∈ (s'.thread j).unstamped := by
  rw [h.writing l]
  refine exists_congr fun j => ?_
  by_cases hji : j = i
  · rw [hji, hunstamped]
  · rw [hother j hji]

/-- The lock `l` is taken, or it gets its timestamp. -/
theorem Inv.writing_update (h : Inv cfg s) {b : Bool}
    (hother : ∀ j, j ≠ i → s'.thread j = s.thread j)
    (hnot : ∀ j, j ≠ i → l ∉ (s.thread j).unstamped)
    (hself : l ∈ (s'.thread i).unstamped ↔ b = true)
    (hsame : ∀ l', l' ≠ l → (l' ∈ (s'.thread i).unstamped ↔ l' ∈ (s.thread i).unstamped)) (l' : ℕ) :
    Function.update s.writing l b l' = true ↔ ∃ j, l' ∈ (s'.thread j).unstamped := by
  by_cases hl : l' = l
  · subst hl
    rw [Function.update_self, ← hself]
    refine ⟨fun hi => ⟨i, hi⟩, fun ⟨j, hj⟩ => ?_⟩
    by_cases hji : j = i
    · exact hji ▸ hj
    · rw [hother j hji] at hj
      exact absurd hj (hnot j hji)
  · rw [Function.update_of_ne hl, h.writing l']
    refine exists_congr fun j => ?_
    by_cases hji : j = i
    · rw [hji, hsame l' hl]
    · rw [hother j hji]

/-- **A turn without a store.** -/
theorem Inv.setLocal (h : Inv cfg s) (hid : (s.thread i).state.thrId ≠ 0) (hok : LocalOk cfg s t)
    (hthrId : t.state.thrId = (s.thread i).state.thrId) (hheld : t.held = (s.thread i).held)
    (hunstamped : t.unstamped = (s.thread i).unstamped) : Inv cfg (s.setThread i t) := by
  have hother (j : ι) (hj : j ≠ i) : (s.setThread i t).thread j = s.thread j :=
    State.setThread_of_ne hj
  refine h.turn (i := i) ?_ hother
    (State.owned_view h.owned hid rfl rfl (fun j hj => State.view_thread (hother j hj)) ?_ ?_)
    (h.writing_of_same hother ?_) ⟨h.table.ts_le, h.table.lastCommit_le, h.table.const,
      h.table.quiet⟩ ?_ fun j _ => .setThread
  · rw [State.setThread_self, hthrId]
    exact hid
  · rw [State.setThread_self]
    exact hthrId
  · rw [State.setThread_self]
    exact hheld
  · rw [State.setThread_self, hunstamped]
  · rw [State.setThread_self]
    exact hok.setThread

end TinyStm
end Locktable
end Sivfs
