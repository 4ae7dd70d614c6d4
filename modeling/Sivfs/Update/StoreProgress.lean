/-
# What a store needs

A store to a page of the checkpoint takes two faults: `sivfs_mkwrite` evicts the page and
leaves it in `cp_page_to_cow`, and the fault that follows finds it there and copies it.  If no
memory runs out (`Env.Quiet`) and the thread can read the page (`CanRead`), one fault leaves the
page writable (`Writable`) or there to be copied (`ToCow`), and it is writable after the next
(`CanRead.handle_toCow`, `CanRead.handle_write`).
-/

import Sivfs.Update.PageOk

open PathCopy

namespace Sivfs
namespace Paging

open Checkpoint (Ref Shared Thread CpOk InRange pathOf)

/-! ### What a store needs -/

/-- No memory runs out, and the page is not locked. -/
structure Env.Quiet (env : Env) : Prop where
  record : env.recordFails = false
  alloc : env.allocFails = false
  busy : env.busy = false

/-- A thread that can read page `p`. -/
structure CanRead (th : Thread) (n : ℕ) (c : Checkpoint.Cp) (p : ℕ × ℕ) : Prop where
  snap : th = ⟨(n : Ts), some c⟩
  le : c.cpTs ≤ n
  inRange : InRange p.1 (p.2 * pageSize)

/-- The page can be written to at `v`. -/
def Writable {V : Type*} (v : V) (res : PageState V × Option Ref) : Prop :=
  res.1.pte v = some (.own true) ∧ res.2 = none

/-- The page of the checkpoint is to be copied. -/
def ToCow {V : Type*} (s : Shared) (th : Thread) (p : ℕ × ℕ) (v : V)
    (res : PageState V × Option Ref) : Prop :=
  res.1.pte v = none ∧ res.1.own = none ∧ ∃ r, res.2 = some r ∧ Mappable s th p r

section Progress

variable {V : Type*} {s : Shared} {th : Thread} {env : Env} {p : ℕ × ℕ} {pg : PageState V}
  {cow : Option Ref} {r : Ref} {c : Checkpoint.Cp} {n : ℕ} {v : V}

/-- The search for writes succeeds. -/
theorem findFirstWrite_ok (hlog : Consecutive 1 s.log) (hle : c.cpTs ≤ n) (hn : n ≤ s.log.length)
    (ino off : ℕ) :
    ∃ first, Checkpoint.findFirstWrite s c.cpTs n ino off (off + pageSize) = .ok first := by
  have hrange : ¬(n < c.cpTs ∨ off + pageSize ≤ off) := by
    simp only [pageSize]
    omega
  rw [Checkpoint.findFirstWrite, if_neg hrange]
  rcases Nat.eq_or_lt_of_le hle with rfl | hlt
  · exact ⟨_, if_pos rfl⟩
  · obtain ⟨l, rest, hl, -⟩ := hlog.tsToLogEntry_cons (Nat.le_add_left 1 c.cpTs) (by omega)
    rw [if_neg hlt.ne', hl]
    exact ⟨_, rfl⟩

/-- `sivfs_fault_checkpoint` succeeds. -/
theorem CanRead.faultCheckpoint (hread : CanRead th n c p) (hok : ReadOk s th) (hq : env.Quiet)
    (pg : PageState V) : (faultCheckpoint s th env p pg).2 ≠ none := by
  obtain ⟨rfl, hle, hin⟩ := hread
  obtain ⟨first, hfind⟩ := findFirstWrite_ok hok.log hle (hok.snap n rfl) p.1 (p.2 * pageSize)
  simp only [Paging.faultCheckpoint, Nat.cast_id, hfind, Checkpoint.checkpointIterInit_eq,
    if_pos hin]
  by_cases hskip : first ≠ invalidTs ∨ pg.own.isSome
  · rw [if_pos hskip]
    simp
  · rw [if_neg hskip]
    rcases follow s.heap.child c.root (pathOf p.1 (p.2 * pageSize)) with _ | r
    · simp
    · simp [hq.record]

/-- The page of the working set is there, up to date. -/
theorem CanRead.ownPage (hread : CanRead th n c p) (hok : ReadOk s th) (hq : env.Quiet)
    (hup : ∀ page, pg.own = some page → page.uptodate = true) (cp : Option Ref) :
    ∃ page, ownPage s th env p pg cp = ({ pg with own := some page }, .own) := by
  obtain ⟨rfl, hle, hin⟩ := hread
  rcases hown : pg.own with _ | page
  · obtain ⟨words, hfill⟩ := fill_ok hok hle hin cp
    exact ⟨⟨words, true, false⟩, by simp only [Paging.ownPage, hown, hq.alloc, hfill,
      Bool.false_eq_true, if_false]⟩
  · refine ⟨page, ?_⟩
    simp only [Paging.ownPage, hown, hq.busy, hup page hown, Bool.false_eq_true, if_false, if_true]
    rw [← hown]

/-- There is one page that may be mapped. -/
theorem Mappable.unique {r' : Ref} (h : Mappable s th p r) (h' : Mappable s th p r') : r = r' := by
  obtain ⟨n, c, -, hc, hr, -⟩ := h
  obtain ⟨n', c', -, hc', hr', -⟩ := h'
  obtain rfl := Option.some.inj (hc.symm.trans hc')
  exact Option.some.inj (hr.symm.trans hr')

theorem mappable_of_faultCheckpoint (hok : ReadOk s th)
    (hres : (faultCheckpoint s th env p pg).2 = some (some r)) :
    faultCheckpoint s th env p pg = ({ pg with recorded := true }, some (some r)) ∧
      Mappable s th p r := by
  obtain heq | ⟨-, -, -, -, heq | ⟨r', heq, -, hmap⟩⟩ := faultCheckpoint_cases hok env p pg
  · exact absurd (hres.symm.trans (congrArg Prod.snd heq)) (by simp)
  · exact absurd (hres.symm.trans (congrArg Prod.snd heq)) (by simp)
  · have hr : some (some r) = some (some r') := hres.symm.trans (congrArg Prod.snd heq)
    obtain rfl := Option.some.inj (Option.some.inj hr)
    exact ⟨heq, hmap⟩

/-- Unless a page of the checkpoint is to be mapped, a fault finds the page of the working set. -/
theorem CanRead.fault_own (hread : CanRead th n c p) (hok : ReadOk s th) (hq : env.Quiet)
    (hup : ∀ page, pg.own = some page → page.uptodate = true)
    (hcow : ∀ r, (Paging.faultCheckpoint s th env p pg).2 = some (some r) →
      env.initialWrite = true ∨ cow = some r) :
    ∃ pg' page, fault s th env p cow pg = (pg', none, .own) ∧ pg'.own = some page := by
  obtain hres | ⟨n', c', -, -, hres | ⟨r, hres, -, -⟩⟩ := faultCheckpoint_cases hok env p pg
  · exact absurd (congrArg Prod.snd hres) (hread.faultCheckpoint hok hq pg)
  · have hup' : ∀ page, (if pg.recorded = true then pg.evict else pg).own = some page →
        page.uptodate = true := by
      intro page hpage
      split_ifs at hpage
      · exact absurd hpage (by simp [PageState.evict, PageState.unmapPageRange])
      · exact hup page hpage
    obtain ⟨page, hpage⟩ := hread.ownPage hok hq hup' none
    refine ⟨{ (if pg.recorded = true then pg.evict else pg) with own := some page }, page, ?_, rfl⟩
    simp only [Paging.fault, hres, ite_self, hpage]
  · have hif := hcow r (congrArg Prod.snd hres)
    have hempty : ∀ page, ({ pg with recorded := true }.evict).own = some page →
        page.uptodate = true := fun page hpage =>
      absurd hpage (by simp [PageState.evict, PageState.unmapPageRange])
    obtain ⟨page, hpage⟩ := hread.ownPage hok hq hempty (some r)
    refine ⟨{ { pg with recorded := true }.evict with own := some page }, page, ?_, rfl⟩
    simp only [Paging.fault, hres, if_pos hif, if_true, hpage]

variable [DecidableEq V]

/-- A page of the working set is made writable. -/
theorem makeWritable_own {page : OwnPage} (hown : pg.own = some page) (w : Bool) :
    Writable v (makeWritable v none pg (.own w)) := by
  simp only [makeWritable, mkwrite, Option.isSome_none, Bool.false_eq_true, if_false, hown]
  exact ⟨Function.update_self .., rfl⟩

/-- A page of the checkpoint is taken away, to be copied. -/
theorem makeWritable_cp (hmap : Mappable s th p r) :
    ToCow s th p v (makeWritable v none pg (.cp r)) :=
  ⟨rfl, rfl, r, rfl, hmap⟩

/-- **The fault after `sivfs_mkwrite`** copies the page of the checkpoint. -/
theorem CanRead.handle_toCow (hread : CanRead th n c p) (hok : ReadOk s th) (hq : env.Quiet)
    (hcow : ToCow s th p v (pg, cow)) : Writable v (handle s th env p v true cow pg) := by
  obtain ⟨hv, hown, r, rfl, hmap⟩ := hcow
  dsimp only at hv hown
  have hup : ∀ page, pg.own = some page → page.uptodate = true :=
    fun page hpage => absurd (hown.symm.trans hpage) (by simp)
  have hcow : ∀ r', (Paging.faultCheckpoint s th env p pg).2 = some (some r') →
      env.initialWrite = true ∨ some r = some r' :=
    fun r' hr' => .inr (congrArg some (hmap.unique (mappable_of_faultCheckpoint hok hr').2))
  obtain ⟨pg', page, hres, hpage⟩ := hread.fault_own hok hq hup hcow
  simp only [Paging.handle, hv, hres, install, if_true]
  exact makeWritable_own hpage false

/-- **A store that is tried** makes the page writable, or takes the page of the checkpoint away
so that it is copied. -/
theorem CanRead.handle_write (hread : CanRead th n c p) (hok : ReadOk s th) (hq : env.Quiet)
    (hpg : PageOk s th p pg) (hup : ∀ page, pg.own = some page → page.uptodate = true) :
    Writable v (handle s th env p v true none pg) ∨
      ToCow s th p v (handle s th env p v true none pg) := by
  rcases hv : pg.pte v with _ | (r | _ | _)
  · by_cases hcp : ∃ r, (Paging.faultCheckpoint s th env p pg).2 = some (some r) ∧
        env.initialWrite = false
    · obtain ⟨r, hres, hwrite⟩ := hcp
      obtain ⟨hres, hmap⟩ := mappable_of_faultCheckpoint hok hres
      right
      simp only [Paging.handle, hv, Paging.fault, hres, hwrite, Bool.false_eq_true, false_or,
        reduceCtorEq, if_false, install, if_true]
      exact makeWritable_cp hmap
    · have hwrite : ∀ r, (Paging.faultCheckpoint s th env p pg).2 = some (some r) →
          env.initialWrite = true ∨ none = some r :=
        fun r hr => .inl (by_contra fun h => hcp ⟨r, hr, by simpa using h⟩)
      obtain ⟨pg', page, hres, hpage⟩ := hread.fault_own hok hq hup hwrite
      left
      simp only [Paging.handle, hv, hres, install, if_true]
      exact makeWritable_own hpage false
  · right
    simp only [Paging.handle, hv, reduceCtorEq, ne_eq, not_false_eq_true, and_self, if_true]
    exact makeWritable_cp (hpg.cp v r hv).2
  · obtain ⟨page, hpage, -⟩ := hpg.own v false hv
    left
    simp only [Paging.handle, hv]
    exact makeWritable_own hpage false
  · left
    simp only [Paging.handle, hv]
    exact ⟨hv, rfl⟩

end Progress

end Paging
end Sivfs
