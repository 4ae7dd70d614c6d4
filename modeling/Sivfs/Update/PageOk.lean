/-
# What a fault keeps

`PageOk` says what a thread has of a page: the pages of the working set hold the snapshot with
the stores of the thread on top (`expected`), and a page of the checkpoint that is mapped is
the page of the snapshot (`Mappable`).

`sivfs_fault` maps a page of the checkpoint only if no commit up to the snapshot wrote to it
(`isPage_of_unmodified`), and it fills a page of the working set from the checkpoint and the
log (`fill_isPage`).  So each way through a fault keeps `PageOk` (`PageOk.fault`,
`PageOk.install`, `PageOk.handle`), as do a store (`PageOk.store`) and what the kernel does by
itself (`PageOk.zap`, `PageOk.reclaim`).  What other threads do changes nothing that `PageOk`
looks at (`PageOk.keeps`).
-/

import Sivfs.Update.Paging

open PathCopy

namespace Sivfs
namespace Paging

open Checkpoint (Ref Shared Thread CpOk InRange pathOf)

/-! ### What a fault finds -/

/-- What a thread needs for its reads. -/
structure ReadOk (s : Shared) (th : Thread) : Prop where
  log : Consecutive 1 s.log
  cp : ∀ c, th.checkpoint = some c → CpOk s c
  snap : ∀ n : ℕ, th.ts = (n : Ts) → n ≤ s.log.length

/-- The page of the checkpoint is the page of the snapshot. -/
def Mappable (s : Shared) (th : Thread) (p : ℕ × ℕ) (r : Ref) : Prop :=
  ∃ (n : ℕ) (c : Checkpoint.Cp), th.ts = (n : Ts) ∧ th.checkpoint = some c ∧
    follow s.heap.child c.root (pathOf p.1 (p.2 * pageSize)) = some r ∧
    IsPage (abs s.log n) p.1 (p.2 * pageSize) (s.heap.words r)

/-- The word of the snapshot, or what the thread has stored there. -/
def expected (log : List LogEntry) (n : ℕ) (p : ℕ × ℕ) (stores : ℕ → Option ℕ) (j : ℕ) : ℕ :=
  (stores j).getD ((abs log n).page p.1 (p.2 * pageSize) j)

/-- **What a page is like**, for a thread with this snapshot. -/
structure PageOk {V : Type*} (s : Shared) (th : Thread) (p : ℕ × ℕ) (pg : PageState V) : Prop where
  fresh : th.ts = invalidTs → pg.own = none ∧ pg.recorded = false
  recorded : pg.recorded = true → pg.own = none
  cp : ∀ v r, pg.pte v = some (.cp r) → pg.recorded = true ∧ Mappable s th p r
  own : ∀ v w, pg.pte v = some (.own w) → ∃ page, pg.own = some page ∧ page.uptodate = true
  filled : ∀ page, pg.own = some page → page.uptodate = true → ∃ n : ℕ, th.ts = (n : Ts) ∧
    ∀ j < 512, page.words j = expected s.log n p pg.stores j
  stored : ∀ j x, pg.stores j = some x → ∃ page, pg.own = some page ∧ page.uptodate = true ∧
    page.dirty = true

section Specs

variable {V : Type*} {s : Shared} {th : Thread} {env : Env} {p : ℕ × ℕ} {pg pg' : PageState V}
  {cow cow' : Option Ref} {r : Ref} {c : Checkpoint.Cp} {n ino off : ℕ}

/-- A search for writes starts no later than it ends. -/
theorem le_of_findFirstWrite {start stop : ℕ} {first : Ts}
    (h : Checkpoint.findFirstWrite s c.cpTs n ino start stop = .ok first) : c.cpTs ≤ n := by
  rw [Checkpoint.findFirstWrite] at h
  split_ifs at h with hrange
  · omega
  · omega

/-- **If there is no write between the checkpoint and the snapshot**, the page of the
checkpoint is the page of the snapshot. -/
theorem isPage_of_unmodified (hcp : CpOk s c) (hlog : Consecutive 1 s.log) (hn : n ≤ s.log.length)
    (hin : InRange ino off) (hoff : off % pageSize = 0)
    (hfind : Checkpoint.findFirstWrite s c.cpTs n ino off (off + pageSize) = .ok invalidTs) :
    IsPage (abs s.log n) ino off (s.heap.contents c.root (pathOf ino off)) := by
  have hle := le_of_findFirstWrite hfind
  rcases Nat.eq_or_lt_of_le hle with rfl | hlt
  · exact hcp.shows ino off hin
  · obtain ⟨l, rest, hl, hts⟩ := hlog.tsToLogEntry_cons (Nat.le_add_left 1 c.cpTs) (by omega)
    have hrange : ¬(n < c.cpTs ∨ off + pageSize ≤ off) := by
      simp only [pageSize]
      omega
    rw [Checkpoint.findFirstWrite, if_neg hrange, if_neg hlt.ne', hl] at hfind
    rw [abs_eq_foldl hlog hle, hl]
    have hno := Checkpoint.noWrite_of_findFirstWriteLoop rest (show l.ts ≤ n by omega)
      (Except.ok.inj hfind)
    exact Checkpoint.IsPage.of_noWrite (hcp.shows ino off hin) hoff hno

/-- **What `sivfs_fault_checkpoint` does**: it fails, finds no page, or finds the page of the
snapshot. -/
theorem faultCheckpoint_cases (h : ReadOk s th) (env : Env) (p : ℕ × ℕ) (pg : PageState V) :
    faultCheckpoint s th env p pg = (pg, none) ∨
      ∃ (n : ℕ) (c : Checkpoint.Cp), th = ⟨(n : Ts), some c⟩ ∧ c.cpTs ≤ n ∧
        (faultCheckpoint s th env p pg = (pg, some none) ∨
          ∃ r, faultCheckpoint s th env p pg = ({ pg with recorded := true }, some (some r)) ∧
            pg.own = none ∧ Mappable s th p r) := by
  rcases th with ⟨_ | n, _ | c⟩
  · exact .inl rfl
  · exact .inl rfl
  · exact .inl rfl
  · rcases hfind : Checkpoint.findFirstWrite s c.cpTs n p.1 (p.2 * pageSize)
        (p.2 * pageSize + pageSize) with e | first
    · exact .inl (by simp only [faultCheckpoint, hfind])
    · have hle := le_of_findFirstWrite hfind
      by_cases hskip : first ≠ invalidTs ∨ pg.own.isSome
      · exact .inr ⟨n, c, rfl, hle, .inl (by simp only [faultCheckpoint, hfind, if_pos hskip])⟩
      · obtain ⟨hfirst, hown⟩ := not_or.1 hskip
        obtain rfl := not_not.1 hfirst
        by_cases hin : InRange p.1 (p.2 * pageSize)
        · rcases hr : follow s.heap.child c.root (pathOf p.1 (p.2 * pageSize)) with _ | r
          · refine .inr ⟨n, c, rfl, hle, .inl ?_⟩
            simp only [faultCheckpoint, hfind, if_neg hskip, Checkpoint.checkpointIterInit_eq,
              if_pos hin, hr]
          · cases hrec : env.recordFails with
            | true =>
              left
              simp only [faultCheckpoint, hfind, if_neg hskip, Checkpoint.checkpointIterInit_eq,
                if_pos hin, hr, hrec, if_true]
            | false =>
              have hpage := isPage_of_unmodified (h.cp c rfl) h.log (h.snap n rfl) hin
                (Nat.mul_mod_left ..) hfind
              rw [Checkpoint.Heap.contents, hr] at hpage
              refine .inr ⟨n, c, rfl, hle, .inr ⟨r, ?_, by simpa using hown, n, c, rfl, rfl, hr,
                hpage⟩⟩
              simp only [faultCheckpoint, hfind, if_neg hskip, Checkpoint.checkpointIterInit_eq,
                if_pos hin, hr, hrec, Bool.false_eq_true, if_false]
        · left
          simp only [faultCheckpoint, hfind, if_neg hskip, Checkpoint.checkpointIterInit_eq,
            if_neg hin]

/-- A page is filled with the page of the snapshot. -/
theorem fill_isPage (h : ReadOk s ⟨(n : Ts), some c⟩) (hle : c.cpTs ≤ n) {cp : Option Ref}
    (hcp : ∀ r, cp = some r → Mappable s ⟨(n : Ts), some c⟩ p r) {words : ℕ → ℕ}
    (hfill : fill s ⟨(n : Ts), some c⟩ p cp = .ok words) :
    IsPage (abs s.log n) p.1 (p.2 * pageSize) words := by
  cases cp with
  | some r =>
    obtain ⟨n', c', hts, -, -, hpage⟩ := hcp r rfl
    obtain rfl := WithTop.coe_injective hts
    rwa [← Except.ok.inj hfill]
  | none =>
    have hoff : p.2 * pageSize % pageSize = 0 := Nat.mul_mod_left ..
    obtain ⟨words', hwords, hpage⟩ := (h.cp c rfl).updatePage h.log hle (h.snap n rfl)
      (Checkpoint.updatePage_inRange hfill hoff) hoff
    rwa [← Except.ok.inj (hwords.symm.trans hfill)]

/-- Where there is room for the page, it is filled. -/
theorem fill_ok (h : ReadOk s ⟨(n : Ts), some c⟩) (hle : c.cpTs ≤ n)
    (hin : InRange p.1 (p.2 * pageSize)) (cp : Option Ref) :
    ∃ words, fill s ⟨(n : Ts), some c⟩ p cp = .ok words := by
  cases cp with
  | some r => exact ⟨_, rfl⟩
  | none =>
    obtain ⟨words, hwords, -⟩ := (h.cp c rfl).updatePage h.log hle (h.snap n rfl) hin
      (Nat.mul_mod_left ..)
    exact ⟨words, hwords⟩

/-! ### What a fault keeps -/

theorem PageOk.empty (s : Shared) (th : Thread) (p : ℕ × ℕ) :
    PageOk s th p (.empty : PageState V) where
  fresh _ := ⟨rfl, rfl⟩
  recorded _ := rfl
  cp _ _ h := absurd h (by simp [PageState.empty])
  own _ _ h := absurd h (by simp [PageState.empty])
  filled _ h := absurd h (by simp [PageState.empty])
  stored _ _ h := absurd h (by simp [PageState.empty])

/-- Where there is no page of the working set, nothing has been stored. -/
theorem PageOk.stores_eq_none (h : PageOk s th p pg) (hown : pg.own = none) (j : ℕ) :
    pg.stores j = none := by
  cases hj : pg.stores j with
  | none => rfl
  | some x =>
    obtain ⟨page, hpage, -⟩ := h.stored j x hj
    exact absurd (hown.symm.trans hpage) (by simp)

/-- Nothing is mapped where there is no page. -/
theorem PageOk.pte_eq_none (h : PageOk s th p pg) (hown : pg.own = none)
    (hrec : pg.recorded = false) (v : V) : pg.pte v = none := by
  rcases hv : pg.pte v with _ | (r | w)
  · rfl
  · exact absurd (hrec.symm.trans (h.cp v r hv).1) (by simp)
  · obtain ⟨page, hpage, -⟩ := h.own v w hv
    exact absurd (hown.symm.trans hpage) (by simp)

/-- A page that has not been stored to is taken away. -/
theorem PageOk.unmap (h : PageOk s th p pg) (hstores : ∀ j, pg.stores j = none) :
    PageOk s th p pg.unmapPageRange where
  fresh hts := ⟨rfl, (h.fresh hts).2⟩
  recorded _ := rfl
  cp _ _ hv := absurd hv (by simp [PageState.unmapPageRange])
  own _ _ hv := absurd hv (by simp [PageState.unmapPageRange])
  filled _ hp := absurd hp (by simp [PageState.unmapPageRange])
  stored j x hj := absurd ((hstores j).symm.trans hj) (by simp)

theorem PageOk.evict (h : PageOk s th p pg) (hown : pg.own = none) : PageOk s th p pg.evict where
  fresh _ := ⟨rfl, rfl⟩
  recorded _ := rfl
  cp _ _ hv := absurd hv (by simp [PageState.evict, PageState.unmapPageRange])
  own _ _ hv := absurd hv (by simp [PageState.evict, PageState.unmapPageRange])
  filled _ hp := absurd hp (by simp [PageState.evict, PageState.unmapPageRange])
  stored j x hj := absurd ((h.stores_eq_none hown j).symm.trans hj) (by simp)

/-- A page of the checkpoint is recorded. -/
theorem PageOk.record (h : PageOk s ⟨(n : Ts), some c⟩ p pg) (hown : pg.own = none) :
    PageOk s ⟨(n : Ts), some c⟩ p { pg with recorded := true } where
  fresh hts := absurd hts WithTop.coe_ne_top
  recorded _ := hown
  cp v r hv := ⟨rfl, (h.cp v r hv).2⟩
  own := h.own
  filled := h.filled
  stored := h.stored

/-- A fresh page of the working set, filled or not. -/
theorem PageOk.fresh_own (h : PageOk s ⟨(n : Ts), some c⟩ p pg) (hown : pg.own = none)
    (hrec : pg.recorded = false) {page : OwnPage} (hpage : page.uptodate = true →
      IsPage (abs s.log n) p.1 (p.2 * pageSize) page.words) :
    PageOk s ⟨(n : Ts), some c⟩ p { pg with own := some page } where
  fresh hts := absurd hts WithTop.coe_ne_top
  recorded hr := absurd (hrec.symm.trans hr) (by simp)
  cp v r hv := absurd ((h.pte_eq_none hown hrec v).symm.trans hv) (by simp)
  own v w hv := absurd ((h.pte_eq_none hown hrec v).symm.trans hv) (by simp)
  filled page' hp hup := by
    obtain rfl := Option.some.inj hp
    refine ⟨n, rfl, fun j hj => ?_⟩
    rw [expected, h.stores_eq_none hown j]
    exact hpage hup j hj
  stored j x hj := absurd ((h.stores_eq_none hown j).symm.trans hj) (by simp)

/-- **The page of the working set** after a fault has asked for it. -/
theorem PageOk.ownPage (h : PageOk s ⟨(n : Ts), some c⟩ p pg) (hok : ReadOk s ⟨(n : Ts), some c⟩)
    (hle : c.cpTs ≤ n) (hrec : pg.recorded = false) (env : Env) {cp : Option Ref}
    (hcp : ∀ r, cp = some r → Mappable s ⟨(n : Ts), some c⟩ p r) :
    PageOk s ⟨(n : Ts), some c⟩ p (ownPage s ⟨(n : Ts), some c⟩ env p pg cp).1 ∧
      (∀ r, (Paging.ownPage s ⟨(n : Ts), some c⟩ env p pg cp).2 ≠ .cp r) ∧
      ((Paging.ownPage s ⟨(n : Ts), some c⟩ env p pg cp).2 = .own → ∃ page,
        (Paging.ownPage s ⟨(n : Ts), some c⟩ env p pg cp).1.own = some page ∧
          page.uptodate = true) := by
  rw [Paging.ownPage]
  rcases hown : pg.own with _ | page
  · by_cases halloc : env.allocFails = true
    · simp only [halloc, if_true]
      exact ⟨h, by simp, by simp⟩
    · simp only [halloc, Bool.false_eq_true, if_false]
      rcases hfill : fill s ⟨(n : Ts), some c⟩ p cp with e | words
      · exact ⟨h.fresh_own hown hrec (by simp), by simp, by simp⟩
      · have hpage := fill_isPage hok hle hcp hfill
        exact ⟨h.fresh_own hown hrec fun _ => hpage, by simp, fun _ => ⟨_, rfl, rfl⟩⟩
  · refine ⟨h, fun r => ?_, fun hret => ?_⟩
    · dsimp only
      split_ifs <;> simp
    · dsimp only at hret
      split_ifs at hret with hbusy hup
      exact ⟨page, hown, hup⟩

/-- What a fault has found may be mapped. -/
def Found (s : Shared) (th : Thread) (p : ℕ × ℕ) (pg : PageState V) : Pte → Prop
  | .cp r => pg.recorded = true ∧ Mappable s th p r
  | .own _ => ∃ page, pg.own = some page ∧ page.uptodate = true

/-- **`sivfs_fault`** keeps what a page is like, and finds what may be mapped. -/
theorem PageOk.fault (h : PageOk s th p pg) (hok : ReadOk s th) (env : Env) (cow : Option Ref) :
    PageOk s th p (Paging.fault s th env p cow pg).1 ∧
      (∀ r, (Paging.fault s th env p cow pg).2.2 = .cp r →
        Found s th p (Paging.fault s th env p cow pg).1 (.cp r)) ∧
      ((Paging.fault s th env p cow pg).2.2 = .own →
        Found s th p (Paging.fault s th env p cow pg).1 (.own false)) := by
  rw [Paging.fault]
  obtain hres | ⟨n, c, rfl, hle, hres | ⟨r, hres, hown, hmap⟩⟩ := faultCheckpoint_cases hok env p pg
  · rw [hres]
    exact ⟨h, by simp, by simp⟩
  · have hif : (if env.initialWrite = true ∨ cow = none then none else none) =
        (none : Option Ref) := ite_self _
    rw [hres]
    simp only [hif]
    have hpg : PageOk s ⟨(n : Ts), some c⟩ p (if pg.recorded = true then pg.evict else pg) ∧
        (if pg.recorded = true then pg.evict else pg).recorded = false := by
      split_ifs with hrec
      · exact ⟨h.evict (h.recorded hrec), rfl⟩
      · exact ⟨h, by simpa using hrec⟩
    have hnone : ∀ r, (none : Option Ref) = some r → Mappable s ⟨(n : Ts), some c⟩ p r := by simp
    obtain ⟨hpage, hne, hfound⟩ := hpg.1.ownPage hok hle hpg.2 env hnone
    exact ⟨hpage, fun r hr => absurd hr (hne r), hfound⟩
  · rw [hres]
    by_cases hcow : env.initialWrite = true ∨ cow = some r
    · simp only [if_pos hcow]
      have hpg := (h.record hown).evict hown
      have hsome : ∀ r', some r = some r' → Mappable s ⟨(n : Ts), some c⟩ p r' := by
        rintro r' hr'
        obtain rfl := Option.some.inj hr'
        exact hmap
      obtain ⟨hpage, hne, hfound⟩ := hpg.ownPage hok hle rfl env hsome
      exact ⟨hpage, fun r hr => absurd hr (hne r), hfound⟩
    · simp only [if_neg hcow]
      refine ⟨h.record hown, fun r' hr' => ?_, by simp⟩
      cases hr'
      exact ⟨rfl, hmap⟩

/-- What is mapped has been found. -/
theorem PageOk.found (h : PageOk s th p pg) {v : V} {e : Pte} (hv : pg.pte v = some e) :
    Found s th p pg e := by
  cases e with
  | cp r => exact h.cp v r hv
  | own w => exact h.own v w hv

/-- The page of the working set becomes dirty. -/
theorem PageOk.setDirty (h : PageOk s th p pg) {page : OwnPage} (hpage : pg.own = some page) :
    PageOk s th p { pg with own := some { page with dirty := true } } where
  fresh hts := absurd ((h.fresh hts).1.symm.trans hpage) (by simp)
  recorded hrec := absurd ((h.recorded hrec).symm.trans hpage) (by simp)
  cp v r hv := h.cp v r hv
  own v w hv := by
    obtain ⟨page', hpage', hup⟩ := h.own v w hv
    obtain rfl := Option.some.inj (hpage.symm.trans hpage')
    exact ⟨_, rfl, hup⟩
  filled page' hp hup := by
    obtain rfl := Option.some.inj hp
    exact h.filled page hpage hup
  stored j x hj := by
    obtain ⟨page', hpage', hup, -⟩ := h.stored j x hj
    obtain rfl := Option.some.inj (hpage.symm.trans hpage')
    exact ⟨_, rfl, hup, rfl⟩

/-- **What is stored is not lost to memory pressure**: only clean pages are dropped. -/
theorem PageOk.reclaim (h : PageOk s th p pg) : PageOk s th p pg.reclaim := by
  rw [PageState.reclaim]
  rcases hown : pg.own with _ | page
  · exact h
  · dsimp only
    split_ifs with hdirty
    · exact h
    · refine h.unmap fun j => ?_
      rcases hj : pg.stores j with _ | x
      · rfl
      · obtain ⟨page', hpage', -, hd⟩ := h.stored j x hj
        obtain rfl := Option.some.inj (hown.symm.trans hpage')
        exact absurd hd hdirty

/-- A store goes to the page of the working set. -/
theorem store_cases {v : V} {j x : ℕ} (hstore : pg.store v j x = some pg') :
    pg.pte v = some (.own true) ∧ ∃ page, pg.own = some page ∧ pg' = { pg with
      own := some { page with words := Function.update page.words j x, dirty := true }
      stores := Function.update pg.stores j (some x) } := by
  rw [PageState.store] at hstore
  split at hstore
  · rename_i page hv hpage
    exact ⟨hv, page, hpage, (Option.some.inj hstore).symm⟩
  · exact absurd hstore (by simp)

theorem PageOk.store (h : PageOk s th p pg) {v : V} {j x : ℕ} (hstore : pg.store v j x = some pg') :
    PageOk s th p pg' := by
  obtain ⟨hv, page, hpage, rfl⟩ := store_cases hstore
  have hup : page.uptodate = true := by
    obtain ⟨page', hpage', hup⟩ := h.own v true hv
    obtain rfl := Option.some.inj (hpage.symm.trans hpage')
    exact hup
  refine ⟨fun hts => absurd ((h.fresh hts).1.symm.trans hpage) (by simp), fun hrec => absurd
    ((h.recorded hrec).symm.trans hpage) (by simp), fun v r hv => h.cp v r hv,
    fun _ _ _ => ⟨_, rfl, hup⟩, fun page' hp _ => ?_, fun _ _ _ => ⟨_, rfl, hup, rfl⟩⟩
  obtain rfl := Option.some.inj hp
  obtain ⟨n, hts, hwords⟩ := h.filled page hpage hup
  refine ⟨n, hts, fun k hk => ?_⟩
  rcases eq_or_ne k j with rfl | hne
  · simp [expected]
  · simp only [expected, Function.update_of_ne hne]
    exact hwords k hk

/-- **When the snapshot is given up**, nothing is left. -/
theorem PageOk.invalidate (h : PageOk s th p pg) (th' : Thread) : PageOk s th' p pg.invalidate := by
  have hempty : pg.invalidate.own = none ∧ pg.invalidate.recorded = false ∧
      ∀ v, pg.invalidate.pte v = none := by
    rw [PageState.invalidate]
    split_ifs with hany
    · exact ⟨rfl, rfl, fun _ => rfl⟩
    · obtain ⟨hown, hrec⟩ := not_or.1 hany
      have hown := Option.not_isSome_iff_eq_none.1 hown
      have hrec := Bool.eq_false_iff.2 hrec
      exact ⟨hown, hrec, h.pte_eq_none hown hrec⟩
  obtain ⟨hown, hrec, hpte⟩ := hempty
  exact ⟨fun _ => ⟨hown, hrec⟩, fun _ => hown,
    fun v r hv => absurd ((hpte v).symm.trans hv) (by simp),
    fun v w hv => absurd ((hpte v).symm.trans hv) (by simp),
    fun page hp => absurd (hown.symm.trans hp) (by simp),
    fun j x hj => absurd hj (by simp [PageState.invalidate])⟩

/-- The snapshot and its checkpoint stay what they are. -/
structure Keeps (th : Thread) (s s' : Shared) : Prop where
  log : ∀ n : ℕ, th.ts = (n : Ts) → abs s'.log n = abs s.log n
  heap : ∀ c r ρ, th.checkpoint = some c → follow s.heap.child c.root ρ = some r →
    follow s'.heap.child c.root ρ = some r ∧ s'.heap.words r = s.heap.words r

theorem Mappable.keeps {s' : Shared} (h : Mappable s th p r) (hk : Keeps th s s') :
    Mappable s' th p r := by
  obtain ⟨n, c, hts, hc, hr, hpage⟩ := h
  obtain ⟨hr', hwords⟩ := hk.heap c r _ hc hr
  refine ⟨n, c, hts, hc, hr', ?_⟩
  rwa [hk.log n hts, hwords]

theorem PageOk.keeps {s' : Shared} (h : PageOk s th p pg) (hk : Keeps th s s') :
    PageOk s' th p pg where
  fresh := h.fresh
  recorded := h.recorded
  cp v r hv := ⟨(h.cp v r hv).1, (h.cp v r hv).2.keeps hk⟩
  own := h.own
  filled page hp hup := by
    obtain ⟨n, hts, hwords⟩ := h.filled page hp hup
    refine ⟨n, hts, fun j hj => ?_⟩
    rw [expected, hk.log n hts]
    exact hwords j hj
  stored := h.stored

/-- A thread without a snapshot may take anything. -/
theorem PageOk.take (h : PageOk s th p pg) (hts : th.ts = invalidTs) (th' : Thread) :
    PageOk s th' p pg := by
  obtain ⟨hown, hrec⟩ := h.fresh hts
  have hpte := h.pte_eq_none hown hrec
  exact ⟨fun _ => ⟨hown, hrec⟩, h.recorded, fun v r hv => absurd ((hpte v).symm.trans hv) (by simp),
    h.own, fun page hp => absurd (hown.symm.trans hp) (by simp), h.stored⟩

section Table

variable [DecidableEq V]

/-- What has been found is mapped. -/
theorem PageOk.map (h : PageOk s th p pg) (v : V) {e : Pte} (hfound : Found s th p pg e) :
    PageOk s th p (pg.map v e) where
  fresh := h.fresh
  recorded := h.recorded
  cp v' r hv := by
    rcases eq_or_ne v' v with rfl | hne
    · simp only [PageState.map, Function.update_self, Option.some.injEq] at hv
      subst hv
      exact hfound
    · simp only [PageState.map, Function.update_of_ne hne] at hv
      exact h.cp v' r hv
  own v' w hv := by
    rcases eq_or_ne v' v with rfl | hne
    · simp only [PageState.map, Function.update_self, Option.some.injEq] at hv
      subst hv
      exact hfound
    · simp only [PageState.map, Function.update_of_ne hne] at hv
      exact h.own v' w hv
  filled := h.filled
  stored := h.stored

/-- An entry of the page table is cleared. -/
theorem PageOk.zap (h : PageOk s th p pg) (v : V) :
    PageOk s th p { pg with pte := Function.update pg.pte v none } where
  fresh := h.fresh
  recorded := h.recorded
  cp v' r hv := by
    rcases eq_or_ne v' v with rfl | hne
    · simp at hv
    · simp only [Function.update_of_ne hne] at hv
      exact h.cp v' r hv
  own v' w hv := by
    rcases eq_or_ne v' v with rfl | hne
    · simp at hv
    · simp only [Function.update_of_ne hne] at hv
      exact h.own v' w hv
  filled := h.filled
  stored := h.stored

/-- **`sivfs_mkwrite`** evicts a page of the checkpoint, and lets a page of the working set be
written to. -/
theorem PageOk.makeWritable (h : PageOk s th p pg) (v : V) (cow : Option Ref) {e : Pte}
    (hfound : Found s th p pg e) : PageOk s th p (makeWritable v cow pg e).1 := by
  cases cow with
  | some r => exact h
  | none =>
    cases e with
    | cp r => exact h.evict (h.recorded hfound.1)
    | own w =>
      obtain ⟨page, hpage, hup⟩ := hfound
      simp only [Paging.makeWritable, mkwrite, Option.isSome_none, Bool.false_eq_true, if_false,
        hpage]
      exact (h.setDirty hpage).map v ⟨_, rfl, hup⟩

theorem PageOk.install (h : PageOk s th p pg) (v : V) (write : Bool) (cow : Option Ref) {e : Pte}
    (hfound : Found s th p pg e) : PageOk s th p (install v write cow pg e).1 := by
  cases write with
  | true => exact h.makeWritable v cow hfound
  | false => exact h.map v hfound

/-- **Loads and stores**, however often they are tried, keep what a page is like. -/
theorem PageOk.handle (h : PageOk s th p pg) (hok : ReadOk s th) (env : Env) (v : V) (write : Bool)
    (cow : Option Ref) : PageOk s th p (handle s th env p v write cow pg).1 := by
  rw [Paging.handle]
  rcases hv : pg.pte v with _ | e
  · obtain ⟨hpage, hcp, hown⟩ := h.fault hok env cow
    rcases hres : Paging.fault s th env p cow pg with ⟨pg', cow', ret⟩
    rw [hres] at hpage hcp hown
    cases ret with
    | sigbus => exact hpage
    | retry => exact hpage
    | cp r => exact hpage.install v write cow' (hcp r rfl)
    | own => exact hpage.install v write cow' (hown rfl)
  · dsimp only
    split_ifs
    · exact h.makeWritable v cow (h.found hv)
    · exact h

end Table

end Specs

end Paging
end Sivfs
