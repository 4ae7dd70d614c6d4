/-
# Nothing in use is freed

Lifetimes of pages and of checkpoint inodes.  A page is listed for collection
once the checkpoint that no longer has it is past its point of no return, and
from then on its lifetime `checkpoint_ts .. obsoleted_ts` says which checkpoints
have it: every checkpoint that reaches the page lies inside (`Dead`).  So a
checkpoint in use keeps its pages if the collector never frees a lifetime that
contains the timestamp of a checkpoint in use (`Spared`), and it never does: the
lifetime ends at or before `latest_checkpoint_published`, and every older
timestamp that a thread relies on was found by the scan.
-/

import Sivfs.Checkout.Hazard

open TwoSlot

namespace Sivfs
namespace Checkout

/-! ### What is listed is dead -/

/-- Page `p` is obsolete from `o` on, and so is every checkpoint that has it. -/
def Dead (pages : ℕ → Option Page) (cps : ℕ → Option Checkpoint) (p o : ℕ) : Prop :=
  (∃ pg, pages p = some pg ∧ pg.obsoletedTs = (o : Ts)) ∧
    ∀ c cp, cps c = some cp → p ∈ cp.reach → cp.cpTs < o

/-- Checkpoint `c` is obsolete from `o` on. -/
def DeadInode (cps : ℕ → Option Checkpoint) (c o : ℕ) : Prop :=
  ∃ cp, cps c = some cp ∧ cp.obsoletedTs = (o : Ts) ∧ cp.cpTs < o

/-- The checkpoint being prepared: its inode, its timestamp and the pages it has
replaced. -/
def MakerPc.preparing : MakerPc → Option (ℕ × ℕ × List ℕ)
  | .build new _ ts stack | .stamp new _ ts stack | .mark new _ ts stack => some (new, ts, stack)
  | .idle | .finish _ _ _ => none

variable {ι : Type*} {s s' : State ι}

/-- The timestamp of the last checkpoint past its point of no return. -/
def lastTs (s : State ι) : ℕ :=
  match s.maker with
  | .finish _ _ ts => ts
  | _ => ptrTs s

/-- The collector may come across `e`, or has freed it. -/
def Listed (s : State ι) (e : GcEntry) : Prop :=
  e ∈ s.obsoletedEntries ∨ (∃ g, e ∈ s.gcBlockedEntries g) ∨ e ∈ s.freed

/-- Checkpoints, their pages and the lists of the collector. -/
structure Mem (s : State ι) : Prop where
  reach : ∀ c cp, s.cps c = some cp → ∀ p ∈ cp.reach,
    ∃ pg, s.pages p = some pg ∧ pg.checkpointTs ≤ cp.cpTs
  page : ∀ p, Listed s (.page p) → ∃ o ≤ lastTs s, Dead s.pages s.cps p o
  inode : ∀ c, Listed s (.inode c) → ∃ o ≤ lastTs s, DeadInode s.cps c o
  stack : ∀ new ts stack, s.maker.preparing = some (new, ts, stack) →
    ∀ p ∈ stack, Dead s.pages s.cps p ts
  prior : ∀ new prior ts stack, s.maker = .mark new prior ts stack → DeadInode s.cps prior ts
  others : ∀ c cp, s.cps c = some cp →
    cp.cpTs ≤ lastTs s ∨ ∃ ts stack, s.maker.preparing = some (c, ts, stack)

theorem lastTs_le (hp : Pub s) (h : MakerTurn s s') : lastTs s ≤ lastTs s' := by
  have hle := (hp.maker_turn h).2.ptr
  have hst := hp.stage
  cases h with
  | start hm | cow hm | cowFails hm | grow hm | insert hm | stamp hm =>
    simpa [lastTs, hm] using hle
  | fail hm => rcases hm with hm | hm | hm <;> simpa [lastTs, hm] using hle
  | mark hm => simpa [lastTs, hm] using (hp.preparing (.inr (.inr hm))).lt.le
  | hide hm | point hm | reveal hm => simp [lastTs, hm]
  | announce hm =>
    rw [hm] at hst
    simpa [lastTs, hm] using hst.1.le.trans hle

/-- While a checkpoint is prepared, its timestamp is above those of all others. -/
theorem Mem.lt_of_ne (hm : Mem s) {new ts : ℕ} {stack : List ℕ}
    (hpr : s.maker.preparing = some (new, ts, stack)) (hlt : lastTs s < ts) {c : ℕ}
    {cp : Checkpoint} (hc : c ≠ new) (hcp : s.cps c = some cp) : cp.cpTs < ts := by
  rcases hm.others c cp hcp with h | ⟨ts', stack', h⟩
  · omega
  · rw [hpr] at h
    exact absurd (congrArg Prod.fst (Option.some.inj h)).symm hc

/-- A turn that lists nothing keeps what is dead dead. -/
theorem Mem.keep (hm : Mem s) (hlast : lastTs s ≤ lastTs s')
    (hl : ∀ e, Listed s' e → Listed s e)
    (hd : ∀ p o, o ≤ lastTs s → Dead s.pages s.cps p o → Dead s'.pages s'.cps p o)
    (hi : ∀ c o, o ≤ lastTs s → DeadInode s.cps c o → DeadInode s'.cps c o) :
    (∀ p, Listed s' (.page p) → ∃ o ≤ lastTs s', Dead s'.pages s'.cps p o) ∧
      ∀ c, Listed s' (.inode c) → ∃ o ≤ lastTs s', DeadInode s'.cps c o := by
  constructor
  · intro p hp
    obtain ⟨o, ho, h⟩ := hm.page p (hl _ hp)
    exact ⟨o, ho.trans hlast, hd p o ho h⟩
  · intro c hc
    obtain ⟨o, ho, h⟩ := hm.inode c (hl _ hc)
    exact ⟨o, ho.trans hlast, hi c o ho h⟩

/-- A turn that leaves checkpoints and pages alone. -/
theorem Mem.of_eq (hm : Mem s) (hlast : lastTs s ≤ lastTs s') (hc : s'.cps = s.cps)
    (hp : s'.pages = s.pages) (hl : ∀ e, Listed s' e → Listed s e)
    (hpr : s'.maker.preparing = s.maker.preparing)
    (hmark : ∀ new prior ts stack, s'.maker = .mark new prior ts stack →
      s.maker = .mark new prior ts stack) : Mem s' := by
  obtain ⟨hpage, hinode⟩ := hm.keep hlast hl (by rw [hc, hp]; exact fun _ _ _ h => h)
    (by rw [hc]; exact fun _ _ _ h => h)
  refine ⟨by rw [hc, hp]; exact hm.reach, hpage, hinode, by rw [hc, hp, hpr]; exact hm.stack,
    fun new prior ts stack h => ?_, fun c cp hcp => ?_⟩
  · rw [hc]
    exact hm.prior new prior ts stack (hmark new prior ts stack h)
  · rw [hc] at hcp
    rw [hpr]
    exact (hm.others c cp hcp).imp_left fun h => h.trans hlast

/-- What the checkpoint thread does to the pages: it stamps pages in `live` and
adds those in `fresh`. -/
structure Rewrites (pages pages' : ℕ → Option Page) (live : List ℕ) (ts : ℕ) (fresh : List ℕ) :
    Prop where
  kept : ∀ p pg, pages p = some pg → ∃ pg', pages' p = some pg' ∧
    pg'.checkpointTs = pg.checkpointTs ∧ (p ∉ live → pg' = pg)
  added : ∀ p ∈ fresh, pages p = none ∧ ∃ pg, pages' p = some pg ∧ pg.checkpointTs = ts

theorem Rewrites.refl (pages : ℕ → Option Page) (live : List ℕ) (ts : ℕ) :
    Rewrites pages pages live ts [] :=
  ⟨fun _ pg h => ⟨pg, h, rfl, fun _ => rfl⟩, by simp⟩

theorem Rewrites.stamp (pages : ℕ → Option Page) {live : List ℕ} {p : ℕ} (ts : ℕ) (hp : p ∈ live) :
    Rewrites pages (stampPage pages p ts) live ts [] := by
  refine ⟨fun q pg h => ?_, by simp⟩
  by_cases hq : q = p
  · subst hq
    exact ⟨{ pg with obsoletedTs := (ts : Ts) }, by simp [stampPage, h], rfl,
      fun hn => absurd hp hn⟩
  · exact ⟨pg, by rw [stampPage, Function.update_of_ne hq]; exact h, rfl, fun _ => rfl⟩

/-- A page is added. -/
theorem Rewrites.add {pages pages' : ℕ → Option Page} {live : List ℕ} {ts q : ℕ}
    (h : Rewrites pages pages' live ts []) (hq : pages q = none) :
    Rewrites pages (Function.update pages' q (some ⟨ts, ⊤⟩)) live ts [q] := by
  refine ⟨fun p pg hp => ?_, fun p hp => ?_⟩
  · have hpq : p ≠ q := by
      rintro rfl
      rw [hp] at hq
      simp at hq
    rw [Function.update_of_ne hpq]
    exact h.kept p pg hp
  · obtain rfl := List.mem_singleton.1 hp
    exact ⟨hq, ⟨ts, ⊤⟩, Function.update_self _ _ _, rfl⟩

/-- The pages of the checkpoint being prepared are not dead: rewriting them
leaves the dead ones alone. -/
theorem Dead.rewrite {pages pages' : ℕ → Option Page} {cps : ℕ → Option Checkpoint} {p o new : ℕ}
    {ts : ℕ} {fresh : List ℕ} {cp : Checkpoint} {x : Option Checkpoint} (h : Dead pages cps p o)
    (ho : o ≤ cp.cpTs) (hcp : cps new = some cp) (hrw : Rewrites pages pages' cp.reach ts fresh)
    (hx : ∀ cp', x = some cp' → cp'.cpTs = cp.cpTs ∧ ∀ q ∈ cp'.reach, q ∈ cp.reach ∨ q ∈ fresh) :
    Dead pages' (Function.update cps new x) p o := by
  have hlive : p ∉ cp.reach := fun hmem => absurd (h.2 new cp hcp hmem) (by omega)
  obtain ⟨⟨pg, hpg, hobs⟩, hcps⟩ := h
  refine ⟨?_, fun c cp' hcp' hmem => ?_⟩
  · obtain ⟨pg', hpg', -, heq⟩ := hrw.kept p pg hpg
    exact ⟨pg', hpg', by rw [heq hlive]; exact hobs⟩
  · by_cases hcn : c = new
    · subst hcn
      rw [Function.update_self] at hcp'
      rcases (hx cp' hcp').2 p hmem with hold | hnew
      · exact absurd hold hlive
      · rw [(hrw.added p hnew).1] at hpg
        simp at hpg
    · rw [Function.update_of_ne hcn] at hcp'
      exact hcps c cp' hcp' hmem

/-- A turn that changes or drops the checkpoint `new` being prepared. -/
theorem Mem.prepare (hm : Mem s) (hlast : lastTs s ≤ lastTs s') {new ts : ℕ} {stack fresh : List ℕ}
    (hpr : s.maker.preparing = some (new, ts, stack)) (hlt : lastTs s < ts) {cp : Checkpoint}
    (hcp : s.cps new = some cp) (hts : cp.cpTs = ts)
    (hrw : Rewrites s.pages s'.pages cp.reach ts fresh) {x : Option Checkpoint}
    (hc : s'.cps = Function.update s.cps new x)
    (hx : ∀ cp', x = some cp' → cp'.cpTs = cp.cpTs ∧ ∀ q ∈ cp'.reach, q ∈ cp.reach ∨ q ∈ fresh)
    (hl : ∀ e, Listed s' e → Listed s e)
    (hstack : ∀ new' ts' stack', s'.maker.preparing = some (new', ts', stack') →
      ts' = ts ∧ ∀ p ∈ stack', p ∈ stack ∨ Dead s'.pages s'.cps p ts)
    (hmark : ∀ new' prior' ts' stack', s'.maker ≠ .mark new' prior' ts' stack')
    (hnew : x = none ∨ s'.maker.preparing.map Prod.fst = some new) : Mem s' := by
  have hdead : ∀ p o, o ≤ ts → Dead s.pages s.cps p o → Dead s'.pages s'.cps p o := by
    intro p o ho h
    rw [hc]
    exact h.rewrite (by omega) hcp hrw hx
  obtain ⟨hpage, hinode⟩ := hm.keep hlast hl (fun p o ho => hdead p o (by omega)) fun c o ho h => by
    obtain ⟨cpc, hcpc, hobs, hlto⟩ := h
    have hcn : c ≠ new := by
      rintro rfl
      rw [hcp] at hcpc
      obtain rfl := Option.some.inj hcpc
      omega
    exact ⟨cpc, by rw [hc, Function.update_of_ne hcn]; exact hcpc, hobs, hlto⟩
  have hkept : ∀ c cpc, s.cps c = some cpc → ∀ p ∈ cpc.reach,
      ∃ pg, s'.pages p = some pg ∧ pg.checkpointTs ≤ cpc.cpTs := by
    intro c cpc hcpc p hmem
    obtain ⟨pg, hpg, hle⟩ := hm.reach c cpc hcpc p hmem
    obtain ⟨pg', hpg', heq, -⟩ := hrw.kept p pg hpg
    exact ⟨pg', hpg', by omega⟩
  refine ⟨fun c cp' hcp' p hmem => ?_, hpage, hinode, fun new' ts' stack' h p hmem => ?_,
    fun new' prior' ts' stack' h => absurd h (hmark _ _ _ _), fun c cp' hcp' => ?_⟩
  · rw [hc] at hcp'
    by_cases hcn : c = new
    · subst hcn
      rw [Function.update_self] at hcp'
      obtain ⟨hts', hreach⟩ := hx cp' hcp'
      rcases hreach p hmem with hold | hfresh
      · rw [hts']
        exact hkept c cp hcp p hold
      · obtain ⟨-, pg, hpg, heq⟩ := hrw.added p hfresh
        exact ⟨pg, hpg, by omega⟩
    · rw [Function.update_of_ne hcn] at hcp'
      exact hkept c cp' hcp' p hmem
  · obtain ⟨rfl, hmem'⟩ := hstack new' ts' stack' h
    rcases hmem' p hmem with hold | hnew
    · exact hdead p ts' le_rfl (hm.stack _ _ _ hpr p hold)
    · exact hnew
  · rw [hc] at hcp'
    by_cases hcn : c = new
    · subst hcn
      rw [Function.update_self] at hcp'
      obtain ⟨⟨c', ts', stack'⟩, h, rfl⟩ :=
        Option.map_eq_some_iff.1 (hnew.resolve_left (by simp [hcp']))
      exact .inr ⟨ts', stack', h⟩
    · rw [Function.update_of_ne hcn] at hcp'
      rcases hm.others c cp' hcp' with h | ⟨ts', stack', h⟩
      · exact .inl (h.trans hlast)
      · rw [hpr] at h
        exact absurd (congrArg Prod.fst (Option.some.inj h)).symm hcn

/-- The checkpoint thread begins. -/
theorem Mem.start (hp : Pub s) (hm : Mem s) {new c : ℕ} {cp : Checkpoint} (hmk : s.maker = .idle)
    (hc : s.latestCp = some c) (hcp : s.cps c = some cp) (hnone : s.cps new = none)
    (hlast : lastTs s ≤ lastTs s')
    (hcps : s'.cps = Function.update s.cps new (some ⟨s.masterTs, ⊤, cp.reach, false⟩))
    (hpages : s'.pages = s.pages) (hl : ∀ e, Listed s' e → Listed s e)
    (hmk' : s'.maker = .build new c s.masterTs []) : Mem s' := by
  have hptr : lastTs s = cp.cpTs := by simpa [lastTs, hmk] using ptrTs_eq hc hcp
  have hle : cp.cpTs ≤ s.masterTs := by
    rw [← ptrTs_eq hc hcp]
    exact hp.ptrTs_le
  have hold : ∀ d dp, s.cps d = some dp → s'.cps d = some dp := by
    intro d dp hd
    have hdn : d ≠ new := by
      rintro rfl
      rw [hd] at hnone
      simp at hnone
    rw [hcps, Function.update_of_ne hdn, hd]
  have hcases : ∀ d dp, s'.cps d = some dp →
      s.cps d = some dp ∨ (d = new ∧ dp.cpTs = s.masterTs ∧ dp.reach = cp.reach) := by
    intro d dp hd
    rw [hcps] at hd
    by_cases hdn : d = new
    · subst hdn
      rw [Function.update_self] at hd
      obtain rfl := Option.some.inj hd
      exact .inr ⟨rfl, rfl, rfl⟩
    · rw [Function.update_of_ne hdn] at hd
      exact .inl hd
  obtain ⟨hpage, hinode⟩ := hm.keep hlast hl (fun p o ho h => by
      refine ⟨by rw [hpages]; exact h.1, fun d dp hd hmem => ?_⟩
      rcases hcases d dp hd with hd | ⟨-, -, hreach⟩
      · exact h.2 d dp hd hmem
      · have := h.2 c cp hcp (hreach ▸ hmem)
        omega)
    fun d o _ ⟨dp, hd, hobs, hlt⟩ => ⟨dp, hold d dp hd, hobs, hlt⟩
  refine ⟨fun d dp hd p hmem => ?_, hpage, hinode, fun new' ts' stack' h p hmem => ?_,
    fun new' prior' ts' stack' h => ?_, fun d dp hd => ?_⟩
  · rw [hpages]
    rcases hcases d dp hd with hd | ⟨-, hts, hreach⟩
    · exact hm.reach d dp hd p hmem
    · obtain ⟨pg, hpg, hpgle⟩ := hm.reach c cp hcp p (hreach ▸ hmem)
      exact ⟨pg, hpg, by omega⟩
  · rw [hmk'] at h
    obtain ⟨-, -, rfl⟩ := by simpa [MakerPc.preparing] using h
    simp at hmem
  · rw [hmk'] at h
    simp at h
  · rcases hcases d dp hd with hd | ⟨rfl, -, -⟩
    · rcases hm.others d dp hd with h | ⟨ts', stack', h⟩
      · exact .inl (h.trans hlast)
      · rw [hmk] at h
        simp [MakerPc.preparing] at h
    · exact .inr ⟨s.masterTs, [], by rw [hmk']; rfl⟩

/-- Marks on the checkpoints do not matter to the pages. -/
theorem Dead.remark {pages : ℕ → Option Page} {cps cps' : ℕ → Option Checkpoint} {p o : ℕ}
    (h : Dead pages cps p o) (hc : ∀ c cp', cps' c = some cp' →
      ∃ cp, cps c = some cp ∧ cp'.cpTs = cp.cpTs ∧ cp'.reach = cp.reach) : Dead pages cps' p o := by
  refine ⟨h.1, fun c cp' hcp' hmem => ?_⟩
  obtain ⟨cp, hcp, hts, hreach⟩ := hc c cp' hcp'
  rw [hts]
  exact h.2 c cp hcp (hreach ▸ hmem)

/-- What an update of one checkpoint by `f` leaves there. -/
theorem update_map_cases (cps : ℕ → Option Checkpoint) (d : ℕ) {f : Checkpoint → Checkpoint}
    (hf : ∀ cp, (f cp).cpTs = cp.cpTs ∧ (f cp).reach = cp.reach) (c : ℕ) (cp' : Checkpoint)
    (h : Function.update cps d ((cps d).map f) c = some cp') :
    ∃ cp, cps c = some cp ∧ cp'.cpTs = cp.cpTs ∧ cp'.reach = cp.reach := by
  by_cases hcd : c = d
  · subst hcd
    rw [Function.update_self] at h
    obtain ⟨cp, hcp, rfl⟩ := Option.map_eq_some_iff.1 h
    exact ⟨cp, hcp, hf cp⟩
  · rw [Function.update_of_ne hcd] at h
    exact ⟨cp', h, rfl, rfl⟩

/-- A page that was copied is dead. -/
theorem Mem.cow_dead (hm : Mem s) {new ts p q : ℕ} {stack : List ℕ} {cp : Checkpoint} {pg : Page}
    (hpr : s.maker.preparing = some (new, ts, stack)) (hlt : lastTs s < ts)
    (hpg : s.pages p = some pg) (hpq : p ≠ q) :
    Dead (Function.update (stampPage s.pages p ts) q (some ⟨ts, ⊤⟩))
      (Function.update s.cps new (some { cp with reach := q :: cp.reach.filter (· ≠ p) }))
        p ts := by
  refine ⟨⟨{ pg with obsoletedTs := (ts : Ts) }, ?_, rfl⟩, fun c cp' hcp' hmem => ?_⟩
  · rw [Function.update_of_ne hpq]
    simp [stampPage, hpg]
  · by_cases hcn : c = new
    · subst hcn
      rw [Function.update_self] at hcp'
      obtain rfl := Option.some.inj hcp'
      simp [hpq] at hmem
    · rw [Function.update_of_ne hcn] at hcp'
      exact hm.lt_of_ne hpr hlt hcn hcp'

/-- Page `p` is copied to `q`. -/
theorem Mem.cow (hp : Pub s) (hm : Mem s) {new prior ts p q : ℕ} {stack : List ℕ} {cp : Checkpoint}
    {pg : Page} (hlast : lastTs s ≤ lastTs s') (hmk : s.maker = .build new prior ts stack)
    (hcp : s.cps new = some cp) (hpg : s.pages p = some pg) (hmem : p ∈ cp.reach)
    (hnone : s.pages q = none)
    (hs' : s' = { s with
      pages := Function.update (stampPage s.pages p ts) q (some ⟨ts, ⊤⟩)
      cps := Function.update s.cps new (some { cp with reach := q :: cp.reach.filter (· ≠ p) })
      maker := .build new prior ts (p :: stack) }) : Mem s' := by
  subst hs'
  have hprep := hp.preparing (.inl hmk)
  have hlt : lastTs s < ts := by simpa [lastTs, hmk] using hprep.lt
  have hpq : p ≠ q := by
    rintro rfl
    simp [hpg] at hnone
  refine hm.prepare hlast (by rw [hmk]; rfl) hlt hcp (hprep.uncommitted hcp).1
    ((Rewrites.stamp s.pages ts hmem).add hnone) rfl ?_ (fun _ h => h) ?_ (by simp) (.inr rfl)
  · intro cp' h
    obtain rfl := Option.some.inj h
    refine ⟨rfl, fun r hr => ?_⟩
    rcases List.mem_cons.1 hr with rfl | hr
    · exact .inr (List.mem_singleton_self _)
    · exact .inl (List.mem_filter.1 hr).1
  · intro new' ts' stack' h
    obtain ⟨rfl, rfl, rfl⟩ := by simpa [MakerPc.preparing] using h
    refine ⟨rfl, fun r hr => ?_⟩
    rcases List.mem_cons.1 hr with rfl | hr
    · exact .inr (hm.cow_dead (by rw [hmk]; rfl) hlt hpg hpq)
    · exact .inl hr

/-- Page `q` is added where there was none. -/
theorem Mem.grow (hp : Pub s) (hm : Mem s) {new prior ts q : ℕ} {stack : List ℕ} {cp : Checkpoint}
    (hlast : lastTs s ≤ lastTs s') (hmk : s.maker = .build new prior ts stack)
    (hcp : s.cps new = some cp) (hnone : s.pages q = none)
    (hs' : s' = { s with
      pages := Function.update s.pages q (some ⟨ts, ⊤⟩)
      cps := Function.update s.cps new (some { cp with reach := q :: cp.reach }) }) : Mem s' := by
  subst hs'
  have hprep := hp.preparing (.inl hmk)
  have hpr : s.maker.preparing = some (new, ts, stack) := by rw [hmk]; rfl
  refine hm.prepare hlast hpr (by simpa [lastTs, hmk] using hprep.lt) hcp (hprep.uncommitted hcp).1
    ((Rewrites.refl s.pages _ ts).add hnone) rfl ?_ (fun _ h => h) ?_ ?_ (.inr ?_)
  · intro cp' h
    obtain rfl := Option.some.inj h
    exact ⟨rfl, fun r hr => (List.mem_cons.1 hr).elim (fun h => .inr (by simp [h])) .inl⟩
  · intro new' ts' stack' h
    rw [hpr] at h
    obtain ⟨rfl, rfl, rfl⟩ := by simpa using h
    exact ⟨rfl, fun r hr => .inl hr⟩
  · simp [hmk]
  · rw [hpr]
    rfl

/-- The prior checkpoint is stamped: it is listed next. -/
theorem Mem.stamp (hp : Pub s) (hm : Mem s) {new prior ts : ℕ} {stack : List ℕ}
    (hlast : lastTs s ≤ lastTs s') (hmk : s.maker = .stamp new prior ts stack)
    (hs' : s' = { s with
      cps := Function.update s.cps prior
        ((s.cps prior).map fun cp => { cp with obsoletedTs := (ts : Ts) })
      maker := .mark new prior ts stack }) : Mem s' := by
  subst hs'
  have hprep := hp.preparing (.inr (.inl hmk))
  obtain ⟨d, dp, hd, hdp, -⟩ := hp.ptr
  obtain rfl : prior = d := Option.some.inj (hprep.prior.symm.trans hd)
  have hptr := ptrTs_eq hd hdp
  have hlt := hprep.lt
  have hcps := update_map_cases s.cps prior
    (f := fun cp => { cp with obsoletedTs := (ts : Ts) }) fun _ => ⟨rfl, rfl⟩
  obtain ⟨hpage, hinode⟩ := hm.keep hlast (fun _ h => h) (fun p o _ h => h.remark hcps)
    fun c o ho ⟨cpc, hcpc, hobs, hlto⟩ => by
      have hcp : c ≠ prior := by
        rintro rfl
        rw [hdp] at hcpc
        obtain rfl := Option.some.inj hcpc
        have : lastTs s = ptrTs s := by simp [lastTs, hmk]
        omega
      exact ⟨cpc, (Function.update_of_ne hcp _ _).trans hcpc, hobs, hlto⟩
  refine ⟨fun c cp hcp p hmem => ?_, hpage, hinode, fun new' ts' stack' h p hmem => ?_,
    fun new' prior' ts' stack' h => ?_, fun c cp hcp => ?_⟩
  · obtain ⟨cp₀, hcp₀, hts, hreach⟩ := hcps c cp hcp
    rw [hts]
    exact hm.reach c cp₀ hcp₀ p (hreach ▸ hmem)
  · exact (hm.stack new' ts' stack' (by rw [hmk]; exact h) p hmem).remark hcps
  · obtain ⟨rfl, rfl, rfl, rfl⟩ := by simpa using h
    exact ⟨{ dp with obsoletedTs := (ts : Ts) }, by simp [hdp], rfl, by
      show dp.cpTs < ts
      omega⟩
  · obtain ⟨cp₀, hcp₀, hts, -⟩ := hcps c cp hcp
    rw [hts]
    refine (hm.others c cp₀ hcp₀).imp (fun h => h.trans hlast) ?_
    rintro ⟨ts', stack', h⟩
    exact ⟨ts', stack', by rw [hmk] at h; exact h⟩

/-- What is listed at the point of no return. -/
theorem listed_mark {stack : List ℕ} {prior : ℕ}
    (hob : s'.obsoletedEntries = s.obsoletedEntries ++ stack.map GcEntry.page ++ [.inode prior])
    (hbl : s'.gcBlockedEntries = s.gcBlockedEntries) (hfr : s'.freed = s.freed) {e : GcEntry}
    (h : Listed s' e) : Listed s e ∨ (∃ p ∈ stack, e = .page p) ∨ e = .inode prior := by
  rw [Listed, hob, hbl, hfr] at h
  rcases h with h | h
  · rcases List.mem_append.1 h with h | h
    · rcases List.mem_append.1 h with h | h
      · exact .inl (.inl h)
      · obtain ⟨p, hp, rfl⟩ := List.mem_map.1 h
        exact .inr (.inl ⟨p, hp, rfl⟩)
    · exact .inr (.inr (List.mem_singleton.1 h))
  · exact .inl (.inr h)

/-- The point of no return: the pages that were replaced are listed, and the prior inode. -/
theorem Mem.mark (hp : Pub s) (hm : Mem s) {new prior ts : ℕ} {stack : List ℕ}
    (hlast : lastTs s ≤ lastTs s') (hmk : s.maker = .mark new prior ts stack)
    (hs' : s' = { s with
      obsoletedEntries := s.obsoletedEntries ++ stack.map .page ++ [.inode prior]
      cps := Function.update s.cps new ((s.cps new).map fun cp => { cp with committed := true })
      maker := .finish .hide new ts }) : Mem s' := by
  have hlisted :=
    fun e => @listed_mark ι s s' stack prior (by rw [hs']) (by rw [hs']) (by rw [hs']) e
  have hlts : lastTs s' = ts := by rw [hs', lastTs]
  subst hs'
  have hprep := hp.preparing (.inr (.inr hmk))
  have hpr : s.maker.preparing = some (new, ts, stack) := by rw [hmk]; rfl
  have hcps := update_map_cases s.cps new
    (f := fun cp => { cp with committed := true }) fun _ => ⟨rfl, rfl⟩
  have hinode : ∀ c o, DeadInode s.cps c o →
      DeadInode
        (Function.update s.cps new ((s.cps new).map fun cp => { cp with committed := true }))
        c o := by
    rintro c o ⟨cp, hcp, hobs, hlt⟩
    by_cases hcn : c = new
    · subst hcn
      exact ⟨{ cp with committed := true }, by simp [hcp], hobs, hlt⟩
    · exact ⟨cp, (Function.update_of_ne hcn _ _).trans hcp, hobs, hlt⟩
  refine ⟨fun c cp hcp p hmem => ?_, fun p h => ?_, fun c h => ?_, by simp [MakerPc.preparing],
    by simp, fun c cp hcp => .inl ?_⟩
  · obtain ⟨cp₀, hcp₀, hts, hreach⟩ := hcps c cp hcp
    rw [hts]
    exact hm.reach c cp₀ hcp₀ p (hreach ▸ hmem)
  · rcases hlisted _ h with h | ⟨p', hp', heq⟩ | heq
    · obtain ⟨o, ho, hd⟩ := hm.page p h
      exact ⟨o, ho.trans hlast, hd.remark hcps⟩
    · obtain rfl := GcEntry.page.inj heq
      exact ⟨ts, hlts.ge, (hm.stack new ts stack hpr p hp').remark hcps⟩
    · simp at heq
  · rcases hlisted _ h with h | ⟨p', hp', heq⟩ | heq
    · obtain ⟨o, ho, hd⟩ := hm.inode c h
      exact ⟨o, ho.trans hlast, hinode c o hd⟩
    · simp at heq
    · obtain rfl := GcEntry.inode.inj heq
      exact ⟨ts, hlts.ge, hinode c ts (hm.prior new c ts stack hmk)⟩
  · obtain ⟨cp₀, hcp₀, hts, -⟩ := hcps c cp hcp
    rw [hts]
    rcases hm.others c cp₀ hcp₀ with h | ⟨ts', stack', h⟩
    · exact h.trans hlast
    · rw [hpr] at h
      obtain ⟨rfl, -, -⟩ := by simpa using h
      exact ((hprep.uncommitted hcp₀).1.trans hlts.symm).le

/-- **Every turn of the checkpoint thread keeps `Mem`.** -/
theorem Mem.maker_turn (hp : Pub s) (hm : Mem s) (ht : MakerTurn s s') : Mem s' := by
  have hlast := lastTs_le hp ht
  cases ht with
  | start hmk hc hcp _ _ hnone =>
    exact hm.start hp hmk hc hcp hnone hlast rfl rfl (fun _ h => h) rfl
  | cow hmk hcp hpg hmem _ hnone => exact hm.cow hp hlast hmk hcp hpg hmem hnone rfl
  | @cowFails new prior ts p stack cp pg hmk hcp hpg hmem hne =>
    have hprep := hp.preparing (.inl hmk)
    exact hm.prepare hlast (by rw [hmk]; rfl) (by simpa [lastTs, hmk] using hprep.lt) hcp
      (hprep.uncommitted hcp).1 (.stamp s.pages ts hmem) rfl (by simp) (fun _ h => h)
      (by simp [MakerPc.preparing]) (by simp) (.inl rfl)
  | grow hmk hcp hnone => exact hm.grow hp hlast hmk hcp hnone rfl
  | @fail new prior ts stack hmk =>
    have hprep := hp.preparing hmk
    obtain ⟨cp, hcp, hts, -⟩ := hprep.new
    have hpr : s.maker.preparing = some (new, ts, stack) := by
      rcases hmk with hmk | hmk | hmk <;> rw [hmk] <;> rfl
    refine hm.prepare hlast hpr ?_ hcp hts (.refl s.pages _ ts) rfl (by simp) (fun _ h => h)
      (by simp [MakerPc.preparing]) (by simp) (.inl rfl)
    rcases hmk with hmk | hmk | hmk <;> simpa [lastTs, hmk] using hprep.lt
  | insert hmk => exact hm.of_eq hlast rfl rfl (fun _ h => h) (by rw [hmk]; rfl) (by simp)
  | stamp hmk => exact hm.stamp hp hlast hmk rfl
  | mark hmk => exact hm.mark hp hlast hmk rfl
  | hide hmk | point hmk | reveal hmk | announce hmk =>
    exact hm.of_eq hlast rfl rfl (fun _ h => h) (by rw [hmk]; rfl) (by simp)

/-! ### Lifetimes -/

/-- The inode of the checkpoint being prepared is not listed. -/
theorem Mem.inode_ne (hm : Mem s) {c d : ℕ} {dp : Checkpoint} (h : Listed s (.inode c))
    (hdp : s.cps d = some dp) (hle : lastTs s ≤ dp.cpTs) : c ≠ d := by
  rintro rfl
  obtain ⟨o, ho, cp, hcp, -, hlt⟩ := hm.inode c h
  rw [hdp] at hcp
  obtain rfl := Option.some.inj hcp
  omega

/-- The pages of the checkpoint being prepared are not listed. -/
theorem Mem.page_ne (hm : Mem s) {p q d : ℕ} {dp : Checkpoint} (h : Listed s (.page p))
    (hdp : s.cps d = some dp) (hle : lastTs s ≤ dp.cpTs) (hq : q ∈ dp.reach) : p ≠ q := by
  rintro rfl
  obtain ⟨o, ho, -, hcps⟩ := hm.page p h
  have := hcps d dp hdp hq
  omega

/-- A page that is not there is not listed. -/
theorem Mem.page_ne_none (hm : Mem s) {p q : ℕ} (h : Listed s (.page p)) (hq : s.pages q = none) :
    p ≠ q := by
  rintro rfl
  obtain ⟨o, -, ⟨pg, hpg, -⟩, -⟩ := hm.page p h
  rw [hq] at hpg
  simp at hpg

/-- The lifetime of what is listed does not change any more. -/
theorem MakerTurn.lifetime (hp : Pub s) (hm : Mem s) (ht : MakerTurn s s') {e : GcEntry}
    (he : Listed s e) : gcEntryToLifetime s' e = gcEntryToLifetime s e := by
  have hnew : ∀ {new prior ts : ℕ} {stack : List ℕ}, s.maker = .build new prior ts stack ∨
      s.maker = .stamp new prior ts stack ∨ s.maker = .mark new prior ts stack →
      ∃ cp, s.cps new = some cp ∧ lastTs s ≤ cp.cpTs := by
    intro new prior ts stack h
    have hprep := hp.preparing h
    obtain ⟨cp, hcp, hts, -⟩ := hprep.new
    have hlast : lastTs s = ptrTs s := by rcases h with h | h | h <;> simp [lastTs, h]
    have := hprep.lt
    exact ⟨cp, hcp, by omega⟩
  cases e with
  | page p =>
    cases ht with
    | start | insert | stamp | mark | hide | point | reveal | announce | fail => rfl
    | @cow new prior ts r q stack cp pg hmk hcp hpg hmem hne hnone =>
      obtain ⟨cp', hcp', hle⟩ := hnew (.inl hmk)
      rw [hcp] at hcp'
      obtain rfl := Option.some.inj hcp'
      simp only [gcEntryToLifetime, stampPage, Function.update_of_ne (hm.page_ne_none he hnone),
        Function.update_of_ne (hm.page_ne he hcp hle hmem)]
    | @cowFails new prior ts r stack cp pg hmk hcp hpg hmem hne =>
      obtain ⟨cp', hcp', hle⟩ := hnew (.inl hmk)
      rw [hcp] at hcp'
      obtain rfl := Option.some.inj hcp'
      simp only [gcEntryToLifetime, stampPage, Function.update_of_ne (hm.page_ne he hcp hle hmem)]
    | grow _ _ hnone =>
      simp only [gcEntryToLifetime, Function.update_of_ne (hm.page_ne_none he hnone)]
  | inode c =>
    have hother : ∀ {d : ℕ} {dp : Checkpoint} (x : Option Checkpoint), s.cps d = some dp →
        lastTs s ≤ dp.cpTs → Function.update s.cps d x c = s.cps c := fun x hdp hle =>
      Function.update_of_ne (hm.inode_ne he hdp hle) _ _
    cases ht with
    | insert | hide | point | reveal | announce => rfl
    | @start new d dp hmk hd hdp hlat hne hnone =>
      have hcn : c ≠ new := by
        rintro rfl
        obtain ⟨o, -, cp, hcp, -⟩ := hm.inode c he
        rw [hnone] at hcp
        simp at hcp
      simp only [gcEntryToLifetime, Function.update_of_ne hcn]
    | cow hmk | cowFails hmk | grow hmk =>
      obtain ⟨cp, hcp, hle⟩ := hnew (.inl hmk)
      simp only [gcEntryToLifetime, hother _ hcp hle]
    | fail hmk =>
      obtain ⟨cp, hcp, hle⟩ := hnew hmk
      simp only [gcEntryToLifetime, hother _ hcp hle]
    | mark hmk =>
      obtain ⟨cp, hcp, hle⟩ := hnew (.inr (.inr hmk))
      simp only [gcEntryToLifetime, hother _ hcp hle]
    | stamp hmk =>
      obtain ⟨d, dp, hd, hdp, -⟩ := hp.ptr
      obtain rfl := Option.some.inj ((hp.preparing (.inr (.inl hmk))).prior.symm.trans hd)
      have hle : lastTs s ≤ dp.cpTs := by simp [lastTs, hmk, ptrTs_eq hd hdp]
      simp only [gcEntryToLifetime, hother _ hdp hle]

/-- A collector lists nothing new. -/
theorem GcTurn.listed {k : Collector} (ht : GcTurn s k s') {e : GcEntry} (he : Listed s' e) :
    Listed s e := by
  cases ht with
  | drain =>
    rcases he with he | ⟨g, he⟩ | he
    · simp at he
    · by_cases hg : g = invalidTs
      · subst hg
        simp only [Function.update_self] at he
        exact (List.mem_append.1 he).elim (fun h => .inr (.inl ⟨_, h⟩)) .inl
      · simp only [Function.update_of_ne hg] at he
        exact .inr (.inl ⟨g, he⟩)
    · exact .inr (.inr he)
  | @free latest start obsoleted g seen e' es _ _ hb _ _ =>
    rcases he with he | ⟨g', he⟩ | he
    · exact .inl he
    · by_cases hg : g' = g
      · subst hg
        simp only [Function.update_self] at he
        exact .inr (.inl ⟨g', by rw [hb]; exact List.mem_cons_of_mem _ he⟩)
      · simp only [Function.update_of_ne hg] at he
        exact .inr (.inl ⟨g', he⟩)
    · rcases List.mem_cons.1 he with rfl | he
      · exact .inr (.inl ⟨g, by rw [hb]; exact List.mem_cons_self⟩)
      · exact .inr (.inr he)
  | @reassign g r e' es blocked hb hblocked =>
    have hmem : ∀ g' e, e ∈ blocked g' → ∃ g, e ∈ s.gcBlockedEntries g := by
      intro g' e he
      rw [hblocked] at he
      by_cases hg : g' = r
      · subst hg
        rw [Function.update_self] at he
        rcases List.mem_cons.1 he with rfl | he
        · exact ⟨g, by rw [hb]; exact List.mem_cons_self⟩
        · exact ⟨g', he⟩
      · rw [Function.update_of_ne hg] at he
        exact ⟨g', he⟩
    rcases he with he | ⟨g', he⟩ | he
    · exact .inl he
    · by_cases hg : g' = g
      · subst hg
        simp only [Function.update_self] at he
        exact .inr (.inl (hmem _ _ (List.mem_of_mem_tail he)))
      · simp only [Function.update_of_ne hg] at he
        exact .inr (.inl (hmem _ _ he))
    · exact .inr (.inr he)
  | _ => exact he

/-! ### What is freed -/

/-- The collector frees a lifetime only if it is over and contains nothing it
has seen. -/
theorem reassignTo_eq_invalidTs {latest start : ℕ} {seen : List Ts} {obsoleted : Ts}
    (h : reassignTo latest seen start obsoleted = invalidTs) :
    obsoleted ≤ (latest : Ts) ∧ ∀ b ∈ seen, ¬tsRangeContains start obsoleted b := by
  have hfold : ∀ (seen : List Ts) (r : Ts),
      seen.foldl (fun r b => if tsRangeContains start obsoleted b then b else r) r = invalidTs →
      r = invalidTs ∧ ∀ b ∈ seen, ¬tsRangeContains start obsoleted b := by
    intro seen
    induction seen with
    | nil => exact fun r hr => ⟨hr, by simp⟩
    | cons b seen ih =>
      intro r hr
      obtain ⟨hb, hseen⟩ := ih _ hr
      have hnot : ¬tsRangeContains start obsoleted b := by
        intro hc
        simp only [hc, if_true] at hb
        simp [tsRangeContains, hb, invalidTs] at hc
      simp only [hnot] at hb
      exact ⟨hb, List.forall_mem_cons.2 ⟨hnot, hseen⟩⟩
  unfold reassignTo at h
  split_ifs at h with hlt
  · exact absurd h WithTop.coe_ne_top
  · exact ⟨not_lt.1 hlt, (hfold seen _ h).2⟩

/-- The lifetime of `e` is over, and no thread relies on a checkpoint in it. -/
def Unused (s : State ι) (e : GcEntry) : Prop :=
  ∃ start o : ℕ, gcEntryToLifetime s e = some (start, (o : Ts)) ∧ o ≤ s.published ∧
    ∀ i v, (slots s i).Holds v → ¬(start ≤ v ∧ v < o)

/-- What was unused stays unused: what threads begin to rely on is newer. -/
theorem Unused.mono (hi : Inv s) (hle : Le s s') {e : GcEntry} (h : Unused s e)
    (hev : ∀ i, Slots.Evolves s.latestTs (slots s i) (slots s' i))
    (hlife : gcEntryToLifetime s' e = gcEntryToLifetime s e) : Unused s' e := by
  obtain ⟨start, o, hl, ho, hfree⟩ := h
  refine ⟨start, o, hlife.trans hl, ho.trans hle.published, fun i v hv hin => ?_⟩
  rcases hev i v hv with ⟨hold, -⟩ | hnow
  · exact hfree i v hold hin
  · exact hi.pub.latest_not_lt ho hnow hin.2

/-- What the collector frees is unused. -/
theorem Haz.unused (hz : Haz s) {k : Collector} {latest start : ℕ} {obsoleted : Ts}
    {seen : List Ts} {e : GcEntry} (hg : s.gc k = .scan latest (.done seen))
    (hl : gcEntryToLifetime s e = some (start, obsoleted))
    (hr : reassignTo latest seen start obsoleted = invalidTs) : Unused s e := by
  obtain ⟨hle, hseen⟩ := reassignTo_eq_invalidTs hr
  obtain ⟨hpub, hcov⟩ := hz.covers k latest _ hg
  obtain ⟨o, rfl⟩ := WithTop.ne_top_iff_exists.1 (ne_top_of_le_ne_top WithTop.coe_ne_top hle)
  have ho : o ≤ latest := WithTop.coe_le_coe.1 hle
  refine ⟨start, o, hl, ho.trans hpub, fun i v hv hin => ?_⟩
  refine hseen v (hcov i v hv (hin.2.trans_le ho)) ?_
  simp only [tsRangeContains, Bool.decide_and, Bool.and_eq_true, decide_eq_true_eq]
  exact ⟨WithTop.coe_le_coe.2 hin.1, WithTop.coe_lt_coe.2 hin.2⟩

theorem Init.mem (h : Init s) : Mem s := by
  obtain ⟨-, -, -, -, -, -, -, hcps, -, hobs, hblk, hfr, hmk, -⟩ := h
  have hnot : ∀ e, ¬Listed s e := by
    rintro e (he | ⟨g, he⟩ | he)
    · simp [hobs] at he
    · simp [hblk] at he
    · simp [hfr] at he
  have hzero : ∀ c cp, s.cps c = some cp → cp = ⟨0, ⊤, [], true⟩ := by
    intro c cp hcp
    rw [hcps] at hcp
    split_ifs at hcp
    exact (Option.some.inj hcp).symm
  refine ⟨fun c cp hcp p hp => ?_, fun p h => absurd h (hnot _), fun c h => absurd h (hnot _),
    by simp [hmk, MakerPc.preparing], by simp [hmk], fun c cp hcp => .inl ?_⟩
  · obtain rfl := hzero c cp hcp
    simp at hp
  · obtain rfl := hzero c cp hcp
    exact Nat.zero_le _

section Runs

variable [DecidableEq ι]

/-- **Every turn keeps the memory in order and frees only what is unused.** -/
theorem Mem.step (hi : Inv s) (hz : Haz s) (hm : Mem s) (hun : ∀ e ∈ s.freed, Unused s e)
    {a : Act ι} (h : step s a = some s') : Mem s' ∧ ∀ e ∈ s'.freed, Unused s' e := by
  have hle := (hi.step h).2
  have hev := step_evolves hi h
  have hsame : s'.cps = s.cps → s'.pages = s.pages → s'.maker = s.maker →
      s'.latestCp = s.latestCp → (∀ e, Listed s' e → Listed s e) →
      (∀ e ∈ s'.freed, Unused s e) → Mem s' ∧ ∀ e ∈ s'.freed, Unused s' e := by
    intro hc hp hmk hl hlist hfreed
    have hlife : ∀ e, gcEntryToLifetime s' e = gcEntryToLifetime s e := by
      intro e
      cases e <;> simp only [gcEntryToLifetime, hc, hp]
    have hlast : lastTs s ≤ lastTs s' := by
      rw [lastTs, lastTs, hmk, ptrTs, ptrTs, hl, hc]
    exact ⟨hm.of_eq hlast hc hp hlist (by rw [hmk]) fun _ _ _ _ h => by rw [← hmk]; exact h,
      fun e he => (hfreed e he).mono hi hle hev (hlife e)⟩
  cases a with
  | append =>
    obtain rfl := Option.some.inj h
    exact hsame rfl rfl rfl rfl (fun _ h => h) hun
  | release =>
    simp only [Checkout.step, release] at h
    split_ifs at h
    obtain rfl := Option.some.inj h
    exact hsame rfl rfl rfl rfl (fun _ h => h) hun
  | maker a =>
    have ht := makerStep_turn h
    have hfreed : s'.freed = s.freed := by cases ht <;> rfl
    refine ⟨hm.maker_turn hi.pub ht, fun e he => ?_⟩
    rw [hfreed] at he
    exact (hun e he).mono hi hle hev (ht.lifetime hi.pub hm (.inr (.inr he)))
  | gc k a =>
    have ht := gcStep_turn h
    have hlist : ∀ e, Listed s' e → Listed s e := fun e => ht.listed
    cases ht with
    | free hk hg hb hl hr =>
      refine hsame rfl rfl rfl rfl hlist fun e he => ?_
      rcases List.mem_cons.1 he with rfl | he
      · exact hz.unused hg hl hr
      · exact hun e he
    | _ => exact hsame rfl rfl rfl rfl hlist hun
  | thread i a =>
    obtain ⟨th, reg, ht, rfl⟩ := threadStep_turn h
    exact hsame rfl rfl rfl rfl (fun _ h => h) hun

theorem reachable_mem (h : (machine ι).Reachable s) : Mem s ∧ ∀ e ∈ s.freed, Unused s e := by
  refine h.invariant (I := fun s => Mem s ∧ ∀ e ∈ s.freed, Unused s e) (fun s hs => ?_)
    fun s a s' hr hm hstep => hm.1.step (reachable_inv hr) (reachable_haz hr) hm.2 hstep
  obtain ⟨-, -, -, -, -, -, -, -, -, -, -, hfr, -⟩ := id hs
  exact ⟨hs.mem, by simp [hfr]⟩

/-- The checkpoint with inode `c` is in use: it is the latest published one, or a
thread has validated it and still reports it. -/
def InUse (s : State ι) (c : ℕ) (cp : Checkpoint) : Prop :=
  s.latestCp = some c ∨ cp.cpTs = s.published ∨ ∃ i, (slots s i).Holds cp.cpTs

/-- **Nothing in use is freed.**  In every reachable state neither the inode nor
any page of a checkpoint in use has been freed. -/
theorem inUse_not_freed (h : (machine ι).Reachable s) {c : ℕ} {cp : Checkpoint}
    (hcp : s.cps c = some cp) (huse : InUse s c cp) :
    GcEntry.inode c ∉ s.freed ∧ ∀ p ∈ cp.reach, GcEntry.page p ∉ s.freed := by
  obtain ⟨hm, hun⟩ := reachable_mem h
  have hp := (reachable_inv h).pub
  have hoverlap : ∀ start o : ℕ, start ≤ cp.cpTs → cp.cpTs < o → o ≤ s.published →
      ¬∀ i v, (slots s i).Holds v → ¬(start ≤ v ∧ v < o) := by
    intro start o hstart hlt ho hnone
    rcases huse with hc | hpub | ⟨i, hi⟩
    · have := ptrTs_eq hc hcp
      have := hp.published_le
      omega
    · omega
    · exact hnone i cp.cpTs hi ⟨hstart, hlt⟩
  constructor
  · intro hfr
    obtain ⟨start, o, hl, ho, hnone⟩ := hun _ hfr
    obtain ⟨o', -, cp', hcp', hobs, hlt⟩ := hm.inode c (.inr (.inr hfr))
    rw [hcp] at hcp'
    obtain rfl := Option.some.inj hcp'
    simp only [gcEntryToLifetime, hcp, Option.map_some, hobs, Option.some.injEq,
      Prod.mk.injEq] at hl
    obtain ⟨rfl, ho'⟩ := hl
    obtain rfl := WithTop.coe_injective ho'
    exact hoverlap _ _ le_rfl hlt ho hnone
  · intro p hmem hfr
    obtain ⟨start, o, hl, ho, hnone⟩ := hun _ hfr
    obtain ⟨o', -, ⟨pg, hpg, hobs⟩, hcps⟩ := hm.page p (.inr (.inr hfr))
    obtain ⟨pg', hpg', hle⟩ := hm.reach c cp hcp p hmem
    rw [hpg] at hpg'
    obtain rfl := Option.some.inj hpg'
    simp only [gcEntryToLifetime, hpg, Option.map_some, hobs, Option.some.injEq,
      Prod.mk.injEq] at hl
    obtain ⟨rfl, ho'⟩ := hl
    obtain rfl := WithTop.coe_injective ho'
    exact hoverlap _ _ hle (hcps c cp hcp hmem) ho hnone

end Runs

/-- A commit and a checkpoint `c` of it that differs by one page. -/
def makeCheckpoint (c : ℕ) (edit : MakerAct) : List (Act Unit) :=
  .append :: .release :: [.start c, edit, .insert, .stamp, .mark, .finish, .finish, .finish,
    .finish].map .maker

/-- `sivfs_gc_checkpoints` with one thread and three entries. -/
def collect : List (Act Unit) :=
  [.begin, .next, .next, .next, .next, .next, .sweep invalidTs, .sweep invalidTs,
    .sweep invalidTs].map (.gc .checkpoints)

/-- A thread keeps the first checkpoint while the second one, which has a copy of
its page, is published and the collector comes by. -/
def keptCheckpoint : List (Act Unit) :=
  makeCheckpoint 1 (.grow 10) ++ firstCheckout ++ makeCheckpoint 2 (.cow 10 11) ++ collect

/-- `keptCheckpoint` frees the empty checkpoint and nothing else. -/
theorem inUse_not_freed_keptCheckpoint : ∃ s, (machine Unit).Reachable s ∧
    s.freed = [.inode 0] ∧ s.latestCp = some 2 ∧ ∃ cp, s.cps 1 = some cp ∧ cp.reach = [10] ∧
      InUse s 1 cp ∧ GcEntry.inode 1 ∉ s.freed ∧ ∀ p ∈ cp.reach, GcEntry.page p ∉ s.freed := by
  have h : ((machine Unit).run (fun _ _ => true) mounted keptCheckpoint).map
      (fun s => (s.freed, s.latestCp, s.cps 1, (slots s ()).confirmed, (slots s ()).current)) =
      some ([.inode 0], some 2, some ⟨1, ((2 : ℕ) : Ts), [10], true⟩, true, ((1 : ℕ) : Ts)) := by
    decide +kernel
  obtain ⟨s, hs, h⟩ := Option.map_eq_some_iff.1 h
  simp only [Prod.mk.injEq] at h
  obtain ⟨hfreed, hlatest, hcp, hconf, hcur⟩ := h
  have hreach : (machine Unit).Reachable s :=
    Machine.ReachableWith.run (fun _ _ _ => trivial) (.init init_mounted) hs
  have huse : InUse s 1 ⟨1, ((2 : ℕ) : Ts), [10], true⟩ := .inr (.inr ⟨(), .inl ⟨hconf, hcur⟩⟩)
  exact ⟨s, hreach, hfreed, hlatest, _, hcp, rfl, huse, inUse_not_freed hreach hcp huse⟩

end Checkout
end Sivfs
