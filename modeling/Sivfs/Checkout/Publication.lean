/-
# What a successful call leaves a thread with

`SIVFS_INVALID_TS` means "nothing checked out" in a thread and "being
published" in `latest_checkpoint.ts`.  The shortcut of `my_sivfs_commit_update`
compares the two before the double read: a thread that has nothing checked out
and whose first read falls into a publication takes the sentinel for a
checkpoint it may keep, and returns `0` without one.

`usable_handle` says that this is the only way to go wrong.
-/

import Sivfs.Checkout.Machine

open TwoSlot

namespace Sivfs
namespace Checkout

variable {ι : Type*} {s s' : State ι}

/-- The timestamp of the checkpoint that `latest_checkpoint` points to. -/
def ptrTs (s : State ι) : ℕ := ((s.latestCp.bind s.cps).map Checkpoint.cpTs).getD 0

/-- The timestamp of the checkpoint that `latest.checkpoint` points to. -/
theorem ptrTs_eq {c : ℕ} {cp : Checkpoint} (hc : s.latestCp = some c) (hcp : s.cps c = some cp) :
    ptrTs s = cp.cpTs := by
  rw [ptrTs, hc]
  simp [hcp]

/-- A checkpoint is being prepared behind the published one. -/
structure Preparing (s : State ι) (new prior ts : ℕ) : Prop where
  prior : s.latestCp = some prior
  lt : ptrTs s < ts
  le : ts ≤ s.masterTs
  latest : s.latestTs = (ptrTs s : Ts)
  new : ∃ cp, s.cps new = some cp ∧ cp.cpTs = ts ∧ cp.committed = false

/-- A checkpoint is finished and not yet pointed to. -/
structure Ready (s : State ι) (new ts : ℕ) : Prop where
  lt : ptrTs s < ts
  le : ts ≤ s.masterTs
  new : ∃ cp, s.cps new = some cp ∧ cp.cpTs = ts ∧ cp.committed = true

/-- What holds while the checkpoint thread is at a program counter. -/
def Stage (s : State ι) : MakerPc → Prop
  | .idle => s.latestTs = (ptrTs s : Ts)
  | .build new prior ts _ | .stamp new prior ts _ | .mark new prior ts _ => Preparing s new prior ts
  | .finish .hide new ts => Ready s new ts ∧ s.latestTs = (ptrTs s : Ts)
  | .finish .point new ts => Ready s new ts ∧ s.latestTs = ⊤
  | .finish .reveal _ ts => ts = ptrTs s ∧ s.latestTs = ⊤
  | .finish .announce _ ts => ts = ptrTs s ∧ s.latestTs = (ts : Ts)

/-- The checkpoint thread and the variables it publishes through. -/
structure Pub (s : State ι) : Prop where
  master_le : s.masterTs ≤ s.commitStartedTs
  ptr : ∃ c cp, s.latestCp = some c ∧ s.cps c = some cp ∧ cp.committed = true
  ptrTs_le : ptrTs s ≤ s.masterTs
  published_le : s.published ≤ ptrTs s
  latest : s.latestTs = ⊤ ∨ s.latestTs = (ptrTs s : Ts)
  stage : Stage s s.maker
  committed_le : ∀ c cp, s.cps c = some cp → cp.committed = true →
    cp.cpTs ≤ ptrTs s ∨ ∃ stage, s.maker = .finish stage c cp.cpTs

/-- What never goes back: the timestamps, and the checkpoints past their point
of no return. -/
structure Le (s s' : State ι) : Prop where
  master : s.masterTs ≤ s'.masterTs
  published : s.published ≤ s'.published
  ptr : ptrTs s ≤ ptrTs s'
  cps : ∀ c cp, s.cps c = some cp → cp.committed = true →
    ∃ cp', s'.cps c = some cp' ∧ cp'.committed = true ∧ cp'.cpTs = cp.cpTs

/-- Turns of threads and collectors publish nothing. -/
theorem Le.of_eq (hm : s'.masterTs = s.masterTs) (hp : s.published ≤ s'.published)
    (hl : s'.latestCp = s.latestCp) (hc : s'.cps = s.cps) : Le s s' where
  master := hm.ge
  published := hp
  ptr := by rw [ptrTs, ptrTs, hl, hc]
  cps c cp hcp hcom := ⟨cp, by rw [hc]; exact hcp, hcom, rfl⟩

/-- The checkpoint being prepared is not the one pointed to. -/
theorem Preparing.ne (hp : Pub s) {new prior ts : ℕ} (h : Preparing s new prior ts) :
    new ≠ prior := by
  rintro rfl
  obtain ⟨c, cp, hc, hcp, hcom⟩ := hp.ptr
  obtain ⟨cp', hcp', -, hunc⟩ := h.new
  rw [h.prior] at hc
  obtain rfl := Option.some.inj hc
  rw [hcp] at hcp'
  obtain rfl := Option.some.inj hcp'
  rw [hcom] at hunc
  simp at hunc

/-- Nothing is being published, and what is past its point of no return stays there.  A
checkpoint gets there only as the next one to be published. -/
theorem Pub.keep (hp : Pub s) (hl : s'.latestCp = s.latestCp) (hm : s'.masterTs = s.masterTs)
    (hst : s'.commitStartedTs = s.commitStartedTs) (hpub : s'.published = s.published)
    (hlat : s'.latestTs = s.latestTs) (hmk : ∀ stage c ts, s.maker ≠ .finish stage c ts)
    (hkeep : ∀ c cp, s.cps c = some cp → cp.committed = true →
      ∃ cp', s'.cps c = some cp' ∧ cp'.committed = true ∧ cp'.cpTs = cp.cpTs)
    (hcom : ∀ c cp', s'.cps c = some cp' → cp'.committed = true →
      (∃ cp, s.cps c = some cp ∧ cp.committed = true ∧ cp'.cpTs = cp.cpTs) ∨
        ∃ stage, s'.maker = .finish stage c cp'.cpTs)
    (hstage : ptrTs s' = ptrTs s → Stage s' s'.maker) : Pub s' ∧ Le s s' := by
  obtain ⟨c, cp, hlc, hcp, hc⟩ := hp.ptr
  obtain ⟨cp', hcp', hc', hts⟩ := hkeep c cp hcp hc
  have hptr : ptrTs s' = ptrTs s := by
    rw [ptrTs_eq (hl.trans hlc) hcp', ptrTs_eq hlc hcp, hts]
  refine ⟨⟨by rw [hm, hst]; exact hp.master_le, ⟨c, cp', hl.trans hlc, hcp', hc'⟩,
    by rw [hptr, hm]; exact hp.ptrTs_le, by rw [hptr, hpub]; exact hp.published_le,
    by rw [hptr, hlat]; exact hp.latest, hstage hptr, fun d dp hd hdc => ?_⟩,
    ⟨hm.ge, hpub.ge, hptr.ge, hkeep⟩⟩
  refine (hcom d dp hd hdc).imp_left fun ⟨dp₀, hd₀, hdc₀, hts₀⟩ => ?_
  rw [hptr, hts₀]
  exact (hp.committed_le d dp₀ hd₀ hdc₀).resolve_right fun ⟨stage, hfin⟩ => hmk _ _ _ hfin

/-- While a checkpoint is prepared, changes to it concern nobody else. -/
theorem Pub.prepare (hp : Pub s) {new : ℕ} (x : Option Checkpoint)
    (hnew : ∀ cp, s.cps new = some cp → cp.committed = false)
    (hx : ∀ cp, x = some cp → cp.committed = false)
    (hl : s'.latestCp = s.latestCp) (hc : s'.cps = Function.update s.cps new x)
    (hm : s'.masterTs = s.masterTs) (hst : s'.commitStartedTs = s.commitStartedTs)
    (hpub : s'.published = s.published) (hlat : s'.latestTs = s.latestTs)
    (hmk : ∀ stage c ts, s.maker ≠ .finish stage c ts)
    (hstage : ptrTs s' = ptrTs s → Stage s' s'.maker) : Pub s' ∧ Le s s' := by
  refine hp.keep hl hm hst hpub hlat hmk (fun c cp hcp hcom => ?_)
    (fun c cp hcp hcom => .inl ?_) hstage
  · have hne : c ≠ new := by
      rintro rfl
      simp [hnew cp hcp] at hcom
    exact ⟨cp, by rw [hc, Function.update_of_ne hne, hcp], hcom, rfl⟩
  · have hne : c ≠ new := by
      rintro rfl
      rw [hc, Function.update_self] at hcp
      simp [hx cp hcp] at hcom
    rw [hc, Function.update_of_ne hne] at hcp
    exact ⟨cp, hcp, hcom, rfl⟩

/-- While a checkpoint is prepared nobody can take it. -/
theorem Preparing.uncommitted {new prior ts : ℕ} (h : Preparing s new prior ts) {cp : Checkpoint}
    (hcp : s.cps new = some cp) : cp.cpTs = ts ∧ cp.committed = false := by
  obtain ⟨cp', hcp', hts, hunc⟩ := h.new
  obtain rfl := Option.some.inj (hcp'.symm.trans hcp)
  exact ⟨hts, hunc⟩

/-- The checkpoint is still being prepared if only its own record has changed. -/
theorem Preparing.of_update {new prior ts : ℕ} (h : Preparing s new prior ts)
    (hl : s'.latestCp = s.latestCp) (hm : s'.masterTs = s.masterTs)
    (hlat : s'.latestTs = s.latestTs) (hptr : ptrTs s' = ptrTs s)
    (hnew : ∃ cp, s'.cps new = some cp ∧ cp.cpTs = ts ∧ cp.committed = false) :
    Preparing s' new prior ts :=
  ⟨hl.trans h.prior, by rw [hptr]; exact h.lt, h.le.trans hm.ge, by rw [hlat, hptr]; exact h.latest,
    hnew⟩

/-- The places at which the checkpoint thread prepares one. -/
theorem Pub.preparing (hp : Pub s) {new prior ts : ℕ} {stack : List ℕ}
    (h : s.maker = .build new prior ts stack ∨ s.maker = .stamp new prior ts stack ∨
      s.maker = .mark new prior ts stack) : Preparing s new prior ts := by
  have hst := hp.stage
  rcases h with h | h | h <;> rw [h] at hst <;> exact hst

/-- An attempt begins, behind the checkpoint that is published. -/
theorem Pub.start (hp : Pub s) {new c : ℕ} {cp : Checkpoint} (hm : s.maker = .idle)
    (hc : s.latestCp = some c) (hcp : s.cps c = some cp) (hlat : s.latestTs = (cp.cpTs : Ts))
    (hne : s.latestTs ≠ (s.masterTs : Ts)) (hnone : s.cps new = none)
    (hs' : s' = { s with
      cps := Function.update s.cps new (some ⟨s.masterTs, ⊤, cp.reach, false⟩)
      maker := .build new c s.masterTs [] }) : Pub s' ∧ Le s s' := by
  subst hs'
  have hlt : ptrTs s < s.masterTs := by
    refine lt_of_le_of_ne hp.ptrTs_le fun h => hne ?_
    rw [hlat, ← ptrTs_eq hc hcp, h]
  refine hp.prepare (some ⟨s.masterTs, ⊤, cp.reach, false⟩) (by simp [hnone]) ?_ rfl rfl rfl rfl
    rfl rfl (by simp [hm]) fun hptr => ?_
  · rintro _ ⟨⟩
    rfl
  · refine ⟨hc, by rw [hptr]; exact hlt, le_rfl, ?_, _, Function.update_self _ _ _, rfl, rfl⟩
    rw [hptr, ptrTs_eq hc hcp]
    exact hlat

/-- A page is added to the checkpoint being built. -/
theorem Pub.build (hp : Pub s) {new prior ts : ℕ} {stack stack' reach : List ℕ} {cp : Checkpoint}
    (hm : s.maker = .build new prior ts stack) (hcp : s.cps new = some cp)
    (hmk : s'.maker = .build new prior ts stack') (hl : s'.latestCp = s.latestCp)
    (hc : s'.cps = Function.update s.cps new (some { cp with reach := reach }))
    (hms : s'.masterTs = s.masterTs) (hst : s'.commitStartedTs = s.commitStartedTs)
    (hpub : s'.published = s.published) (hlat : s'.latestTs = s.latestTs) : Pub s' ∧ Le s s' := by
  have hprep := hp.preparing (.inl hm)
  obtain ⟨hts, hunc⟩ := hprep.uncommitted hcp
  refine hp.prepare _ (fun _ h => (hprep.uncommitted h).2) ?_ hl hc hms hst hpub hlat (by simp [hm])
    fun hptr => ?_
  · rintro _ ⟨⟩
    exact hunc
  · rw [hmk]
    exact hprep.of_update hl hms hlat hptr
      ⟨{ cp with reach := reach }, by rw [hc, Function.update_self], hts, hunc⟩

/-- An attempt is given up. -/
theorem Pub.giveUp (hp : Pub s) {new prior ts : ℕ} {stack : List ℕ}
    (hm : s.maker = .build new prior ts stack ∨ s.maker = .stamp new prior ts stack ∨
      s.maker = .mark new prior ts stack) (hmk : s'.maker = .idle) (hl : s'.latestCp = s.latestCp)
    (hc : s'.cps = Function.update s.cps new none) (hms : s'.masterTs = s.masterTs)
    (hst : s'.commitStartedTs = s.commitStartedTs) (hpub : s'.published = s.published)
    (hlat : s'.latestTs = s.latestTs) : Pub s' ∧ Le s s' := by
  have hprep := hp.preparing hm
  refine hp.prepare none (fun _ h => (hprep.uncommitted h).2) (by simp) hl hc hms hst hpub hlat ?_
    fun hptr => ?_
  · rcases hm with hm | hm | hm <;> simp [hm]
  · rw [hmk]
    exact hlat.trans (hprep.latest.trans (by rw [hptr]))

/-- The obsoletion time of the prior checkpoint is set. -/
theorem Pub.stamp (hp : Pub s) {new prior ts : ℕ} {stack : List ℕ}
    (hm : s.maker = .stamp new prior ts stack)
    (hs' : s' = { s with
      cps := Function.update s.cps prior
        ((s.cps prior).map fun cp => { cp with obsoletedTs := (ts : Ts) })
      maker := .mark new prior ts stack }) : Pub s' ∧ Le s s' := by
  subst hs'
  have hprep := hp.preparing (.inr (.inl hm))
  have hne := hprep.ne hp
  refine hp.keep rfl rfl rfl rfl rfl (by simp [hm]) (fun c cp hcp hcom => ?_)
    (fun c cp' hcp' hcom => .inl ?_) fun hptr => ?_
  · by_cases hc : c = prior
    · subst hc
      exact ⟨{ cp with obsoletedTs := (ts : Ts) }, by simp [hcp], hcom, rfl⟩
    · exact ⟨cp, (Function.update_of_ne hc _ _).trans hcp, hcom, rfl⟩
  · by_cases hc : c = prior
    · subst hc
      simp only [Function.update_self, Option.map_eq_some_iff] at hcp'
      obtain ⟨cp, hcp, rfl⟩ := hcp'
      exact ⟨cp, hcp, hcom, rfl⟩
    · exact ⟨cp', (Function.update_of_ne hc _ _).symm.trans hcp', hcom, rfl⟩
  · obtain ⟨cp, hcp, hts, hunc⟩ := hprep.new
    exact hprep.of_update rfl rfl rfl hptr
      ⟨cp, (Function.update_of_ne hne _ _).trans hcp, hts, hunc⟩

/-- The point of no return. -/
theorem Pub.mark (hp : Pub s) {new prior ts : ℕ} {stack : List ℕ}
    (hm : s.maker = .mark new prior ts stack)
    (hs' : s' = { s with
      obsoletedEntries := s.obsoletedEntries ++ stack.map .page ++ [.inode prior]
      cps := Function.update s.cps new ((s.cps new).map fun cp => { cp with committed := true })
      maker := .finish .hide new ts }) : Pub s' ∧ Le s s' := by
  subst hs'
  have hprep := hp.preparing (.inr (.inr hm))
  obtain ⟨cpn, hcpn, hts, hunc⟩ := hprep.new
  have hself : Function.update s.cps new
      ((s.cps new).map fun cp => { cp with committed := true }) new =
        some { cpn with committed := true } := by
    simp [hcpn]
  refine hp.keep rfl rfl rfl rfl rfl (by simp [hm]) (fun c cp hcp hcom => ?_)
    (fun c cp' hcp' hcom => ?_) fun hptr => ?_
  · have hne : c ≠ new := by
      rintro rfl
      simp [(hprep.uncommitted hcp).2] at hcom
    exact ⟨cp, (Function.update_of_ne hne _ _).trans hcp, hcom, rfl⟩
  · by_cases hc : c = new
    · subst hc
      obtain rfl := Option.some.inj (hself.symm.trans hcp')
      exact .inr ⟨.hide, by rw [← hts]⟩
    · exact .inl ⟨cp', (Function.update_of_ne hc _ _).symm.trans hcp', hcom, rfl⟩
  · exact ⟨⟨by rw [hptr]; exact hprep.lt, hprep.le, _, hself, hts, rfl⟩,
      by rw [hptr]; exact hprep.latest⟩

/-- `latest_checkpoint.ts` becomes the sentinel. -/
theorem Pub.hide (hp : Pub s) {new ts : ℕ} (hm : s.maker = .finish .hide new ts)
    (hs' : s' = { s with latestTs := invalidTs, maker := .finish .point new ts }) :
    Pub s' ∧ Le s s' := by
  subst hs'
  have hst := hp.stage
  rw [hm] at hst
  refine ⟨⟨hp.master_le, hp.ptr, hp.ptrTs_le, hp.published_le, .inl rfl,
    ⟨⟨hst.1.lt, hst.1.le, hst.1.new⟩, rfl⟩, fun c cp hcp hcom => ?_⟩, .of_eq rfl le_rfl rfl rfl⟩
  refine (hp.committed_le c cp hcp hcom).imp_right ?_
  rintro ⟨stage, hfin⟩
  rw [hm] at hfin
  obtain ⟨-, rfl, rfl⟩ := MakerPc.finish.inj hfin
  exact ⟨.point, rfl⟩

/-- The pointer moves to the new checkpoint. -/
theorem Pub.point (hp : Pub s) {new ts : ℕ} (hm : s.maker = .finish .point new ts)
    (hs' : s' = { s with latestCp := some new, maker := .finish .reveal new ts }) :
    Pub s' ∧ Le s s' := by
  have hst := hp.stage
  rw [hm] at hst
  obtain ⟨⟨hlt, hle, cp, hcp, hts, hcom⟩, htop⟩ := hst
  have hptr : ptrTs s' = ts := by
    rw [ptrTs_eq (s := s') (by rw [hs']) (by rw [hs']; exact hcp), hts]
  subst hs'
  refine ⟨⟨hp.master_le, ⟨new, cp, rfl, hcp, hcom⟩, hptr.trans_le hle,
    (hp.published_le.trans hlt.le).trans hptr.ge, .inl htop, ⟨hptr.symm, htop⟩,
    fun c cp' hc hcom' => .inl ?_⟩, ⟨le_rfl, le_rfl, hlt.le.trans hptr.ge, fun c cp' hc hcom' =>
      ⟨cp', hc, hcom', rfl⟩⟩⟩
  rcases hp.committed_le c cp' hc hcom' with h | ⟨stage, hfin⟩
  · exact h.trans (hlt.le.trans hptr.ge)
  · rw [hm] at hfin
    exact (MakerPc.finish.inj hfin).2.2.ge.trans hptr.ge

/-- Behind the move of the pointer nothing is past the point of no return but what is pointed
to or older. -/
theorem Pub.committed_le_of_finish (hp : Pub s) {stage : FinishStage} {new ts : ℕ}
    (hm : s.maker = .finish stage new ts) (hts : ts = ptrTs s) {c : ℕ} {cp : Checkpoint}
    (hcp : s.cps c = some cp) (hcom : cp.committed = true) : cp.cpTs ≤ ptrTs s := by
  rcases hp.committed_le c cp hcp hcom with h | ⟨stage', hfin⟩
  · exact h
  · rw [hm] at hfin
    exact (MakerPc.finish.inj hfin).2.2.ge.trans hts.le

/-- **Publication.**  Every turn of the checkpoint thread keeps `Pub`, and takes
nothing back. -/
theorem Pub.maker_turn (hp : Pub s) (ht : MakerTurn s s') : Pub s' ∧ Le s s' := by
  have hst := hp.stage
  cases ht with
  | start hm hc hcp hlat hne hnone => exact hp.start hm hc hcp hlat hne hnone rfl
  | cow hm hcp => exact hp.build hm hcp rfl rfl rfl rfl rfl rfl rfl
  | cowFails hm => exact hp.giveUp (.inl hm) rfl rfl rfl rfl rfl rfl rfl
  | grow hm hcp => exact hp.build hm hcp hm rfl rfl rfl rfl rfl rfl
  | fail hm => exact hp.giveUp hm rfl rfl rfl rfl rfl rfl rfl
  | insert hm =>
    have hprep := hp.preparing (.inl hm)
    exact hp.keep rfl rfl rfl rfl rfl (by simp [hm]) (fun c cp hcp hcom => ⟨cp, hcp, hcom, rfl⟩)
      (fun c cp hcp hcom => .inl ⟨cp, hcp, hcom, rfl⟩) fun hptr =>
        hprep.of_update rfl rfl rfl hptr hprep.new
  | stamp hm => exact hp.stamp hm rfl
  | mark hm => exact hp.mark hm rfl
  | hide hm => exact hp.hide hm rfl
  | point hm => exact hp.point hm rfl
  | @reveal new ts hm =>
    rw [hm] at hst
    exact ⟨⟨hp.master_le, hp.ptr, hp.ptrTs_le, hp.published_le, .inr (congrArg _ hst.1),
      ⟨hst.1, rfl⟩, fun c cp hcp hcom => .inl (hp.committed_le_of_finish hm hst.1 hcp hcom)⟩,
      .of_eq rfl le_rfl rfl rfl⟩
  | @announce new ts hm =>
    rw [hm] at hst
    exact ⟨⟨hp.master_le, hp.ptr, hp.ptrTs_le, hst.1.le, hp.latest,
      hst.2.trans (congrArg _ hst.1),
      fun c cp hcp hcom => .inl (hp.committed_le_of_finish hm hst.1 hcp hcom)⟩,
      .of_eq rfl (hp.published_le.trans hst.1.ge) rfl rfl⟩

/-- A turn that leaves alone what checkpoints are published through. -/
theorem Pub.of_eq (hp : Pub s) (hm : s.masterTs ≤ s'.masterTs)
    (hst : s'.masterTs ≤ s'.commitStartedTs) (hlat : s'.latestTs = s.latestTs)
    (hl : s'.latestCp = s.latestCp) (hpub : s'.published = s.published) (hc : s'.cps = s.cps)
    (hmk : s'.maker = s.maker) : Pub s' ∧ Le s s' := by
  have hptr : ptrTs s' = ptrTs s := by rw [ptrTs, ptrTs, hl, hc]
  refine ⟨⟨hst, by rw [hl, hc]; exact hp.ptr, by rw [hptr]; exact hp.ptrTs_le.trans hm,
    by rw [hpub, hptr]; exact hp.published_le, by rw [hlat, hptr]; exact hp.latest, ?_,
    by rw [hc, hptr, hmk]; exact hp.committed_le⟩, ⟨hm, hpub.ge, hptr.ge, fun c cp hcp hcom =>
      ⟨cp, by rw [hc]; exact hcp, hcom, rfl⟩⟩⟩
  have hstage := hp.stage
  rw [hmk]
  generalize s.maker = p at hstage
  cases p with
  | idle => exact hlat.trans (hstage.trans (by rw [hptr]))
  | build new prior ts stack | stamp new prior ts stack | mark new prior ts stack =>
    exact ⟨hl.trans hstage.prior, by rw [hptr]; exact hstage.lt, hstage.le.trans hm,
      by rw [hlat, hptr]; exact hstage.latest, by rw [hc]; exact hstage.new⟩
  | finish stage new ts =>
    cases stage with
    | hide | point =>
      exact ⟨⟨by rw [hptr]; exact hstage.1.lt,
        hstage.1.le.trans hm, by rw [hc]; exact hstage.1.new⟩,
        by first | rw [hlat, hptr]; exact hstage.2 | rw [hlat]; exact hstage.2⟩
    | reveal | announce => exact ⟨by rw [hptr]; exact hstage.1, hlat.trans hstage.2⟩

/-- `master_ts` goes forward to a commit that has ended. -/
theorem Pub.release (hp : Pub s) (h : release s = some s') :
    (Pub s' ∧ Le s s') ∧ s'.threads = s.threads := by
  unfold Checkout.release at h
  split_ifs at h with hlt
  obtain rfl := Option.some.inj h
  exact ⟨hp.of_eq (Nat.le_succ _) hlt rfl rfl rfl rfl rfl, rfl⟩

/-- A collector frees, and publishes nothing. -/
theorem Pub.gc_turn (hp : Pub s) {k : Collector} (h : GcTurn s k s') : Pub s' ∧ Le s s' := by
  cases h <;> exact hp.of_eq le_rfl hp.master_le rfl rfl rfl rfl rfl

/-- The checkpoint thread touches neither the threads nor the collectors. -/
theorem MakerTurn.frame (h : MakerTurn s s') :
    s'.threads = s.threads ∧ s'.registered = s.registered ∧ s'.gc = s.gc := by
  cases h <;> exact ⟨rfl, rfl, rfl⟩

/-- A collector touches neither the threads nor the other collector. -/
theorem GcTurn.frame {k : Collector} (h : GcTurn s k s') :
    s'.threads = s.threads ∧ s'.registered = s.registered ∧ ∀ k', k' ≠ k → s'.gc k' = s.gc k' := by
  cases h <;> exact ⟨rfl, rfl, fun k' hk => by first | rfl | exact Function.update_of_ne hk _ _⟩

/-! ### What a thread has checked out -/

/-- The thread has a checkpoint that it reports and may use. -/
structure Handle (s : State ι) (th : Thread) (x : ℕ) : Prop where
  cp : ∃ c cp, th.checkpoint = some c ∧ s.cps c = some cp ∧ cp.committed = true ∧ cp.cpTs = x
  current : th.slots.current = (x : Ts)
  confirmed : th.slots.confirmed = true
  le : x ≤ s.masterTs

/-- The thread has a checkpoint, or nothing checked out. -/
def Settled (s : State ι) (th : Thread) : Prop :=
  (∃ x, Handle s th x) ∨ (th.slots.current = ⊤ ∧ th.slots.confirmed = false)

/-- The pointer was read after `v`, so it points to nothing older. -/
def Ahead (s : State ι) (th : Thread) (v : Ts) : Prop :=
  ∃ c cp, th.checkpoint = some c ∧ s.cps c = some cp ∧ cp.committed = true ∧
    cp.cpTs ≤ ptrTs s ∧ ∀ x : ℕ, v = (x : Ts) → x ≤ cp.cpTs

/-- `n` is a timestamp that a snapshot on checkpoint `v` may have. -/
def Covers (s : State ι) (v : Ts) (n : ℕ) : Prop :=
  n ≤ s.masterTs ∧ ∀ x : ℕ, v = (x : Ts) → x ≤ n

/-- What a thread knows at each program counter. -/
def Knows (s : State ι) (th : Thread) : Pc → Prop
  | .idle | .readLatest | .ret false | .pauseTs | .pauseCheckpointTs => Settled s th
  | .readPtr v => ∀ x : ℕ, v = (x : Ts) → x ≤ ptrTs s
  | .publish v => Ahead s th v
  | .validate v => Ahead s th v ∧ th.slots.current = v
  | .reread => True
  | .nullCheck v | .readMaster v => Settled s th ∧ th.slots.current = v
  | .update v n => Settled s th ∧ th.slots.current = v ∧ Covers s v n
  | .advance v => Settled s th ∧ th.slots.current = v ∧ ∃ n : ℕ, th.ts = (n : Ts) ∧ Covers s v n
  | .ret true => Settled s th ∧ th.slots.prior = th.slots.current ∧
      ∃ n : ℕ, th.ts = (n : Ts) ∧ Covers s th.slots.current n
  | .pausePrior | .pausePtr => th.slots.current = ⊤ ∧ th.slots.confirmed = false

/-- A handle stays good while more is published. -/
theorem Handle.mono {th : Thread} {x : ℕ} (h : Handle s th x) (hle : Le s s') : Handle s' th x := by
  obtain ⟨⟨c, cp, hc, hcp, hcom, hts⟩, hcur, hconf, hm⟩ := h
  obtain ⟨cp', hcp', hcom', hts'⟩ := hle.cps c cp hcp hcom
  exact ⟨⟨c, cp', hc, hcp', hcom', hts'.trans hts⟩, hcur, hconf, hm.trans hle.master⟩

/-- So does a thread that is settled. -/
theorem Settled.mono {th : Thread} (h : Settled s th) (hle : Le s s') : Settled s' th :=
  h.imp_left fun ⟨x, hx⟩ => ⟨x, hx.mono hle⟩

/-- What was read from the pointer stays newer than the timestamp that was read before it. -/
theorem Ahead.mono {th : Thread} {v : Ts} (h : Ahead s th v) (hle : Le s s') : Ahead s' th v := by
  obtain ⟨c, cp, hc, hcp, hcom, hptr, hv⟩ := h
  obtain ⟨cp', hcp', hcom', hts'⟩ := hle.cps c cp hcp hcom
  exact ⟨c, cp', hc, hcp', hcom', (hts'.trans_le hptr).trans hle.ptr, fun x hx =>
    (hv x hx).trans hts'.ge⟩

/-- A timestamp that goes with a checkpoint goes on doing so. -/
theorem Covers.mono {v : Ts} {n : ℕ} (h : Covers s v n) (hle : Le s s') : Covers s' v n :=
  ⟨h.1.trans hle.master, h.2⟩

/-- What a thread knows stays true while others move on. -/
theorem Knows.mono {th : Thread} {p : Pc} (h : Knows s th p) (hle : Le s s') : Knows s' th p := by
  cases p with
  | idle | readLatest | pauseTs | pauseCheckpointTs => exact Settled.mono h hle
  | readPtr v => exact fun x hx => (h x hx).trans hle.ptr
  | publish v => exact Ahead.mono h hle
  | validate v => exact ⟨h.1.mono hle, h.2⟩
  | reread => trivial
  | nullCheck v | readMaster v => exact ⟨h.1.mono hle, h.2⟩
  | update v n => exact ⟨h.1.mono hle, h.2.1, h.2.2.mono hle⟩
  | advance v =>
    obtain ⟨hs, hcur, n, hn, hc⟩ := h
    exact ⟨hs.mono hle, hcur, n, hn, hc.mono hle⟩
  | ret ok =>
    cases ok with
    | false => exact Settled.mono h hle
    | true =>
      obtain ⟨hs, hcur, n, hn, hc⟩ := h
      exact ⟨hs.mono hle, hcur, n, hn, hc.mono hle⟩
  | pausePrior | pausePtr => exact h

/-- Being settled is about the handle and its slot. -/
theorem Settled.congr {th th' : Thread} (h : Settled s th) (hc : th'.checkpoint = th.checkpoint)
    (hs : th'.slots.current = th.slots.current)
    (hf : th'.slots.confirmed = th.slots.confirmed) : Settled s th' := by
  rcases h with ⟨x, hcp, hcur, hconf, hle⟩ | ⟨hcur, hconf⟩
  · exact .inl ⟨x, by rw [hc]; exact hcp, hs.trans hcur, hf.trans hconf, hle⟩
  · exact .inr ⟨hs.trans hcur, hf.trans hconf⟩

/-- The validated pointer points to the checkpoint of the validated timestamp:
timestamps of checkpoints only grow, and the pointer was read in between. -/
theorem Ahead.handle (hp : Pub s) {th : Thread} {x : ℕ} (h : Ahead s th (x : Ts))
    (hlat : s.latestTs = (x : Ts)) (hcur : th.slots.current = (x : Ts)) :
    Handle s { th with slots := th.slots.confirm, pc := .nullCheck (x : Ts) } x := by
  obtain ⟨c, cp, hc, hcp, hcom, hptr, hv⟩ := h
  have hx : x = ptrTs s := by
    rcases hp.latest with h | h
    · rw [hlat] at h
      exact absurd h WithTop.coe_ne_top
    · rw [hlat] at h
      exact WithTop.coe_injective h
  have := hv x rfl
  exact ⟨⟨c, cp, hc, hcp, hcom, by omega⟩, hcur, rfl, hx.trans_le hp.ptrTs_le⟩

/-- What a thread knows after its own next access. -/
theorem Knows.next (hp : Pub s) {th th' : Thread} (h : Knows s th th.pc)
    (hn : threadNext s th = some th') : Knows s th' th'.pc := by
  have hlatest : ∀ x : ℕ, s.latestTs = (x : Ts) → x = ptrTs s := by
    intro x hx
    rcases hp.latest with h | h <;> rw [hx] at h
    · exact absurd h WithTop.coe_ne_top
    · exact WithTop.coe_injective h
  unfold threadNext at hn
  rcases hpc : th.pc with
    _ | _ | v | v | v | _ | v | v | ⟨v, n⟩ | v | ok | _ | _ | _ | _ <;>
    rw [hpc] at h <;> simp only [hpc, reduceCtorEq] at hn
  case readLatest =>
    split_ifs at hn with heq <;> obtain rfl := Option.some.inj hn
    · exact ⟨h.congr rfl rfl rfl, heq⟩
    · exact fun x hx => (hlatest x hx).le
  case readPtr =>
    obtain rfl := Option.some.inj hn
    obtain ⟨c, cp, hc, hcp, hcom⟩ := hp.ptr
    refine ⟨c, cp, hc, hcp, hcom, (ptrTs_eq hc hcp).ge, fun x hx => ?_⟩
    exact (h x hx).trans (ptrTs_eq hc hcp).le
  case publish =>
    obtain rfl := Option.some.inj hn
    exact ⟨h, rfl⟩
  case validate =>
    split_ifs at hn with hv <;> obtain rfl := Option.some.inj hn
    · obtain ⟨x, rfl⟩ := WithTop.ne_top_iff_exists.1 hv.2
      exact ⟨.inl ⟨x, h.1.handle hp hv.1 h.2⟩, h.2⟩
    · trivial
  case reread =>
    obtain rfl := Option.some.inj hn
    exact fun x hx => (hlatest x hx).le
  case nullCheck =>
    split_ifs at hn with hv <;> obtain rfl := Option.some.inj hn
    · exact h.1.congr rfl rfl rfl
    · exact ⟨h.1.congr rfl rfl rfl, h.2⟩
  case readMaster =>
    obtain rfl := Option.some.inj hn
    refine ⟨h.1.congr rfl rfl rfl, h.2, le_rfl, fun x hx => ?_⟩
    rcases h.1 with ⟨y, hy⟩ | ⟨htop, -⟩
    · have : x = y := by
        rw [← h.2, hy.current] at hx
        exact (WithTop.coe_injective hx).symm
      exact this.trans_le hy.le
    · rw [← h.2, htop] at hx
      exact absurd hx.symm WithTop.coe_ne_top
  case update =>
    obtain rfl := Option.some.inj hn
    exact ⟨h.1.congr rfl rfl rfl, h.2.1, n, rfl, h.2.2⟩
  case advance =>
    obtain ⟨hs, hcur, n, hts, hcov⟩ := h
    split_ifs at hn with hv <;> obtain rfl := Option.some.inj hn
    · exact ⟨hs.congr rfl rfl rfl, rfl, n, hts, hcur ▸ hcov⟩
    · exact ⟨hs.congr rfl rfl rfl, (not_not.1 hv).trans hcur.symm, n, hts, hcur ▸ hcov⟩
  case ret =>
    obtain rfl := Option.some.inj hn
    cases ok with
    | false => exact Settled.congr h rfl rfl rfl
    | true => exact h.1.congr rfl rfl rfl
  case pauseTs =>
    obtain rfl := Option.some.inj hn
    exact Settled.congr h rfl rfl rfl
  case pauseCheckpointTs =>
    obtain rfl := Option.some.inj hn
    exact ⟨rfl, rfl⟩
  case pausePrior =>
    obtain rfl := Option.some.inj hn
    exact h
  case pausePtr =>
    obtain rfl := Option.some.inj hn
    exact .inr h

/-! ### Whole runs -/

/-- Publication goes on and threads know what they know. -/
structure Inv (s : State ι) : Prop where
  pub : Pub s
  knows : ∀ i, Knows s (s.threads i) (s.threads i).pc

/-- After mounting. -/
theorem Init.inv (h : Init s) : Inv s := by
  obtain ⟨hm, hst, -, -, hlat, hcp, hpub, hcps, -, -, -, -, hmk, -, -, -, hthr⟩ := h
  have hcp0 : s.cps 0 = some ⟨0, ⊤, [], true⟩ := by rw [hcps]; rfl
  have hptr : ptrTs s = 0 := ptrTs_eq hcp hcp0
  refine ⟨⟨by omega, ⟨0, _, hcp, hcp0, rfl⟩, by omega, by omega,
    .inr (by rw [hptr]; exact hlat), ?_, fun c cp hc _ => .inl ?_⟩, fun i => ?_⟩
  · rw [hmk]
    exact hlat.trans (by rw [hptr])
  · rw [hcps] at hc
    split_ifs at hc
    obtain rfl := Option.some.inj hc
    exact Nat.zero_le _
  · rw [hthr]
    exact .inr ⟨rfl, rfl⟩

/-- A thread past its checkout has something checked out. -/
def HasCheckpoint (th : Thread) : Prop :=
  match th.pc with
  | .readMaster _ | .update _ _ | .advance _ | .ret true | .nullCheck _ =>
    th.slots.current ≠ invalidTs
  | _ => True

/-- A turn of the call leaves a thread with the checkpoint it has, or gives it another. -/
theorem HasCheckpoint.next {th th' : Thread} (hk : Knows s th th.pc) (h : HasCheckpoint th)
    (hc : th.pc = .readLatest → ¬(th.slots.current = invalidTs ∧ s.latestTs = invalidTs))
    (hn : threadNext s th = some th') : HasCheckpoint th' := by
  unfold threadNext at hn
  unfold HasCheckpoint at h ⊢
  rcases hpc : th.pc with
    _ | _ | v | v | v | _ | v | v | ⟨v, n⟩ | v | ok | _ | _ | _ | _ <;>
    simp only [hpc, reduceCtorEq] at hn h
  case readLatest =>
    split_ifs at hn with heq <;> obtain rfl := Option.some.inj hn
    · exact fun htop => hc hpc ⟨htop, heq ▸ htop⟩
    · trivial
  case validate =>
    rw [hpc] at hk
    split_ifs at hn with hv <;> obtain rfl := Option.some.inj hn
    · exact fun htop => hv.2 (hk.2 ▸ htop)
    · trivial
  case nullCheck => split_ifs at hn <;> obtain rfl := Option.some.inj hn <;> trivial
  case advance => split_ifs at hn <;> obtain rfl := Option.some.inj hn <;> exact h
  all_goals
    obtain rfl := Option.some.inj hn
    trivial

section Runs

variable [DecidableEq ι]

/-- A turn of a thread keeps `Knows` for it. -/
theorem ThreadTurn.knows (hi : Inv s) {i : ι} {a : ThreadAct} {th : Thread} {reg : List ι}
    (h : ThreadTurn s i a th reg) : Knows s th th.pc := by
  have hk := hi.knows i
  cases h with
  | register | unregister => exact .inr ⟨rfl, rfl⟩
  | enter _ hpc hp =>
    rw [hpc] at hk
    rcases hp with rfl | rfl | rfl <;> exact Settled.congr hk rfl rfl rfl
  | next hn => exact hk.next hi.pub hn
  | updateFails hpc =>
    rw [hpc] at hk
    exact Settled.congr hk.1 rfl rfl rfl

/-- **Every turn keeps the invariant.** -/
theorem Inv.step (hi : Inv s) {a : Act ι} (h : step s a = some s') : Inv s' ∧ Le s s' := by
  have hothers : (Pub s' ∧ Le s s') → s'.threads = s.threads → Inv s' ∧ Le s s' := by
    intro ⟨hp, hle⟩ hthr
    refine ⟨⟨hp, fun i => ?_⟩, hle⟩
    rw [hthr]
    exact (hi.knows i).mono hle
  cases a with
  | append =>
    obtain rfl := Option.some.inj h
    exact hothers (hi.pub.of_eq le_rfl (hi.pub.master_le.trans (Nat.le_succ _)) rfl rfl rfl rfl rfl)
      rfl
  | release =>
    have ht := hi.pub.release h
    exact hothers ht.1 ht.2
  | maker a =>
    have ht := makerStep_turn h
    exact hothers (hi.pub.maker_turn ht) ht.frame.1
  | gc k a =>
    have ht := gcStep_turn h
    exact hothers (hi.pub.gc_turn ht) ht.frame.1
  | thread i a =>
    obtain ⟨th, reg, ht, rfl⟩ := threadStep_turn h
    set t : State ι := { s with registered := reg, threads := Function.update s.threads i th }
    obtain ⟨hp, hle⟩ : Pub t ∧ Le s t :=
      hi.pub.of_eq le_rfl hi.pub.master_le rfl rfl rfl rfl rfl
    refine ⟨⟨hp, fun j => ?_⟩, hle⟩
    by_cases hji : j = i
    · subst hji
      simp only [t, Function.update_self]
      exact (ht.knows hi).mono hle
    · simp only [t, Function.update_of_ne hji]
      exact (hi.knows j).mono hle

/-- **It holds in every state.** -/
theorem reachable_inv (h : (machine ι).Reachable s) : Inv s :=
  h.invariant (I := fun s => Inv s) (fun _ hs => Init.inv hs) fun _ _ _ _ hi hstep =>
    (hi.step hstep).1

/-- The first read of `latest_checkpoint.ts` does not find the sentinel in the
hands of a thread that has nothing checked out. -/
def NoShortcut (s : State ι) : Act ι → Prop
  | .thread i .next => (s.threads i).pc = .readLatest →
      ¬((s.threads i).slots.current = invalidTs ∧ s.latestTs = invalidTs)
  | _ => True

/-- **A successful call leaves a usable snapshot.**  In every run in which no
thread takes the shortcut on the sentinel, a thread that has just returned `0`
has a checkpoint, it reports the checkpoint's timestamp in both slots, and its
snapshot lies between the checkpoint and `master_ts`. -/
theorem usable_handle (h : (machine ι).ReachableWith NoShortcut s) (i : ι)
    (hret : (s.threads i).pc = .ret true) :
    ∃ c cp, ∃ n : ℕ, (s.threads i).checkpoint = some c ∧ s.cps c = some cp ∧
      (s.threads i).slots.current = (cp.cpTs : Ts) ∧ (s.threads i).slots.prior = (cp.cpTs : Ts) ∧
      (s.threads i).ts = (n : Ts) ∧ cp.cpTs ≤ n ∧ n ≤ s.masterTs := by
  have hhas : ∀ i, HasCheckpoint (s.threads i) := by
    refine h.invariant (I := fun s => ∀ i, HasCheckpoint (s.threads i)) ?_ ?_
    · rintro s ⟨-, -, -, -, -, -, -, -, -, -, -, -, -, -, -, -, hthr⟩ i
      rw [hthr]
      trivial
    · intro s a s' hr ih hc hstep j
      have hi := reachable_inv hr.reachable
      cases a with
      | append =>
        obtain rfl := Option.some.inj hstep
        exact ih j
      | release =>
        rw [(hi.pub.release hstep).2]
        exact ih j
      | maker a =>
        rw [(makerStep_turn hstep).frame.1]
        exact ih j
      | gc k a =>
        rw [(gcStep_turn hstep).frame.1]
        exact ih j
      | thread i a =>
        obtain ⟨th, reg, ht, rfl⟩ := threadStep_turn hstep
        by_cases hji : j = i
        · subst hji
          simp only [Function.update_self]
          cases ht with
          | register | unregister | updateFails => trivial
          | enter _ _ hp => rcases hp with rfl | rfl | rfl <;> trivial
          | next hn => exact (ih j).next (hi.knows j) hc hn
        · simp only [Function.update_of_ne hji]
          exact ih j
  have hk := (reachable_inv h.reachable).knows i
  have hc := hhas i
  rw [hret] at hk
  simp only [HasCheckpoint, hret] at hc
  obtain ⟨hs, hprior, n, hts, hcov⟩ := hk
  rcases hs with ⟨x, ⟨c, cp, hcc, hcp, -, rfl⟩, hcur, -, -⟩ | ⟨htop, -⟩
  · exact ⟨c, cp, n, hcc, hcp, hcur, hprior.trans hcur, hts, hcov.2 _ hcur, hcov.1⟩
  · exact absurd htop hc

end Runs

/-- One thread, after mounting. -/
def mounted : State Unit where
  masterTs := 0
  commitStartedTs := 0
  log := fun _ => none
  deletedTs := 0
  latestTs := ((0 : ℕ) : Ts)
  latestCp := some 0
  published := 0
  cps := fun c => if c = 0 then some ⟨0, ⊤, [], true⟩ else none
  pages := fun _ => none
  obsoletedEntries := []
  gcBlockedEntries := fun _ => []
  freed := []
  maker := .idle
  gc := fun _ => .idle
  threadsLock := none
  registered := []
  threads := fun _ => newState

/-- The first checkpoint is there when the file system is mounted. -/
theorem init_mounted : Init mounted :=
  ⟨rfl, rfl, fun _ => rfl, rfl, rfl, rfl, rfl, fun _ => rfl, fun _ => rfl, rfl, fun _ => rfl, rfl,
    rfl, fun _ => rfl, rfl, rfl, fun _ => rfl⟩

/-- A fresh thread checks out the checkpoint made at mounting. -/
def firstCheckout : List (Act Unit) :=
  .thread () .register :: .thread () .call :: .replicate 8 (.thread () .next)

/-- `NoShortcut` of a turn of the one thread. -/
def seesLatest (s : State Unit) : Act Unit → Bool
  | .thread () .next => (s.threads ()).pc = .readLatest →
      ¬((s.threads ()).slots.current = invalidTs ∧ s.latestTs = invalidTs)
  | _ => true

/-- A fresh thread reads the timestamp of the checkpoint made at mounting, and the
checkpoint of the first commit is published around its double read: the second read
finds the sentinel, the third one the new timestamp. -/
def aroundPublication : List (Act Unit) :=
  [.thread () .register, .thread () .call, .thread () .next, .append, .release,
    .maker (.start 1), .maker .insert, .maker .stamp, .maker .mark, .maker .finish] ++
  .replicate 3 (.thread () .next) ++ .replicate 3 (.maker .finish) ++
    .replicate 8 (.thread () .next)

/-- The thread of `aroundPublication` returns with the new checkpoint. -/
theorem usable_handle_aroundPublication : ∃ s, (machine Unit).ReachableWith NoShortcut s ∧
    (s.threads ()).checkpoint = some 1 ∧
    ∃ c cp, ∃ n : ℕ, (s.threads ()).checkpoint = some c ∧
      s.cps c = some cp ∧ (s.threads ()).slots.current = (cp.cpTs : Ts) ∧
      (s.threads ()).slots.prior = (cp.cpTs : Ts) ∧ (s.threads ()).ts = (n : Ts) ∧ cp.cpTs ≤ n ∧
      n ≤ s.masterTs := by
  have hrun : ((machine Unit).run seesLatest mounted aroundPublication).map
      (fun s => ((s.threads ()).pc, (s.threads ()).checkpoint)) = some (.ret true, some 1) := by
    decide
  obtain ⟨s, hs, hend⟩ := Option.map_eq_some_iff.1 hrun
  obtain ⟨hpc, hcp⟩ := Prod.mk.inj hend
  have hreach : (machine Unit).ReachableWith NoShortcut s := by
    refine Machine.ReachableWith.run (fun s a ha => ?_) (.init init_mounted) hs
    rcases a with _ | _ | a | ⟨k, a⟩ | ⟨⟨⟩, a⟩ <;> try trivial
    cases a with
    | next =>
      rw [seesLatest, decide_eq_true_eq] at ha
      exact ha
    | _ => trivial
  exact ⟨s, hreach, hcp, usable_handle hreach () hpc⟩

/-- A fresh thread comes while the checkpoint of the first commit is being
published. -/
def hiddenCheckout : List (Act Unit) :=
  [.append, .release, .maker (.start 1), .maker .insert, .maker .stamp, .maker .mark,
    .maker .finish, .thread () .register, .thread () .call] ++ .replicate 4 (.thread () .next)

/-- The thread of `hiddenCheckout` returns `0` and has no checkpoint. -/
theorem not_usable_handle_hidden : ∃ s, (machine Unit).Reachable s ∧
    (s.threads ()).pc = .ret true ∧ (s.threads ()).checkpoint = none := by
  have h : ((machine Unit).run (fun _ _ => true) mounted hiddenCheckout).map
      (fun s => ((s.threads ()).pc, (s.threads ()).checkpoint)) =
        some (.ret true, none) := by decide
  obtain ⟨s, hs, h⟩ := Option.map_eq_some_iff.1 h
  obtain ⟨hpc, hcp⟩ := Prod.mk.inj h
  exact ⟨s, Machine.ReachableWith.run (fun _ _ _ => trivial) (.init init_mounted) hs, hpc, hcp⟩

end Checkout
end Sivfs
