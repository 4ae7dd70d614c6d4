/-
# What an allocation may reuse

`last_freed_ts` defers the reuse of freed space: a chunk is granted to a transaction only
if its snapshot sees the free.  The word belongs to a chunk, so it is right as long as no
byte of the chunk was freed later than it says.

Two places lower it.  `sivfs_coalesce_with_next` leaves the timestamp of the chunk that
takes another one as it is, whatever the other one's is, and the abort of a free keeps the
flags of the word and drops the timestamp.  `Ordered` rules both out, and then
`blocks_respectFrees` says that allocation never hands out what the snapshot does not see
freed.
-/

import Sivfs.Alloc.Budget

namespace Sivfs
namespace Alloc

variable {ι : Type*} [DecidableEq ι]

/-! ### The condition -/

namespace State

variable (s : State ι) (t : ι)

/-- The timestamp that the next round of a hook passes to `_sivfs_free_block`. -/
def releaseTs : Ts :=
  match (s.thread t).phase with
  | .releasing ts => ts
  | _ => invalidTs

/-- The chunk whose free the next round of a hook undoes. -/
def toReset : Option ℕ :=
  match (s.thread t).phase with
  | .resetting => (s.thread t).allocChunksToFree.head?
  | _ => none

end State

/-- A released chunk gets a timestamp that fits below the flags, no chunk takes one that
was freed later, and a free that is undone is that of a chunk never freed before. -/
def Ordered (s : State ι) : Act ι → Prop
  | .hook t =>
    (∀ c ∈ s.released t, (s.releaseTs t = invalidTs ∨ s.releaseTs t < (tsSize : Ts)) ∧
      ∀ m ∈ s.ainfo.mergePlan c,
        (Function.update s.ainfo.chunk c ((s.ainfo.chunk c).release (s.releaseTs t))
          m.2).lastFreed.ts ≤
        (Function.update s.ainfo.chunk c ((s.ainfo.chunk c).release (s.releaseTs t))
          m.1).lastFreed.ts) ∧
    ∀ c ∈ s.toReset t, (s.ainfo.chunk c).lastFreed.ts = 0
  | _ => True

instance (s : State ι) : ∀ act, Decidable (Ordered s act)
  | .hook t => inferInstanceAs (Decidable ((∀ c ∈ s.released t,
      (s.releaseTs t = invalidTs ∨ s.releaseTs t < (tsSize : Ts)) ∧
      ∀ m ∈ s.ainfo.mergePlan c,
        (Function.update s.ainfo.chunk c ((s.ainfo.chunk c).release (s.releaseTs t))
          m.2).lastFreed.ts ≤
        (Function.update s.ainfo.chunk c ((s.ainfo.chunk c).release (s.releaseTs t))
          m.1).lastFreed.ts) ∧
      ∀ c ∈ s.toReset t, (s.ainfo.chunk c).lastFreed.ts = 0))
  | .alloc _ _ _ | .free _ _ | .commit _ _ | .abort _ | .update _ _ =>
    inferInstanceAs (Decidable True)

/-! ### The dates of chunks -/

/-- No byte of the chunk was freed after the date it carries. -/
def Chunk.Covers (freedAt : ℕ → ℕ) (c : Chunk) : Prop :=
  ∀ b, c.start ≤ b → b < c.start + c.size → freedAt b ≤ c.lastFreed.ts

/-- Every chunk carries the date of the latest free of its bytes, the wilderness was never
freed, and no date is in the future. -/
structure Dates (a : Ainfo ι) (freedAt : ℕ → ℕ) (masterTs : ℕ) : Prop where
  covers : ∀ c, a.live c = true → (a.chunk c).Covers freedAt
  wild : ∀ c, a.live c = true → (a.chunk c).size = sizeMax → ∀ b, (a.chunk c).start ≤ b →
    freedAt b = 0
  clock : ∀ c, a.live c = true → (a.chunk c).lastFreed.ts ≤ masterTs

/-- The thread has published its commit at `ts` and its hook is not done. -/
def Phase.Committed (ts : ℕ) (p : Phase) : Prop := p = .clearing ts ∨ p = .releasing ts

/-- The dates are right, and a commit is later than those of the chunks it frees. -/
structure Dated (s : State ι) : Prop where
  dates : Dates s.ainfo s.freedAt s.masterTs
  pending : ∀ t ts, (s.thread t).phase.Committed ts → ts ≤ s.masterTs ∧
    ∀ c ∈ (s.thread t).allocChunksToFree, (s.ainfo.chunk c).lastFreed.ts ≤ ts

omit [DecidableEq ι] in
/-- Chunks that are parts of the chunks there were carry the right date. -/
theorem Dates.of_parts {a a' : Ainfo ι} {freedAt : ℕ → ℕ} {masterTs : ℕ}
    (h : Dates a freedAt masterTs) (hparts : ∀ x, a'.live x = true → ∃ y, a.live y = true ∧
      (a'.chunk x).lastFreed.ts = (a.chunk y).lastFreed.ts ∧
      (a.chunk y).start ≤ (a'.chunk x).start ∧
      ((a'.chunk x).start + (a'.chunk x).size ≤ (a.chunk y).start + (a.chunk y).size ∨
        (a.chunk y).size = sizeMax) ∧
      ((a'.chunk x).size = sizeMax → (a.chunk y).size = sizeMax)) : Dates a' freedAt masterTs where
  covers := fun x hx b hlo hhi => by
    obtain ⟨y, hy, hts, hstart, hend | hmax, -⟩ := hparts x hx
    · exact hts ▸ h.covers y hy b (hstart.trans hlo) (by omega)
    · rw [h.wild y hy hmax b (hstart.trans hlo)]
      exact Nat.zero_le _
  wild := fun x hx hmax b hlo => by
    obtain ⟨y, hy, -, hstart, -, hymax⟩ := hparts x hx
    exact h.wild y hy (hymax hmax) b (hstart.trans hlo)
  clock := fun x hx => by
    obtain ⟨y, hy, hts, -⟩ := hparts x hx
    exact hts ▸ h.clock y hy

/-- Merges in which no chunk takes a later one keep the dates right. -/
theorem Merged.covers_dates {f f' : ℕ → Chunk} {cs cs' : List ℕ} {plan : List (ℕ × ℕ)}
    {freedAt : ℕ → ℕ} (h : Merged f cs plan f' cs')
    (hplan : ∀ m ∈ plan, (f m.2).lastFreed.ts ≤ (f m.1).lastFreed.ts)
    (hf : ∀ x ∈ cs, (f x).Covers freedAt) : ∀ x ∈ cs', (f' x).Covers freedAt := by
  induction h with
  | refl => exact hf
  | @step f _ l₁ l₂ _ c d plan _ hstart _ _ ih =>
    have hts : ∀ x, (Function.update f c { f c with size := (f c).size + (f d).size }
        x).lastFreed = (f x).lastFreed := by
      intro x
      by_cases hx : x = c
      · simp [hx]
      · simp [hx]
    refine ih (fun m hm => ?_) fun x hx => ?_
    · rw [hts, hts]
      exact hplan m (List.mem_cons_of_mem _ hm)
    · by_cases hxc : x = c
      · subst hxc
        rw [Function.update_self]
        intro b hlo hhi
        simp only at hlo hhi ⊢
        by_cases hb : b < (f x).start + (f x).size
        · exact hf x (by simp) b hlo hb
        · exact (hf d (by simp) b (by omega) (by omega)).trans
            (hplan (x, d) (List.mem_cons_self ..))
      · rw [Function.update_of_ne hxc]
        exact hf x (by simp at hx ⊢; tauto)

omit [DecidableEq ι] in
/-- A byte outside of the chunk that was freed keeps its date. -/
theorem State.markFreed_of_not_mem (s : State ι) {c b : ℕ} (ts : Ts)
    (hb : (s.ainfo.chunk c).start ≤ b →
    (s.ainfo.chunk c).start + (s.ainfo.chunk c).size ≤ b) : s.markFreed c ts b = s.freedAt b := by
  cases ts using WithTop.recTopCoe with
  | top => rfl
  | coe ts => exact if_neg fun h => (hb h.1).not_gt h.2

omit [DecidableEq ι] in
/-- A chunk that is released carries the date of the commit that freed it. -/
theorem State.covers_markFreed (s : State ι) {c : ℕ} {ts : Ts}
    (hc : (s.ainfo.chunk c).Covers s.freedAt) (hts : ts = invalidTs ∨ ts < (tsSize : Ts))
    (hle : ∀ n : ℕ, ts = n → (s.ainfo.chunk c).lastFreed.ts ≤ n) :
    ((s.ainfo.chunk c).release ts).Covers (s.markFreed c ts) := by
  cases ts using WithTop.recTopCoe with
  | top => exact hc
  | coe ts =>
    have hlt : ts < tsSize := by simpa [invalidTs] using hts
    intro b hlo hhi
    have hdate : ((s.ainfo.chunk c).release (WithTop.some ts)).lastFreed.ts = ts :=
      Nat.mod_eq_of_lt hlt
    rw [Chunk.release_start] at hlo hhi
    rw [Chunk.release_size] at hhi
    have hmark : s.markFreed c (WithTop.some ts) b = max (s.freedAt b) ts := if_pos ⟨hlo, hhi⟩
    rw [hdate, hmark]
    exact max_le ((hc b hlo hhi).trans (hle ts rfl)) le_rfl

omit [DecidableEq ι] in
/-- **A release keeps the dates right** if no chunk takes one that was freed later. -/
theorem Dates.release {s : State ι} {cs cs' : List ℕ} {c w : ℕ} {R R' : Head ι → List ℕ} {ts : Ts}
    {a : Ainfo ι} {plan : List (ℕ × ℕ)} (h : Dates s.ainfo s.freedAt s.masterTs)
    (hrep : Rep s.ainfo cs w R) (hc : c ∈ cs) (hrep' : Rep a cs' w R')
    (hmerged : Merged (Function.update s.ainfo.chunk c ((s.ainfo.chunk c).release ts)) cs plan
      a.chunk cs')
    (hts : ts = invalidTs ∨ ts < (tsSize : Ts))
    (hle : ∀ n : ℕ, ts = n → n ≤ s.masterTs ∧ (s.ainfo.chunk c).lastFreed.ts ≤ n)
    (hplan : ∀ m ∈ plan,
      (Function.update s.ainfo.chunk c ((s.ainfo.chunk c).release ts) m.2).lastFreed.ts ≤
      (Function.update s.ainfo.chunk c ((s.ainfo.chunk c).release ts) m.1).lastFreed.ts) :
    Dates a (s.markFreed c ts) s.masterTs := by
  have hlive : ∀ x ∈ cs ++ [w], s.ainfo.live x = true := fun x hx => (hrep.tiled.live x).2 hx
  have hwc : w ≠ c := (hrep.tiled.ne_wild hc).symm
  have hw : a.chunk w = s.ainfo.chunk w := by
    rw [hmerged.eq fun m hm => hrep.tiled.ne_wild (hmerged.mem_of_plan hm),
      Function.update_of_ne hwc]
  have hwild : ∀ b, (s.ainfo.chunk w).start ≤ b → s.markFreed c ts b = 0 := by
    intro b hb
    rw [s.markFreed_of_not_mem ts fun _ => (hrep.tiled.end_le hc).trans hb]
    exact h.wild w (hlive w (by simp)) hrep.tiled.wildSize b hb
  have hcovers : ∀ x ∈ cs, (Function.update s.ainfo.chunk c ((s.ainfo.chunk c).release ts)
      x).Covers (s.markFreed c ts) := by
    intro x hx
    by_cases hxc : x = c
    · subst hxc
      rw [Function.update_self]
      exact s.covers_markFreed (h.covers x (hlive x (by simp [hx]))) hts fun n hn => (hle n hn).2
    · rw [Function.update_of_ne hxc]
      intro b hlo hhi
      rw [s.markFreed_of_not_mem ts fun hb => by
        rcases hrep.tiled.apart (c := x) (d := c) (by simp [hx]) (by simp [hc]) hxc with ha | ha
        · omega
        · omega]
      exact h.covers x (hlive x (by simp [hx])) b hlo hhi
  have hclock : ∀ x ∈ cs ++ [w], (Function.update s.ainfo.chunk c ((s.ainfo.chunk c).release ts)
      x).lastFreed.ts ≤ s.masterTs := by
    intro x hx
    by_cases hxc : x = c
    · subst hxc
      rw [Function.update_self]
      cases ts using WithTop.recTopCoe with
      | top => exact h.clock x (hlive x hx)
      | coe ts => exact (Nat.mod_le _ _).trans (hle ts rfl).1
    · rw [Function.update_of_ne hxc]
      exact h.clock x (hlive x hx)
  have hsub := hmerged.subset
  refine ⟨fun x hx => ?_, fun x hx hmax b hb => ?_, fun x hx => ?_⟩
  · rcases List.mem_append.1 ((hrep'.tiled.live x).1 hx) with hx | hx
    · exact hmerged.covers_dates hplan hcovers x hx
    · obtain rfl : x = w := by simpa using hx
      intro b hlo _
      rw [hw] at hlo
      rw [hwild b hlo]
      exact Nat.zero_le _
  · obtain rfl := (hrep'.tiled.size_eq_sizeMax ((hrep'.tiled.live x).1 hx)).1 hmax
    exact hwild b (hw ▸ hb)
  · rw [(hmerged.keep x).1]
    refine hclock x ?_
    have := (hrep'.tiled.live x).1 hx
    simp only [List.mem_append, List.mem_singleton] at this ⊢
    exact this.imp_left (hsub ·)

namespace Dated

variable {s s' : State ι} {cs : List ℕ} {c w : ℕ} {R : Head ι → List ℕ} {t : ι}

omit [DecidableEq ι] in
/-- A step that only changes the allocator. -/
theorem setAinfo (h : Dated s) {a : Ainfo ι} {owner : ℕ → Option ι} {freedAt : ℕ → ℕ}
    (hdates : Dates a freedAt s.masterTs) (hkeep : ∀ t, ∀ c ∈ (s.thread t).allocChunksToFree,
      (a.chunk c).lastFreed.ts = (s.ainfo.chunk c).lastFreed.ts) :
    Dated { s with ainfo := a, owner := owner, freedAt := freedAt } where
  dates := hdates
  pending := fun t ts hp => ⟨(h.pending t ts hp).1, fun c hc => by
    rw [hkeep t c hc]
    exact (h.pending t ts hp).2 c hc⟩

/-- A step that only changes a thread. -/
theorem setThread (h : Dated s) {th : Thread} {masterTs : ℕ} {owner : ℕ → Option ι}
    (hle : s.masterTs ≤ masterTs) (hth : ∀ ts, th.phase.Committed ts → ts ≤ masterTs ∧
      ∀ c ∈ th.allocChunksToFree, (s.ainfo.chunk c).lastFreed.ts ≤ ts) :
    Dated { s.setThread t th with masterTs := masterTs, owner := owner } where
  dates := ⟨h.dates.covers, h.dates.wild, fun c hc => (h.dates.clock c hc).trans hle⟩
  pending := fun u ts hp => by
    by_cases hu : u = t
    · subst hu
      simpa [State.setThread] using hth ts (by simpa [State.setThread] using hp)
    · have hp' : (s.thread u).phase.Committed ts := by simpa [State.setThread, hu] using hp
      simpa [State.setThread, hu] using ⟨(h.pending u ts hp').1.trans hle, (h.pending u ts hp').2⟩

/-! ### Steps -/

theorem alloc (h : Dated s) (hi : Inv s cs w R) {size : ℕ} {mem : Memory} (hsize : pageSize ≤ size)
    (hfits : FitsAlloc s.ainfo (s.thread t).ts size)
    (hstep : Alloc.step s (.alloc t size mem) = some s') : Dated s' := by
  rw [Alloc.step] at hstep
  split_ifs at hstep with hact
  obtain ⟨a, r, halloc, hres⟩ := hi.rep.allocBlock mem t (s.thread t).ts hsize hfits
  rw [halloc, Option.map_some, Option.some.injEq] at hstep
  subst hstep
  have hlive : ∀ x ∈ cs ++ [w], s.ainfo.live x = true := fun x hx => (hi.rep.tiled.live x).2 hx
  rcases hres with ⟨e, rfl, hrep, hchunk⟩ | ⟨c, cs', w', R', rfl, hg, -⟩
  · refine h.setAinfo (h.dates.of_parts fun x hx => ⟨x, ?_, ?_⟩) fun u c _ => by rw [hchunk]
    · exact hlive x ((hrep.tiled.live x).1 hx)
    · rw [hchunk]
      exact ⟨rfl, le_rfl, .inl le_rfl, id⟩
  · obtain ⟨n, -, hn, hc⟩ := hg.chunk
    refine h.setAinfo (h.dates.of_parts fun x hx => ?_) fun u x hx => ?_
    · have hx' := (hg.rep.tiled.live x).1 hx
      by_cases hxc : x = c
      · subst hxc
        refine ⟨x, hlive x hg.mem, by rw [hc]; rfl, by rw [hc]; exact le_rfl, .inl ?_,
          fun hmax => ?_⟩
        · rw [hc]
          exact Nat.add_le_add_left hn _
        · exact absurd ((hg.rep.tiled.size_eq_sizeMax hx').1 hmax) (hg.rep.tiled.ne_wild hg.mem')
      · by_cases hold : x ∈ cs ++ [w]
        · rw [hg.keep x hold hxc]
          exact ⟨x, hlive x hold, rfl, le_rfl, .inl le_rfl, id⟩
        · obtain ⟨hts, hstart, hend⟩ := hg.rest x hx' hold
          have hcmax := hi.rep.tiled.size_eq_sizeMax hg.mem
          refine ⟨c, hlive c hg.mem, by rw [hts], hstart, ?_, fun hmax => ?_⟩
          · exact hend.symm.imp_right hcmax.2
          · by_cases hcw : c = w
            · exact hcmax.2 hcw
            · have hle := hend.resolve_left hcw
              have hcend := hi.rep.tiled.end_le (c := c) (by simpa [hcw] using hg.mem)
              have hfits := hi.rep.tiled.fits
              have hmaxdef : sizeMax + 1 = u64Size := by decide
              have hxmax : (a.chunk x).size = sizeMax := hmax
              omega
    · rw [hg.keep x (by simp [(hi.toFree u x hx).1]) fun e => ?_]
      have := hi.toFree_busy hx
      rw [e, hg.free] at this
      simp at this

/-- A free changes no date. -/
theorem free (h : Dated s) (hi : Inv s cs w R) {offset : ℕ}
    (hstep : Alloc.step s (.free t offset) = some s') : Dated s' := by
  rw [Alloc.step] at hstep
  split_ifs at hstep with hact
  obtain ⟨⟨a, r⟩, hfree, hs⟩ := Option.map_eq_some_iff.1 hstep
  obtain ⟨hrep, hres⟩ := hi.rep.freeBlock hfree
  have hlive : ∀ x, a.live x = true → s.ainfo.live x = true := fun x hx =>
    (hi.rep.tiled.live x).2 ((hrep.tiled.live x).1 hx)
  have hchunk : ∀ x, (a.chunk x).start = (s.ainfo.chunk x).start ∧
      (a.chunk x).size = (s.ainfo.chunk x).size ∧
      (a.chunk x).lastFreed.ts = (s.ainfo.chunk x).lastFreed.ts := by
    intro x
    rcases hres with ⟨-, hchunk⟩ | ⟨c, -, -, -, -, -, hchunk⟩
    · simp [hchunk]
    · by_cases hx : x = c
      · simp [hchunk, hx, Chunk.setFreeing]
      · simp [hchunk, hx]
  have ha : Dated { s with ainfo := a } := by
    refine h.setAinfo (h.dates.of_parts fun x hx => ⟨x, hlive x hx, ?_⟩) fun u c _ => (hchunk c).2.2
    obtain ⟨hstart, hsize, hts⟩ := hchunk x
    exact ⟨hts, hstart.ge, .inl (by omega), fun hmax => hsize ▸ hmax⟩
  cases r with
  | none =>
    dsimp only at hs
    subst hs
    exact ha.setThread le_rfl fun ts hp => by simp [Phase.Committed, hact] at hp
  | some c =>
    dsimp only at hs
    subst hs
    exact ha.setThread le_rfl fun ts hp => by simp [Phase.Committed, hact] at hp

/-- Nor does a commit. -/
theorem commit (h : Dated s) (hi : Inv s cs w R) {writes : Bool}
    (hstep : Alloc.step s (.commit t writes) = some s') : Dated s' := by
  by_cases hact : (s.thread t).phase = .active ∧ (s.thread t).shouldAbort = false
  case neg => simp [Alloc.step, hact] at hstep
  rw [Alloc.step, if_pos hact] at hstep
  obtain rfl := Option.some.inj hstep
  cases writes with
  | false =>
    refine h.setThread le_rfl fun ts hp => ?_
    simp [Phase.Committed, invalidTs] at hp
  | true =>
    refine h.setThread (Nat.le_succ _) fun ts hp => ?_
    have hts : (s.masterTs : Ts) + 1 = ts := by simpa [Phase.Committed] using hp
    obtain rfl : s.masterTs + 1 = ts := by exact_mod_cast hts
    refine ⟨le_rfl, fun c hc => ?_⟩
    have hlive := (hi.rep.tiled.live c).2 (by simp [(hi.toFree t c hc).1])
    exact (h.dates.clock c hlive).trans (Nat.le_succ _)

/-- Nor does an abort. -/
theorem abort (h : Dated s) (hstep : Alloc.step s (.abort t) = some s') : Dated s' := by
  rw [Alloc.step] at hstep
  split_ifs at hstep
  obtain rfl := Option.some.inj hstep
  exact h.setThread le_rfl fun ts hp => by simp [Phase.Committed] at hp

/-- Nor does a new snapshot. -/
theorem update (h : Dated s) {ts : Ts} (hstep : Alloc.step s (.update t ts) = some s') :
    Dated s' := by
  rw [Alloc.step] at hstep
  split_ifs at hstep with hact
  obtain rfl := Option.some.inj hstep
  exact h.setThread le_rfl fun ts hp => by simp [Phase.Committed, hact] at hp

/-- Nor does a chunk that is cleared. -/
theorem clear (h : Dated s) {ts : Ts} (hp : (s.thread t).phase = .clearing ts)
    (hstep : clearStep s t ts = some s') : Dated s' := by
  rw [clearStep] at hstep
  split at hstep
  · obtain ⟨L, -, rfl⟩ := Option.map_eq_some_iff.1 hstep
    exact h.setAinfo ⟨h.dates.covers, h.dates.wild, h.dates.clock⟩ fun u c _ => rfl
  · split_ifs at hstep
    obtain rfl := Option.some.inj hstep
    refine h.setThread le_rfl fun n hn => h.pending t n ?_
    simpa [Phase.Committed, hp] using hn
  · simp at hstep

/-- **A chunk that is released** has the date of the commit, which is the latest if the hook is in
order. -/
theorem release (h : Dated s) (hi : Inv s cs w R) {ts : Ts}
    (hp : (s.thread t).phase = .releasing ts)
    (hsound : Sound s (.hook t)) (hordered : Ordered s (.hook t))
    (hstep : releaseStep s t ts = some s') : Dated s' := by
  rw [releaseStep] at hstep
  split at hstep
  · obtain rfl := Option.some.inj hstep
    exact h.setThread le_rfl fun n hn => by simp [Phase.Committed] at hn
  case h_2 c rest hlist =>
    obtain ⟨a, hrel, rfl⟩ := Option.map_eq_some_iff.1 hstep
    have hc := (hi.toFree t c (by simp [hlist])).1
    have hnone := hsound c (by simp [State.toRelease, hp, hlist])
    obtain ⟨hts, hplan⟩ := hordered.1 c (by simp [State.released, hp, hlist])
    simp only [State.releaseTs, hp] at hts hplan
    obtain ⟨hdrop, hfree⟩ := hi.dropToFree hlist
    obtain ⟨cs', R', hinv, hmerged, -⟩ :=
      hdrop.put hc (hi.rep.lists.not_mem_of_next hnone) hfree hrel
      s.owner (s.markFreed c ts) fun _ _ => rfl
    have hdrop' : Dated (s.setThread t { s.thread t with allocChunksToFree := rest }) := by
      refine h.setThread le_rfl fun n hn => ?_
      obtain ⟨hle, hlate⟩ := h.pending t n hn
      exact ⟨hle, fun x hx => hlate x (by simp [hlist, hx])⟩
    refine hdrop'.setAinfo (h.dates.release hi.rep hc hinv.rep hmerged hts (fun n hn => ?_) hplan)
      fun u x hx => ?_
    · obtain ⟨hle, hlate⟩ := h.pending t n (.inr (hn ▸ hp))
      exact ⟨hle, hlate c (by simp [hlist])⟩
    · rw [(hmerged.keep x).1, Function.update_of_ne fun e : x = c => hfree u (e ▸ hx)]

/-- A chunk that is not freed after all: its timestamp is set to zero, and if the hook is in order
it was zero before. -/
theorem reset (h : Dated s) (hp : (s.thread t).phase = .resetting)
    (hordered : Ordered s (.hook t)) (hstep : resetStep s t = some s') : Dated s' := by
  rw [resetStep] at hstep
  split at hstep
  · obtain rfl := Option.some.inj hstep
    exact h.setThread le_rfl fun n hn => by simp [Phase.Committed] at hn
  case h_2 c rest hlist =>
    obtain rfl := Option.some.inj hstep
    have hzero := hordered.2 c (by simp [State.toReset, hp, hlist])
    have hdrop : Dated (s.setThread t { s.thread t with allocChunksToFree := rest }) :=
      h.setThread le_rfl fun n hn => by simp [Phase.Committed, hp] at hn
    have hchunk : ∀ x, ((s.ainfo.setChunk c (s.ainfo.chunk c).abortFree).chunk x).start =
          (s.ainfo.chunk x).start ∧
        ((s.ainfo.setChunk c (s.ainfo.chunk c).abortFree).chunk x).size = (s.ainfo.chunk x).size ∧
        ((s.ainfo.setChunk c (s.ainfo.chunk c).abortFree).chunk x).lastFreed.ts =
          (s.ainfo.chunk x).lastFreed.ts := by
      intro x
      by_cases hx : x = c
      · simp [Ainfo.setChunk, hx, Chunk.abortFree, hzero]
      · simp [Ainfo.setChunk, hx]
    refine hdrop.setAinfo (h.dates.of_parts fun x hx => ⟨x, hx, ?_⟩) fun u x _ => (hchunk x).2.2
    obtain ⟨hstart, hsize, hts⟩ := hchunk x
    exact ⟨hts, hstart.ge, .inl (by omega), fun hmax => hsize ▸ hmax⟩

/-- A chunk that is given back unused keeps the date it had. -/
theorem unroll (h : Dated s) (hi : Inv s cs w R) (hp : (s.thread t).phase = .unrolling)
    (hordered : Ordered s (.hook t)) (hstep : unrollStep s t = some s') : Dated s' := by
  have hpriv : (s.thread t).phase.Private := by simp [hp, Phase.Private]
  rw [unrollStep] at hstep
  split at hstep
  case h_1 c hnext =>
    obtain ⟨L, l, hl, hdel, hinv, hR⟩ := hi.dropHeld hnext
    rw [hdel, Option.bind_some] at hstep
    obtain ⟨a, hrel, rfl⟩ := Option.map_eq_some_iff.1 hstep
    have hmem : c ∈ R (.allocated t) := by simp [hl]
    have hfree : ∀ u, c ∉ (s.thread u).allocChunksToFree := by
      intro u hu
      obtain rfl := hi.cross t hpriv c hmem u hu
      simp [hi.unrolling t hp] at hu
    obtain ⟨-, hplan⟩ := hordered.1 c (by simp [State.released, hp, hnext])
    simp only [State.releaseTs, hp] at hplan
    have hc := (hi.rep.held t c hmem).1
    obtain ⟨cs', R', hinv', hmerged, -⟩ := hinv.put hc hR hfree hrel
      (Function.update s.owner c none) s.freedAt fun x hx => Function.update_of_ne hx _ _
    have hdrop : Dated { s with ainfo := { s.ainfo with links := L } } :=
      ⟨⟨h.dates.covers, h.dates.wild, h.dates.clock⟩, h.pending⟩
    refine hdrop.setAinfo (hdrop.dates.release hinv.rep hc hinv'.rep hmerged (.inl rfl)
      (fun n hn => ?_) ?_) fun u x hx => ?_
    · simp [invalidTs] at hn
    · rw [Ainfo.mergePlan_links]
      exact hplan
    · rw [(hmerged.keep x).1, Function.update_of_ne fun e : x = c => hfree u (e ▸ hx)]
  · split_ifs at hstep
    obtain rfl := Option.some.inj hstep
    exact h.setThread le_rfl fun n hn => by simp [Phase.Committed] at hn
  · simp at hstep

/-- **Every step keeps the dates right.** -/
theorem step (h : Dated s) (hi : Inv s cs w R) {act : Act ι} (hlaw : Lawful s act)
    (hsound : Sound s act) (hordered : Ordered s act) (hstep : Alloc.step s act = some s') :
    Dated s' := by
  cases act with
  | alloc t size mem => exact h.alloc hi hlaw hsound hstep
  | free t offset => exact h.free hi hstep
  | commit t writes => exact h.commit hi hstep
  | abort t => exact h.abort hstep
  | update t ts => exact h.update hstep
  | hook t =>
    cases hp : (s.thread t).phase with
    | active => simp [Alloc.step, hp] at hstep
    | clearing ts =>
      simp only [Alloc.step, hp] at hstep
      exact h.clear hp hstep
    | releasing ts =>
      simp only [Alloc.step, hp] at hstep
      exact h.release hi hp hsound hordered hstep
    | resetting =>
      simp only [Alloc.step, hp] at hstep
      exact h.reset hp hordered hstep
    | unrolling =>
      simp only [Alloc.step, hp] at hstep
      exact h.unroll hi hp hordered hstep

omit [DecidableEq ι] in
/-- Nothing was freed in a fresh file. -/
theorem of_init (hs : Init s) : Dated s where
  dates :=
    { covers := fun c _ b _ _ => by simp [hs.freedAt b]
      wild := fun c _ _ b _ => hs.freedAt b
      clock := fun c _ => by simp [hs.ainfo, Ainfo.recover] }
  pending := fun t ts hp => by simp [Phase.Committed, (hs.threads t).phase] at hp

end Dated

/-! ### What is granted -/

/-- A free chunk carries the date of the latest free of its bytes, and a block that is
granted from one of a known size was freed before the snapshot. -/
structure RespectsFrees (s : State ι) : Prop where
  free : ∀ c, s.ainfo.live c = true → (s.ainfo.chunk c).busy = false → ∀ b,
    (s.ainfo.chunk c).start ≤ b → b < (s.ainfo.chunk c).start + (s.ainfo.chunk c).size →
    s.freedAt b ≤ (s.ainfo.chunk c).lastFreed.ts
  alloc : ∀ t size mem, Lawful s (.alloc t size mem) → Sound s (.alloc t size mem) →
    ∀ a c, allocBlock mem t (s.thread t).ts size s.ainfo = some (a, .ok c) →
    (s.ainfo.chunk c).size ≠ sizeMax → ∀ b, (a.chunk c).start ≤ b →
    b < (a.chunk c).start + (a.chunk c).size → (s.freedAt b : Ts) ≤ (s.thread t).ts

/-- What is dated is granted only to snapshots that are late enough. -/
theorem Dated.respectsFrees {s : State ι} {cs : List ℕ} {w : ℕ} {R : Head ι → List ℕ}
    (h : Dated s) (hi : Inv s cs w R) : RespectsFrees s where
  free := fun c hlive _ b hlo hhi => h.dates.covers c hlive b hlo hhi
  alloc := fun t size mem hlaw hsound a c halloc hmax b hlo hhi => by
    obtain ⟨a', r, halloc', hres⟩ := hi.rep.allocBlock mem t (s.thread t).ts hlaw hsound
    obtain ⟨rfl, rfl⟩ := Prod.mk.inj (Option.some.inj (halloc'.symm.trans halloc))
    obtain ⟨c', cs', w', R', hcc, hg, hvis⟩ := hres.resolve_left fun ⟨_, he, _⟩ => by simp at he
    obtain rfl := Except.ok.inj hcc
    obtain ⟨n, -, hn, hc⟩ := hg.chunk
    have hvis' : ((s.ainfo.chunk c).lastFreed.ts : Ts) ≤ (s.thread t).ts := by
      have := hvis.resolve_left (mt (hi.rep.tiled.size_eq_sizeMax hg.mem).2 hmax)
      rw [Chunk.isFreeVisible, Bool.and_eq_true, decide_eq_true_eq] at this
      exact this.2
    rw [hc, Chunk.allocate_start] at hlo hhi
    rw [Chunk.allocate_size] at hhi
    have hdate := h.dates.covers c ((hi.rep.tiled.live c).2 hg.mem) b hlo
      (hhi.trans_le (Nat.add_le_add_left hn _))
    exact (WithTop.coe_le_coe.2 hdate).trans hvis'

/-- **Allocation respects the visibility of frees** in every run whose hooks never let a
chunk take one that was freed later, never undo the free of a chunk that was freed before,
and keep commit timestamps below the flags of `last_freed_ts`. -/
theorem blocks_respectFrees {s : State ι}
    (h : (machine ι).ReachableWith (fun s act => (Lawful s act ∧ Sound s act) ∧ Ordered s act) s) :
    RespectsFrees s := by
  have hdated : Dated s := by
    refine h.invariant (I := Dated) (fun s hs => Dated.of_init hs) fun s act s' hr hd hc hstep => ?_
    obtain ⟨cs, w, R, hi⟩ := Inv.of_reachable (hr.mono fun _ _ hc => hc.1)
    exact hd.step hi hc.1.1 hc.1.2 hc.2 hstep
  obtain ⟨cs, w, R, hi⟩ := Inv.of_reachable (h.mono fun _ _ hc => hc.1)
  exact hdated.respectsFrees hi

/-- A thread allocates two blocks next to each other and commits, frees the first one and
commits, and frees the second one and commits. -/
def freeBoth : List (Act Bool) :=
  freeOne 0 ++ [.hook false, .hook false, .update false 2, .free false 4096,
    .commit false true, .hook false, .hook false, .hook false]

/-- The first block is freed at `2`; the second one is allocated, and nothing is merged. -/
theorem blocks_respectFrees_freeOne : ∃ s,
    (machine Bool).ReachableWith (fun s act => (Lawful s act ∧ Sound s act) ∧ Ordered s act) s ∧
    (s.ainfo.chunk 0).lastFreed = ⟨2, false, false⟩ ∧ RespectsFrees s := by
  have h : ((machine Bool).run (fun s act => decide ((Lawful s act ∧ Sound s act) ∧ Ordered s act))
      fresh (freeOne 0 ++ [.hook false, .hook false])).map (fun s => (s.ainfo.chunk 0).lastFreed) =
      some ⟨2, false, false⟩ := by decide +kernel
  obtain ⟨s, hs, hlook⟩ := Option.map_eq_some_iff.1 h
  have hreach : (machine Bool).ReachableWith
      (fun s act => (Lawful s act ∧ Sound s act) ∧ Ordered s act) s :=
    Machine.ReachableWith.run (fun s act => of_decide_eq_true) (.init init_fresh) hs
  exact ⟨s, hreach, hlook, blocks_respectFrees hreach⟩

/-- The first block, freed at `2`, takes the second one, freed at `3`, and a transaction
with snapshot `2` is granted both. -/
theorem not_blocks_respectFrees_freeBoth : ∃ s,
    (machine Bool).ReachableWith (fun s act => Lawful s act ∧ Sound s act) s ∧
    ¬RespectsFrees s := by
  have h : ((machine Bool).run (fun s act => decide (Lawful s act ∧ Sound s act))
      fresh (freeBoth ++ [.update true 2])).map (fun s =>
        decide (Sound s (.alloc true 8192 plenty) ∧ (s.thread true).ts = 2 ∧
          (s.ainfo.chunk 0).size = 8192 ∧ s.freedAt 4096 = 3 ∧
          (allocBlock plenty true (s.thread true).ts 8192 s.ainfo).map (fun r =>
            ((r.1.chunk 0).start, (r.1.chunk 0).size, r.2.toOption)) = some (0, 8192, some 0))) =
      some true := by decide +kernel
  obtain ⟨s, hs, hlook⟩ := Option.map_eq_some_iff.1 h
  simp only [decide_eq_true_eq, Option.map_eq_some_iff, Prod.mk.injEq] at hlook
  obtain ⟨hsound, hts, hsize, hfreed, ⟨a, r⟩, halloc, hstart', hsize', hok⟩ := hlook
  obtain rfl : r = .ok 0 := by
    cases r with
    | error e => simp [Except.toOption] at hok
    | ok c => simpa [Except.toOption] using hok
  refine ⟨s, Machine.ReachableWith.run (fun s act => of_decide_eq_true) (.init init_fresh) hs,
    fun hr => ?_⟩
  have hlate := hr.alloc true 8192 plenty (show pageSize ≤ 8192 by decide) hsound a 0 halloc
    (by rw [hsize]; decide)
    4096 (by simp only at hstart'; omega) (by simp only at hstart' hsize'; omega)
  rw [hts, hfreed] at hlate
  exact absurd hlate (by decide)

end Alloc
end Sivfs
