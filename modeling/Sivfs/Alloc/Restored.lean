/-
# What an abort restores

`abort_restores` says what the wrong mask leaves of the promise that an abort restores the
chunks of its transaction.  A chunk that the transaction was granted and freed again loses its
timestamp, which shows unless it had none, or a merge hides it; `Joins` says that the chunks
that were merged are those of the merges that the log has.
-/

import Sivfs.Alloc.Rollback

namespace Sivfs
namespace Alloc

variable {ι : Type*} [DecidableEq ι]

/-- After the hook the chunks that were only freed have the word they had, the ones that were
granted and not merged are as they were, and the lists of the thread are empty. -/
structure Restored (g : Log) (s : State ι) (t : ι) : Prop where
  freed : ∀ c, c ∈ g.freed → c ∉ g.granted →
    (s.ainfo.chunk c).lastFreed = (g.before c).lastFreed ∧
      (s.ainfo.chunk c).lastFreed.allocated = true ∧ (s.ainfo.chunk c).lastFreed.freeing = false
  granted : ∀ c, c ∈ g.granted → s.ainfo.live c = true →
    (s.ainfo.chunk c).size = (g.before c).size → s.ainfo.chunk c = g.before c ∧
      (s.ainfo.chunk c).busy = false
  lists : (s.thread t).allocChunksToFree = [] ∧ s.ainfo.list (.allocated t) = some []

/-! ### Which chunks are merged -/

/-- A chunk that a merge takes is there before it, and not after it. -/
theorem Merged.taken {f f' : ℕ → Chunk} {cs cs' : List ℕ} {plan : List (ℕ × ℕ)}
    (h : Merged f cs plan f' cs') (hnd : cs.Nodup) {m : ℕ × ℕ} (hm : m ∈ plan) :
    m.2 ∈ cs ∧ m.2 ∉ cs' := by
  induction h with
  | refl => simp at hm
  | @step f _ l₁ l₂ _ c d _ _ _ _ hmerged ih =>
    have hsub := hmerged.subset
    rcases List.mem_cons.1 hm with rfl | hm
    · refine ⟨by simp, fun hd => ?_⟩
      have := hsub hd
      grind
    · obtain ⟨hin, hout⟩ := ih (by grind) hm
      exact ⟨by grind, hout⟩

/-- A chunk that no merge takes stays. -/
theorem Merged.mem_of_untaken {f f' : ℕ → Chunk} {cs cs' : List ℕ} {plan : List (ℕ × ℕ)}
    (h : Merged f cs plan f' cs') {x : ℕ} (hx : x ∈ cs) (hno : ∀ m ∈ plan, m.2 ≠ x) : x ∈ cs' := by
  induction h with
  | refl => exact hx
  | @step f _ l₁ l₂ _ c d _ _ _ _ _ ih =>
    have hxd : d ≠ x := hno _ (List.mem_cons_self ..)
    exact ih (by grind) fun m hm => hno m (List.mem_cons_of_mem _ hm)

omit [DecidableEq ι] in
/-- The same chunks are live. -/
theorem Rep.live_eq {a a' : Ainfo ι} {cs : List ℕ} {w : ℕ} {R R' : Head ι → List ℕ}
    (h : Rep a cs w R) (h' : Rep a' cs w R') : a'.live = a.live := by
  funext c
  rw [Bool.eq_iff_iff, h.tiled.live, h'.tiled.live]

/-- The chunks that the transaction was granted are whole unless a merge of the log has them. -/
structure Joins (g : Log) (s : State ι) (t : ι) : Prop where
  merges : (s.thread t).phase ≠ .unrolling → g.merges = []
  whole : ∀ c ∈ g.granted, g.Unmerged c →
    s.ainfo.live c = true ∧ (s.ainfo.chunk c).size = (g.before c).size
  joined : ∀ c ∈ g.granted, ¬g.Unmerged c → s.ainfo.live c = true →
    (g.before c).size < (s.ainfo.chunk c).size

namespace Joins

variable {g : Log} {s s' : State ι} {t : ι} {cs cs' : List ℕ} {w w' : ℕ} {R R' : Head ι → List ℕ}

omit [DecidableEq ι] in
/-- **A chunk that was granted is whole if and only if no merge has it.** -/
theorem unmerged_iff (h : Joins g s t) {c : ℕ} (hc : c ∈ g.granted) : g.Unmerged c ↔
    s.ainfo.live c = true ∧ (s.ainfo.chunk c).size = (g.before c).size := by
  refine ⟨h.whole c hc, fun ⟨hlive, hsize⟩ => ?_⟩
  by_contra hno
  exact absurd hsize (h.joined c hc hno hlive).ne'

omit [DecidableEq ι] in
theorem le_size (h : Joins g s t) {c : ℕ} (hc : c ∈ g.granted) (hlive : s.ainfo.live c = true) :
    (g.before c).size ≤ (s.ainfo.chunk c).size := by
  by_cases hno : g.Unmerged c
  · exact (h.whole c hc hno).2.ge
  · exact (h.joined c hc hno hlive).le

omit [DecidableEq ι] in
/-- A step that leaves the sizes of the chunks that were granted. -/
theorem congr (h : Joins g s t)
    (hphase : (s'.thread t).phase ≠ .unrolling → (s.thread t).phase ≠ .unrolling)
    (hkeep : ∀ c ∈ g.granted, s'.ainfo.live c = s.ainfo.live c ∧
      (s'.ainfo.chunk c).size = (s.ainfo.chunk c).size) : Joins g s' t where
  merges := fun hp => h.merges (hphase hp)
  whole := fun c hc hno => by
    rw [(hkeep c hc).1, (hkeep c hc).2]
    exact h.whole c hc hno
  joined := fun c hc hno hlive => by
    rw [(hkeep c hc).2]
    exact h.joined c hc hno ((hkeep c hc).1 ▸ hlive)

theorem alloc (h : Joins g s t) (hu : Undo g s t (R (.allocated t))) (hi : Inv s cs w R) {size : ℕ}
    {mem : Memory} (hsize : pageSize ≤ size) (hfits : FitsAlloc s.ainfo (s.thread t).ts size)
    (hstep : step s (.alloc t size mem) = some s') :
    Joins (g.record s (.alloc t size mem)) s' t := by
  rw [step] at hstep
  split_ifs at hstep with hact
  obtain ⟨a, r, halloc, hres⟩ := hi.rep.allocBlock mem t (s.thread t).ts hsize hfits
  rw [halloc, Option.map_some, Option.some.injEq] at hstep
  subst hstep
  rcases hres with ⟨e, rfl, hrep, hchunk⟩ | ⟨c, cs₁, w₁, R₁, rfl, hg, -⟩
  · simp only [Log.record, halloc]
    exact h.congr id fun x _ => ⟨congrFun (hi.rep.live_eq hrep) x, by rw [hchunk]⟩
  · simp only [Log.record, halloc]
    have hnil : g.merges = [] := h.merges (by simp [hact])
    have hunmerged : ∀ x, (g.grant s.ainfo a c).Unmerged x := fun x m hm => by
      simp [Log.grant, hnil] at hm
    refine ⟨fun _ => hnil, fun x hx _ => ?_, fun x _ hno => absurd (hunmerged x) hno⟩
    by_cases hxc : x = c
    · subst hxc
      exact ⟨(hg.rep.tiled.live x).2 (by simp [hg.mem']),
        by simp only [Log.grant, Function.update_self]⟩
    · have hgx : x ∈ g.granted := (List.mem_cons.1 hx).resolve_left hxc
      have hxcs := (hu.touched_mem hi hact (.inr hgx)).1
      simp only [Log.grant, Function.update_of_ne hxc]
      rw [hg.keep x (by simp [hxcs]) hxc]
      refine ⟨(hg.rep.tiled.live x).2 (by simp [hg.sub x hxcs]), (h.whole x hgx fun m hm => ?_).2⟩
      simp [hnil] at hm

theorem free (h : Joins g s t) (hi : Inv s cs w R) {offset : ℕ}
    (hstep : step s (.free t offset) = some s') : Joins (g.record s (.free t offset)) s' t := by
  rw [step] at hstep
  split_ifs at hstep with hact
  obtain ⟨⟨a, r⟩, hfree, hs⟩ := Option.map_eq_some_iff.1 hstep
  obtain ⟨hrep, hcase⟩ := hi.rep.freeBlock hfree
  have hlive := hi.rep.live_eq hrep
  obtain ⟨rfl, hchunk⟩ | ⟨c, hc, rfl, -, -, -, hchunk⟩ := hcase
  · simp only [Log.record, hfree]
    dsimp only at hs
    subst hs
    refine h.congr (fun _ => by simp [hact]) fun x _ => ⟨congrFun hlive x, ?_⟩
    simp only [hchunk]
  · simp only [Log.record, hfree]
    dsimp only at hs
    subst hs
    have hsizes : ∀ x, (a.chunk x).size = (s.ainfo.chunk x).size := by
      intro x
      rw [hchunk]
      by_cases hx : x = c
      · rw [hx, Function.update_self]
        rfl
      · rw [Function.update_of_ne hx]
    have hbefore : ∀ x ∈ g.granted, ((g.free s.ainfo c).before x).size = (g.before x).size := by
      intro x hx
      rw [Log.free]
      dsimp only
      split_ifs with hcg
      · rfl
      · rw [Function.update_of_ne fun e : x = c => hcg (e ▸ hx)]
    have h' : Joins g { s with ainfo := a } t := h.congr id fun x _ => ⟨congrFun hlive x, hsizes x⟩
    refine ⟨fun _ => h.merges (by simp [hact]), fun x hx hno => ?_, fun x hx hno hl => ?_⟩
    · rw [hbefore x hx]
      exact h'.whole x hx hno
    · rw [hbefore x hx]
      exact h'.joined x hx hno hl

omit [DecidableEq ι] in
/-- **The round of the hook that releases a chunk** joins the chunks that the plan has. -/
theorem release (h : Joins g s t) (hi : Inv s cs w R) (hp : (s'.thread t).phase = .unrolling)
    {c : ℕ} {ts : Ts} (hrep : Rep s'.ainfo cs' w R')
    (hmerged : Merged (Function.update s.ainfo.chunk c ((s.ainfo.chunk c).release ts)) cs
      (s.ainfo.mergePlan c) s'.ainfo.chunk cs') : Joins (g.release s.ainfo c) s' t := by
  have hnd := hi.rep.tiled.nodup
  have hsizes : ∀ x, (Function.update s.ainfo.chunk c ((s.ainfo.chunk c).release ts) x).size =
      (s.ainfo.chunk x).size := by
    intro x
    by_cases hx : x = c
    · rw [hx, Function.update_self, Chunk.release_size]
    · rw [Function.update_of_ne hx]
  have hlive : ∀ x, s'.ainfo.live x = true → s.ainfo.live x = true := by
    intro x hx
    have := (hrep.tiled.live x).1 hx
    rw [List.mem_append] at this
    exact (hi.rep.tiled.live x).2 (List.mem_append.2 (this.imp_left fun hx => hmerged.subset hx))
  have hsplit : ∀ x, (g.release s.ainfo c).Unmerged x ↔
      g.Unmerged x ∧ ∀ m ∈ s.ainfo.mergePlan c, m.1 ≠ x ∧ m.2 ≠ x := fun x =>
    List.forall_mem_append
  refine ⟨fun hne => absurd hp hne, fun x hx hno => ?_, fun x hx hno hl => ?_⟩
  · obtain ⟨hno, hplan⟩ := (hsplit x).1 hno
    obtain ⟨hl, hsize⟩ := h.whole x hx hno
    refine ⟨(hrep.tiled.live x).2 ?_, ?_⟩
    · have := (hi.rep.tiled.live x).1 hl
      rw [List.mem_append] at this ⊢
      exact this.imp_left fun hx => hmerged.mem_of_untaken hx fun m hm => (hplan m hm).2
    · rw [hmerged.eq fun m hm => (hplan m hm).1, hsizes]
      exact hsize
  · have hgrown := (hmerged.keep x).2.2
    rw [hsizes] at hgrown
    have hle := h.le_size hx (hlive x hl)
    by_cases hold : g.Unmerged x
    · obtain ⟨m, hm, hmx⟩ : ∃ m ∈ s.ainfo.mergePlan c, m.1 = x ∨ m.2 = x := by
        by_contra hcon
        push Not at hcon
        exact hno ((hsplit x).2 ⟨hold, hcon⟩)
      rcases hmx with rfl | rfl
      · have hlt := hmerged.lt hm
        rw [hsizes] at hlt
        exact hle.trans_lt hlt
      · -- a chunk that was taken is gone
        obtain ⟨hin, hout⟩ := hmerged.taken (by grind) hm
        have := (hrep.tiled.live _).1 hl
        grind
    · exact (h.joined x hx hold (hlive x hl)).trans_le hgrown

/-- **A step of the thread.** -/
theorem own (h : Joins g s t) (hu : Undo g s t (R (.allocated t))) (hi : Inv s cs w R) {act : Act ι}
    (ht : act.thread = t) (hno : act.isCommit = false) (hlaw : Lawful s act)
    (hsound : Sound s act) (hstep : step s act = some s')
    (hgo : (s.thread t).phase ≠ .active → (s'.thread t).phase ≠ .active) :
    Joins (g.record s act) s' t := by
  cases act with
  | alloc u size mem =>
    obtain rfl : u = t := ht
    exact h.alloc hu hi hlaw hsound hstep
  | free u offset =>
    obtain rfl : u = t := ht
    exact h.free hi hstep
  | commit u writes => simp [Act.isCommit] at hno
  | abort u =>
    obtain rfl : u = t := ht
    rw [step] at hstep
    split_ifs at hstep with hact
    obtain rfl := Option.some.inj hstep
    exact h.congr (fun _ => by simp [hact]) fun x _ => ⟨rfl, rfl⟩
  | update u ts =>
    obtain rfl : u = t := ht
    rw [step] at hstep
    split_ifs at hstep with hact
    obtain rfl := Option.some.inj hstep
    exact h.congr (fun _ => by simp [hact]) fun x _ => ⟨rfl, rfl⟩
  | hook u =>
    obtain rfl : u = t := ht
    have hpriv := hu.phase
    cases hp : (s.thread u).phase with
    | active => simp [step, hp] at hstep
    | clearing ts => simp [hp, Phase.Private] at hpriv
    | releasing ts => simp [hp, Phase.Private] at hpriv
    | resetting =>
      have hnone : s.released u = none := by simp [State.released, hp]
      simp only [Log.record, hnone]
      simp only [step, hp, resetStep] at hstep
      split at hstep
      · obtain rfl := Option.some.inj hstep
        exact h.congr (fun _ => by simp [hp]) fun x _ => ⟨rfl, rfl⟩
      case h_2 c rest _ =>
        obtain rfl := Option.some.inj hstep
        refine h.congr (fun _ => by simp [hp]) fun x _ => ⟨rfl, ?_⟩
        by_cases hx : x = c
        · subst hx
          simp [Ainfo.setChunk]
        · simp [Ainfo.setChunk, Function.update_of_ne hx]
    | unrolling =>
      have hstep' := hstep
      simp only [step, hp, unrollStep] at hstep'
      split at hstep'
      case h_1 c hnext =>
        obtain ⟨L, -, hmap⟩ := Option.bind_eq_some_iff.1 hstep'
        obtain ⟨a, -, hs⟩ := Option.map_eq_some_iff.1 hmap
        have hp' : (s'.thread u).phase = .unrolling := by rw [← hs, ← hp]
        have hrel : s.released u = some c := by simp [State.released, hp, hnext]
        obtain ⟨-, ts, s₁, cs₁, R₁, hstep₁, hrep, hmerged⟩ := hi.released hsound hrel
        obtain rfl := Option.some.inj (hstep.symm.trans hstep₁)
        simp only [Log.record, hrel]
        exact h.release hi hp' hrep hmerged
      case h_2 =>
        split_ifs at hstep'
        obtain rfl := Option.some.inj hstep'
        simp [hp, State.setPhase, State.setThread] at hgo
      case h_3 => simp at hstep'

end Joins

/-- The words and the sizes in a transaction are those that its log says. -/
theorem Txn.joins {t : ι} {g : Log} {s : State ι} (h : Txn t g s) : Joins g s t := by
  induction h with
  | start => exact ⟨fun _ => rfl, by simp [Log.empty], by simp [Log.empty]⟩
  | own act htxn ht hno hlaw hsound hstep hgo ih =>
    obtain ⟨cs, w, R, hi, hu⟩ := htxn.undo
    exact ih.own hu hi ht hno hlaw hsound hstep hgo
  | other act _ ht _ _ hstep hleaves ih =>
    refine ih.congr ?_ fun c hc => ⟨(hleaves c (.inr hc)).2, by rw [(hleaves c (.inr hc)).1]⟩
    rw [thread_of_ne hstep ht]
    exact id

/-- **An abort restores the chunks of its transaction if and only if** the transaction freed
only chunks that it was granted itself, and those of them carried no timestamp, unless a merge
that was ahead in a round of the hook has them.  The hook is at its last round. -/
theorem abort_restores {t : ι} {g : Log} {s s' : State ι} (h : Txn t g s)
    (hp : (s.thread t).phase = .unrolling) (hstep : step s (.hook t) = some s')
    (hdone : (s'.thread t).phase = .active) :
    Restored g s' t ↔ ∀ c, c ∈ g.freed → c ∈ g.granted ∧
      (g.Unmerged c → (g.before c).lastFreed.ts = 0) := by
  have hj := h.joins
  obtain ⟨cs, w, R, hi, hu⟩ := h.undo
  have hnil := hi.unrolling t hp
  simp only [step, hp, unrollStep] at hstep
  split at hstep
  case h_1 c hnext =>
    obtain ⟨L, -, hmap⟩ := Option.bind_eq_some_iff.1 hstep
    obtain ⟨a, -, rfl⟩ := Option.map_eq_some_iff.1 hmap
    simp [hp] at hdone
  case h_3 => simp at hstep
  case h_2 u hnext =>
    split_ifs at hstep with hut
    obtain rfl := Option.some.inj hstep
    have hR : R (.allocated t) = [] := by
      cases hR : R (.allocated t) with
      | nil => rfl
      | cons x l => simp [hi.rep.lists.first_cons hR] at hnext
    rw [hR] at hu
    have hfree : ∀ c, c ∈ g.freed → c ∉ g.granted →
        (s.ainfo.chunk c).lastFreed = ⟨0, true, true⟩ :=
      fun c hf hg => (hu.reset c hf (by simp [hnil])).2 (.inr hg)
    have hgrant : ∀ c, c ∈ g.granted → (s.ainfo.chunk c).lastFreed =
        ⟨if c ∈ g.freed then 0 else (g.before c).lastFreed.ts, false, false⟩ :=
      fun c hg => (hu.released c hg (by simp)).2
    constructor
    · intro hr c hf
      have hg : c ∈ g.granted := by
        by_contra hg
        have := (hr.freed c hf hg).2.2
        simp [State.setPhase, State.setThread, hfree c hf hg] at this
      refine ⟨hg, fun hno => ?_⟩
      obtain ⟨hlive, hsize⟩ := hj.whole c hg hno
      obtain ⟨heq, -⟩ := hr.granted c hg hlive hsize
      have hword : (s.ainfo.chunk c).lastFreed = (g.before c).lastFreed := congrArg _ heq
      rw [← hword, hgrant c hg, if_pos hf]
    · intro hcond
      refine ⟨fun c hf hg => ?_, fun c hg hlive hsize => ⟨?_, ?_⟩, ?_, ?_⟩
      · simp [(hcond c hf).1] at hg
      · obtain ⟨hstart, hbefore⟩ := hu.before c hg
        have hword : (s.ainfo.chunk c).lastFreed = (g.before c).lastFreed := by
          rw [hgrant c hg, hbefore]
          split_ifs with hf
          · rw [(hcond c hf).2 ((hj.unmerged_iff hg).2 ⟨hlive, hsize⟩)]
          · rfl
        have hsize' : (s.ainfo.chunk c).size = (g.before c).size := hsize
        show s.ainfo.chunk c = g.before c
        calc s.ainfo.chunk c
            = ⟨(s.ainfo.chunk c).lastFreed, (s.ainfo.chunk c).start, (s.ainfo.chunk c).size⟩ := rfl
          _ = ⟨(g.before c).lastFreed, (g.before c).start, (g.before c).size⟩ := by
              rw [hword, hstart, hsize']
          _ = g.before c := rfl
      · have := hgrant c hg
        simp [State.setPhase, State.setThread, Chunk.busy, this]
      · simpa [State.setPhase, State.setThread] using hnil
      · exact (hi.rep.list _).trans (congrArg some hR)

/-- A step of thread `t` within its transaction. -/
def ownStep (t : ι) (g : Log) (s : State ι) (act : Act ι) : Option (Log × State ι) :=
  if act.thread = t ∧ act.isCommit = false ∧ Lawful s act ∧ Sound s act then
    (step s act).bind fun s' =>
      if (s.thread t).phase ≠ .active → (s'.thread t).phase ≠ .active then
        some (g.record s act, s')
      else none
  else none

/-- Steps of thread `t` within its transaction. -/
def ownRun (t : ι) : Log → State ι → List (Act ι) → Option (Log × State ι)
  | g, s, [] => some (g, s)
  | g, s, act :: acts => (ownStep t g s act).bind fun r => ownRun t r.1 r.2 acts

theorem Txn.ownRun {t : ι} {g g' : Log} {s s' : State ι} (h : Txn t g s) {acts : List (Act ι)}
    (hrun : Alloc.ownRun t g s acts = some (g', s')) : Txn t g' s' := by
  induction acts generalizing g s with
  | nil =>
    obtain ⟨rfl, rfl⟩ := Prod.mk.inj (Option.some.inj hrun)
    exact h
  | cons act acts ih =>
    obtain ⟨⟨g₁, s₁⟩, hstep, hrun⟩ := Option.bind_eq_some_iff.1 hrun
    rw [ownStep] at hstep
    split_ifs at hstep with hc
    obtain ⟨s₂, hs, hgo⟩ := Option.bind_eq_some_iff.1 hstep
    split_ifs at hgo with hph
    obtain ⟨rfl, rfl⟩ := Prod.mk.inj (Option.some.inj hgo)
    exact ih (.own act h hc.1 hc.2.1 hc.2.2.1 hc.2.2.2 hs hph) hrun

/-- A block that is allocated, freed again and rolled back. -/
theorem abort_restores_granted : ∃ g s s',
    Txn false g s ∧ g.freed = [0] ∧ g.granted = [0] ∧
    step s (.hook false) = some s' ∧ Restored g s' false := by
  have h : ((ownRun false .empty fresh [.alloc false 4096 plenty, .free false 0, .abort false,
      .hook false, .hook false, .hook false]).bind fun r => (step r.2 (.hook false)).map fun s' =>
        (r.1.freed, r.1.granted, (r.1.before 0).lastFreed,
          decide ((r.2.thread false).phase = .unrolling),
          decide ((s'.thread false).phase = .active))) =
      some ([0], [0], ⟨0, false, false⟩, true, true) := by decide +kernel
  obtain ⟨⟨g, s⟩, hrun, h⟩ := Option.bind_eq_some_iff.1 h
  obtain ⟨s', hstep, hlook⟩ := Option.map_eq_some_iff.1 h
  simp only [Prod.mk.injEq, decide_eq_true_eq] at hlook
  obtain ⟨hfreed, hgranted, hbefore, hp, hdone⟩ := hlook
  have hstart : Txn false .empty fresh :=
    .start (.init init_fresh) ⟨rfl, rfl, rfl⟩ (by decide +kernel)
  have htxn := hstart.ownRun hrun
  refine ⟨g, s, s', htxn, hfreed, hgranted, hstep,
    (abort_restores htxn hp hstep hdone).2 fun c hf => ?_⟩
  obtain rfl : c = 0 := by simpa [hfreed] using hf
  exact ⟨by simp [hgranted], fun _ => by rw [hbefore]⟩

/-- A committed block whose free is rolled back: the chunk stays `SIVFS_CHUNK_FREEING`. -/
theorem not_abort_restores_freed : ∃ g s s',
    Txn false g s ∧ (s.thread false).phase = .unrolling ∧ step s (.hook false) = some s' ∧
    (s'.thread false).phase = .active ∧ ¬Restored g s' false := by
  have h : (((machine Bool).run (fun s act => decide (Lawful s act ∧ Sound s act)) fresh
      [.alloc false 4096 plenty, .commit false true, .hook false, .hook false, .hook false]).bind
      fun s₀ => (ownRun false .empty s₀ [.update false 1, .free false 0, .abort false,
        .hook false, .hook false]).bind fun r => (step r.2 (.hook false)).map fun s' =>
        decide (s₀.ainfo.list (.allocated false) = some [] ∧
          ((s₀.thread false).shouldAbort = false ∧
            (s₀.thread false).allocChunksToFree = [] ∧ (s₀.thread false).phase = .active) ∧
          r.1.freed = [0] ∧ r.1.granted = [] ∧ (s'.ainfo.chunk 0).lastFreed = ⟨0, true, true⟩ ∧
          (r.2.thread false).phase = .unrolling ∧ (s'.thread false).phase = .active)) =
      some true := by decide +kernel
  obtain ⟨s₀, hs₀, h⟩ := Option.bind_eq_some_iff.1 h
  obtain ⟨⟨g, s⟩, hrun, h⟩ := Option.bind_eq_some_iff.1 h
  obtain ⟨s', hstep, hlook⟩ := Option.map_eq_some_iff.1 h
  rw [decide_eq_true_eq] at hlook
  dsimp only at hlook
  obtain ⟨hlist, ⟨hdoomed, hnil, hact⟩, hfreed, hgranted, hword, hp, hdone⟩ := hlook
  have hreach : (machine Bool).ReachableWith (fun s act => Lawful s act ∧ Sound s act) s₀ :=
    Machine.ReachableWith.run (fun s act => of_decide_eq_true) (.init init_fresh) hs₀
  have htxn := (Txn.start hreach ⟨hdoomed, hnil, hact⟩ hlist).ownRun hrun
  refine ⟨g, s, s', htxn, hp, hstep, hdone, fun hr => ?_⟩
  have hown := (hr.freed 0 (by rw [hfreed]; exact List.mem_singleton_self 0)
    (by rw [hgranted]; exact List.not_mem_nil)).2.2
  simp [hword] at hown

end Alloc
end Sivfs
