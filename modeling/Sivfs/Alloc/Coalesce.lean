/-
# What coalescing takes

`sivfs_coalesce_with_prev` calls `sivfs_coalesce_with_next` on the chunk before, and that
function looks at the flags of the chunk behind only.  So a chunk that is released goes to
the chunk before it also if that one is allocated or freeing, as long as the budget allows.

`release_mergesFree` says when a release merges free space only: when no chunk that takes
another one is busy, which `Ainfo.mergePlan` tells from the state before.
-/

import Sivfs.Alloc.Machine

namespace Sivfs
namespace Alloc

variable {ι : Type*} [DecidableEq ι]

/-- The chunk that the next round of a hook passes to `_sivfs_free_block`. -/
def State.released (s : State ι) (t : ι) : Option ℕ :=
  match (s.thread t).phase with
  | .releasing _ => (s.thread t).allocChunksToFree.head?
  | .unrolling =>
    match s.ainfo.links.next (.head (.allocated t)) with
    | some (.item c) => some c
    | _ => none
  | _ => none

/-- Between two states of the allocator chunk `c` was released: the other busy chunks are
as they were, and every byte of `c` is in a free chunk on `bestfit_list`. -/
structure MergesFree (a a' : Ainfo ι) (c : ℕ) : Prop where
  busy : ∀ x, x ≠ c → a.live x = true → (a.chunk x).busy = true → a'.live x = true ∧
    (a'.chunk x).start = (a.chunk x).start ∧ (a'.chunk x).size = (a.chunk x).size
  bytes : ∀ b, (a.chunk c).start ≤ b → b < (a.chunk c).start + (a.chunk c).size →
    ∃ l e, a'.bestfitList = some l ∧ e ∈ l ∧ (a'.chunk e).busy = false ∧
      (a'.chunk e).start ≤ b ∧ b < (a'.chunk e).start + (a'.chunk e).size

omit [DecidableEq ι] in
/-- The plan of a release does not depend on the lists. -/
theorem Ainfo.mergePlan_links (a : Ainfo ι) (L : Links (ListNode (Head ι) ℕ)) (c : ℕ) :
    ({ a with links := L } : Ainfo ι).mergePlan c = a.mergePlan c := by
  have hahead : ∀ n c, ({ a with links := L } : Ainfo ι).ahead n c = a.ahead n c := by
    intro n
    induction n with
    | zero => exact fun _ => rfl
    | succ n ih =>
      intro c
      simp only [ahead, ih]
      rfl
  have hbehind : ∀ n c, ({ a with links := L } : Ainfo ι).behind n c = a.behind n c := by
    intro n
    induction n with
    | zero => exact fun _ => rfl
    | succ n ih =>
      intro c
      simp only [behind, ih]
      rfl
  simp only [mergePlan, hahead, hbehind]

/-- What takes a chunk is one of the chunks. -/
theorem Merged.mem_of_plan {f f' : ℕ → Chunk} {cs cs' : List ℕ} {plan : List (ℕ × ℕ)}
    (h : Merged f cs plan f' cs') {m : ℕ × ℕ} (hm : m ∈ plan) : m.1 ∈ cs := by
  induction h with
  | refl => simp at hm
  | @step f f' l₁ l₂ cs' c d plan _ _ _ _ ih =>
    rcases List.mem_cons.1 hm with rfl | hm
    · simp
    · have := ih hm
      simp only [List.mem_append, List.mem_cons] at this ⊢
      tauto

/-- **When merges take free space only.** -/
theorem mergesFree_iff {a a' : Ainfo ι} {cs cs' : List ℕ} {c w : ℕ} {R' : Head ι → List ℕ} {ts : Ts}
    {plan : List (ℕ × ℕ)} (h : Tiled a cs w) (hw : (a.chunk w).busy = false) (hc : c ∈ cs)
    (h' : Rep a' cs' w R')
    (hmerged : Merged (Function.update a.chunk c ((a.chunk c).release ts)) cs plan a'.chunk cs') :
    MergesFree a a' c ↔ ∀ m ∈ plan, m.1 ≠ c → (a.chunk m.1).busy = false := by
  constructor
  · intro hfree m hm hmc
    by_contra hb
    rw [Bool.not_eq_false] at hb
    have hgrow := hmerged.lt hm
    have hsize := (hfree.busy m.1 hmc ((h.live _).2 (by simp [hmerged.mem_of_plan hm])) hb).2.2
    rw [Function.update_of_ne hmc] at hgrow
    omega
  · intro hplan
    refine ⟨fun x hx hlive hb => ?_, fun b hlo hhi => ?_⟩
    · have hxw : x ≠ w := by
        rintro rfl
        simp [hw] at hb
      have hxcs : x ∈ cs := by simpa [hxw] using (h.live x).1 hlive
      have hfx : Function.update a.chunk c ((a.chunk c).release ts) x = a.chunk x :=
        Function.update_of_ne hx _ _
      have heq := hmerged.eq (x := x) fun m hm e => by
        have := hplan m hm (e ▸ hx)
        rw [e, hb] at this
        simp at this
      have hin := hmerged.mem_of_busy hxcs (by rw [hfx, hb])
      rw [hfx] at heq
      exact ⟨(h'.tiled.live x).2 (by simp [hin]), by rw [heq], by rw [heq]⟩
    · obtain ⟨y, hy, hstart, hend, hyc⟩ := hmerged.covers hc
      rw [Function.update_self, Chunk.release_start] at hstart hend
      rw [Chunk.release_size] at hend
      have hb : (a'.chunk y).busy = false := by
        rw [hmerged.busy y]
        by_cases hyc' : y = c
        · rw [hyc', Function.update_self, Chunk.release_busy]
        · obtain ⟨m, hm, rfl⟩ := hyc.resolve_left hyc'
          rw [Function.update_of_ne hyc', hplan m hm hyc']
      exact ⟨R' .bestfit, y, h'.bestfitList, (h'.bestfit y).2 ⟨by simp [hy], hb⟩, hb, by omega,
        by omega⟩

/-- The round of a hook that releases a chunk does the merges that are planned for it. -/
theorem Inv.released {s : State ι} {cs : List ℕ} {c w : ℕ} {R : Head ι → List ℕ} {t : ι}
    (hi : Inv s cs w R) (hsound : Sound s (.hook t)) (hc : s.released t = some c) :
    c ∈ cs ∧ ∃ ts s' cs' R', Alloc.step s (.hook t) = some s' ∧ Rep s'.ainfo cs' w R' ∧
      Merged (Function.update s.ainfo.chunk c ((s.ainfo.chunk c).release ts)) cs
        (s.ainfo.mergePlan c) s'.ainfo.chunk cs' := by
  cases hp : (s.thread t).phase with
  | active => simp [State.released, hp] at hc
  | clearing ts => simp [State.released, hp] at hc
  | resetting => simp [State.released, hp] at hc
  | releasing ts =>
    simp only [State.released, hp] at hc
    obtain ⟨rest, hlist⟩ : ∃ rest, (s.thread t).allocChunksToFree = c :: rest := by
      cases hl : (s.thread t).allocChunksToFree with
      | nil => simp [hl] at hc
      | cons x rest => exact ⟨rest, by simpa [hl] using hc⟩
    have hccs := (hi.toFree t c (by simp [hlist])).1
    have hnone := hsound c (by simp [State.toRelease, hp, hlist])
    obtain ⟨a, cs', R', hrel, hrep, hmerged, -⟩ :=
      hi.rep.releaseBlock hccs (hi.rep.lists.not_mem_of_next hnone) ts
    refine ⟨hccs, ts, _, cs', R', by
      simp only [Alloc.step, hp, releaseStep, hlist, hrel, Option.map_some]; rfl, hrep, hmerged⟩
  | unrolling =>
    cases hnext : s.ainfo.links.next (.head (.allocated t)) with
    | none => simp [State.released, hp, hnext] at hc
    | some x =>
      cases x with
      | head g => simp [State.released, hp, hnext] at hc
      | item x =>
        obtain rfl : x = c := by simpa [State.released, hp, hnext] using hc
        obtain ⟨L, l, hl, hdel, hinv, hR⟩ := hi.dropHeld hnext
        have hccs := (hi.rep.held t x (by simp [hl])).1
        obtain ⟨a, cs', R', hrel, hrep, hmerged, -⟩ := hinv.rep.releaseBlock hccs hR invalidTs
        rw [Ainfo.mergePlan_links] at hmerged
        refine ⟨hccs, invalidTs, _, cs', R', by simp only [Alloc.step, hp, unrollStep, hnext, hdel,
          Option.bind_some, hrel, Option.map_some]; rfl, hrep, hmerged⟩

/-- **A release merges free space only if no chunk that takes another one is busy.**  In
every state that the machine reaches, and for every chunk that a hook releases, the hook
does its round; the other allocated and freeing chunks keep their bytes and those of the
released chunk become available if and only if, of the chunks before it that take the
chunk behind them, none is busy. -/
theorem release_mergesFree {s : State ι}
    (h : (machine ι).ReachableWith (fun s act => Lawful s act ∧ Sound s act) s) {t : ι} {c : ℕ}
    (hsound : Sound s (.hook t)) (hc : s.released t = some c) :
    ∃ s', step s (.hook t) = some s' ∧ (MergesFree s.ainfo s'.ainfo c ↔
      ∀ m ∈ s.ainfo.mergePlan c, m.1 ≠ c → (s.ainfo.chunk m.1).busy = false) := by
  obtain ⟨cs, w, R, hi⟩ := Inv.of_reachable h
  obtain ⟨hccs, ts, s', cs', R', hstep, hrep, hmerged⟩ := hi.released hsound hc
  exact ⟨s', hstep, mergesFree_iff hi.rep.tiled hi.rep.wildFree hccs hrep hmerged⟩

/-- A thread allocates two blocks next to each other, commits, and frees one of them. -/
def freeOne (offset : ℕ) : List (Act Bool) :=
  [.alloc false 4096 plenty, .alloc false 4096 plenty, .commit false true, .hook false,
    .hook false, .hook false, .hook false, .update false 1, .free false offset,
    .commit false true, .hook false]

/-- The first block is freed, and nothing is merged. -/
theorem release_mergesFree_first : ∃ s s',
    (machine Bool).ReachableWith (fun s act => Lawful s act ∧ Sound s act) s ∧
    s.released false = some 0 ∧ step s (.hook false) = some s' ∧
    MergesFree s.ainfo s'.ainfo 0 := by
  have h : ((machine Bool).run (fun s act => decide (Lawful s act ∧ Sound s act)) fresh
      (freeOne 0)).map (fun s => (s.released false, s.ainfo.mergePlan 0,
        decide (Sound s (.hook false)))) = some (some 0, [], true) := by decide +kernel
  obtain ⟨s, hs, hlook⟩ := Option.map_eq_some_iff.1 h
  simp only [Prod.mk.injEq, decide_eq_true_eq] at hlook
  obtain ⟨hrel, hplan, hsound⟩ := hlook
  have hreach : (machine Bool).ReachableWith (fun s act => Lawful s act ∧ Sound s act) s :=
    Machine.ReachableWith.run (fun s act => of_decide_eq_true) (.init init_fresh) hs
  obtain ⟨s', hstep, hiff⟩ := release_mergesFree hreach hsound hrel
  exact ⟨s, s', hreach, hrel, hstep, hiff.2 (by simp [hplan])⟩

/-- The second block is freed, and the first one, which is allocated, takes it. -/
theorem not_release_mergesFree_second : ∃ s s' c,
    (machine Bool).ReachableWith (fun s act => Lawful s act ∧ Sound s act) s ∧
    s.released false = some c ∧ step s (.hook false) = some s' ∧
    ¬MergesFree s.ainfo s'.ainfo c := by
  have h : (((machine Bool).run (fun s act => decide (Lawful s act ∧ Sound s act)) fresh
      (freeOne 4096)).bind fun s => (step s (.hook false)).map fun s' =>
        (s.released false, s.ainfo.live 0, (s.ainfo.chunk 0).busy, (s.ainfo.chunk 0).size,
          (s'.ainfo.chunk 0).size)) = some (some 1, true, true, 4096, 8192) := by decide +kernel
  obtain ⟨s, hs, h⟩ := Option.bind_eq_some_iff.1 h
  obtain ⟨s', hstep, hlook⟩ := Option.map_eq_some_iff.1 h
  simp only [Prod.mk.injEq] at hlook
  obtain ⟨hrel, hlive, hbusy, hsize, hsize'⟩ := hlook
  refine ⟨s, s', 1,
    Machine.ReachableWith.run (fun s act => of_decide_eq_true) (.init init_fresh) hs,
    hrel, hstep, fun hm => ?_⟩
  have := (hm.busy 0 (by decide) hlive hbusy).2.2
  omega

end Alloc
end Sivfs
