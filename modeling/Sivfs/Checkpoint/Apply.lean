/-
# Applying a change to a checkpoint tree

`sivfs_apply_change_checkpoint` changes one word of one page of the checkpoint
being built and nothing in any checkpoint built before, whether it succeeds or
runs out of memory half way (`applyLoop_spec`).

The induction is on the levels that are left: each turn puts a page of this attempt in place
(`cowPage_spec`) and goes on at one of its entries (`Placed.slotOk`); at the last the word is
written to a page that only one path leads to (`Placed.write`).
-/

import Sivfs.Checkpoint.CowPage

open PathCopy

namespace Sivfs
namespace Checkpoint

/-! ### The loop -/

section Grafts

variable {n₀ ts level : ℕ} {past : ℕ → Prop} {label : Ref → List ℕ} {b b' : Build}
  {slot : Slot} {π : List ℕ} {m : PageMem}

theorem applyWsEnt_put {r : Ref} (hne : ∀ k, slot ≠ .ent r k) (b : Build) (ent : WsEntry) :
    (b.applyWsEnt r ent).put slot r = (b.put slot r).applyWsEnt r ent := by
  cases r with
  | zero => rfl
  | page id =>
    cases slot with
    | root => rfl
    | ent t o =>
      cases t with
      | zero => rfl
      | page tid =>
        have hid : tid ≠ id := by
          rintro rfl
          exact hne o rfl
        simp only [Build.put, Build.applyWsEnt, Heap.modify, Function.update_of_ne hid,
          Function.update_of_ne hid.symm]
        rw [Function.update_comm hid]

/-- A leaf has no entries, before or after a word is written to it. -/
theorem Placed.write_child {r : Ref} (hp : Placed n₀ ts past 0 label π slot b b' r)
    (ent : WsEntry) : (b'.applyWsEnt r ent).heap.child = b'.heap.child := by
  obtain ⟨id, rfl, -, -, hl⟩ := hp.page
  have hleaf : ∀ k, b'.heap.child (.page id) k = none := by
    intro k
    cases hc : b'.heap.child (.page id) k with
    | none => rfl
    | some c =>
      have := hp.building.ok.level _ k c hc
      have hl' : b'.heap.level (.page id) = 0 := hl
      omega
  funext r k
  show ((b'.heap.modify id (.setWord ent)).mem r).ents k = _
  rw [modify_mem]
  split_ifs with h
  · rw [h, hleaf k]
    rfl
  · rfl

/-- **The word is written** at the end of `π` and nowhere else. -/
theorem Placed.write {r : Ref} (hp : Placed n₀ ts past 0 label π slot b b' r) (ent : WsEntry) :
    Building n₀ ts past label (b'.applyWsEnt r ent) ∧
      (∀ ρ, (b'.applyWsEnt r ent).heap.contents (b'.applyWsEnt r ent).root ρ =
        if ρ = π then applyWsEntPg (b.heap.contents b.root ρ) ent else b.heap.contents b.root ρ) ∧
      Frozen n₀ b.heap (b'.applyWsEnt r ent).heap := by
  have ha := hp.building
  have hchild := hp.write_child ent
  obtain ⟨id, rfl, hid, hlt, hl⟩ := hp.page
  set b₂ := b'.applyWsEnt (.page id) ent with hb₂
  have hmem : ∀ r, b₂.heap.mem r = if r = .page id then ((b'.heap.page id).setWord ent).mem
      else b'.heap.mem r := modify_mem b'.heap id (.setWord ent)
  have hlevel : ∀ r, b₂.heap.level r = b'.heap.level r :=
    modify_level b'.heap id (.setWord ent) rfl
  have hts : ∀ r, b₂.heap.checkpointTs r = b'.heap.checkpointTs r :=
    modify_checkpointTs b'.heap id (.setWord ent) rfl
  have hwords : ∀ r, b₂.heap.words r =
      if r = .page id then applyWsEntPg (b'.heap.words r) ent else b'.heap.words r := by
    intro r
    rw [Heap.words, hmem]
    split_ifs with h
    · rw [h]
      rfl
    · rfl
  have hok : HeapWf b₂.heap := by
    refine ⟨by rw [hchild]; exact ha.ok.fresh, by rw [hchild]; exact ha.ok.bound, fun r hr => ?_,
      fun r k c hc => ?_⟩
    · rw [hlevel] at hr
      have hne : r ≠ .page id := by
        rintro rfl
        have hl' : b'.heap.level (.page id) = 0 := hl
        omega
      rw [hwords, if_neg hne]
      exact ha.ok.words r hr
    · rw [hchild] at hc
      rw [hlevel, hlevel]
      exact ha.ok.level r k c hc
  refine ⟨⟨hok, ha.le, fun j hj hjlt => (hts (.page j)).trans (ha.own_ts j hj hjlt), ?_, ?_, ?_⟩,
    fun ρ => ?_, hp.frozen.trans ⟨le_rfl, fun j hj => ?_, fun j hj => hts (.page j),
      fun j hj => hlevel (.page j)⟩⟩
  · intro c hc h ρ x hx
    rw [hchild] at h hx
    rw [hts]
    exact ha.dated c hc h ρ x hx
  · rw [hchild]
    exact ha.labelled
  · intro c hc
    rw [hlevel]
    exact ha.root_ok c hc
  · rw [← hp.contents ρ, Heap.contents, Heap.contents, hchild]
    have hroot : b₂.root = b'.root := rfl
    rw [hroot]
    split_ifs with hρ
    · subst hρ
      rw [hp.follow]
      exact (hwords _).trans (if_pos rfl)
    · cases hf : PathCopy.follow b'.heap.child b'.root ρ with
      | none => rfl
      | some c =>
        refine (hwords c).trans (if_neg ?_)
        rintro rfl
        exact hρ ((ha.labelled.eq_of_follow hf hid).symm.trans hp.label)
  · refine (hmem (.page j)).trans (if_neg ?_)
    simp only [Ref.page.injEq]
    omega

/-- The next turn of the loop. -/
theorem Placed.slotOk {r : Ref} {offset : ℕ}
    (hp : Placed n₀ ts past (level + 1) label π slot b b' r) :
    SlotOk n₀ label b' (.ent r offset) level (π ++ [offset]) := by
  refine ⟨?_, by simp, fun r' k h => ?_⟩
  · rw [follow_append, hp.follow]
    rfl
  · obtain ⟨rfl, rfl⟩ := Slot.ent.inj h
    obtain ⟨id, rfl, hid, hlt, hl⟩ := hp.page
    exact ⟨id, rfl, hid, hlt, hl, by rw [hp.label], by rw [hp.label]; exact hp.follow⟩

/-- **The loop of `sivfs_apply_change_checkpoint`** changes one word of the page
at the end of the path, or runs out of memory. -/
theorem applyLoop_building (h₀ : past 0) (hpast : ¬past ts) (faults : Faults) (ent : WsEntry)
    (offsets : List ℕ) :
    ∀ {b : Build} {label : Ref → List ℕ} {slot : Slot} {π : List ℕ},
      Building n₀ ts past label b → SlotOk n₀ label b slot offsets.length π →
      ∃ label', Building n₀ ts past label' (applyLoop faults ts ent offsets b slot).1 ∧
        Frozen n₀ b.heap (applyLoop faults ts ent offsets b slot).1.heap ∧
        match applyLoop faults ts ent offsets b slot with
        | (_, .error e) => e = .enomem
        | (b', .ok ()) => ∀ ρ, b'.heap.contents b'.root ρ =
            if ρ = π ++ offsets then applyWsEntPg (b.heap.contents b.root ρ) ent
            else b.heap.contents b.root ρ := by
  induction offsets with
  | nil =>
    intro b label slot π ha hs
    have hspec := cowPage_spec ha hs h₀ hpast faults
    rw [List.length_nil] at hspec
    unfold applyLoop
    rcases hcow : b.cowPage faults ts 0 slot with ⟨b₁, e | r⟩
    · simp only [hcow] at hspec ⊢
      exact ⟨label, hspec.2.1, hspec.2.2, hspec.1⟩
    · simp only [hcow] at hspec ⊢
      obtain ⟨label', hp⟩ := hspec
      obtain ⟨ha', hcont, hfr⟩ := hp.write ent
      rw [applyWsEnt_put hp.slot_ne, List.append_nil]
      exact ⟨label', ha', hfr, hcont⟩
  | cons offset offsets ih =>
    intro b label slot π ha hs
    have hspec := cowPage_spec ha hs h₀ hpast faults
    rw [List.length_cons] at hspec
    unfold applyLoop
    rcases hcow : b.cowPage faults ts (offsets.length + 1) slot with ⟨b₁, e | r⟩
    · simp only [hcow] at hspec ⊢
      exact ⟨label, hspec.2.1, hspec.2.2, hspec.1⟩
    · simp only [hcow] at hspec ⊢
      obtain ⟨label', hp⟩ := hspec
      obtain ⟨label'', ha'', hfr, hrest⟩ := ih hp.building hp.slotOk
      simp only [hp.contents, List.append_assoc, List.singleton_append] at hrest
      exact ⟨label'', ha'', hp.frozen.trans hfr, hrest⟩

/-- `root_ptr` at first. -/
theorem slotOk_root (label : Ref → List ℕ) (b : Build) (ino off : ℕ) :
    SlotOk n₀ label b .root (pathOf ino off).length [] :=
  ⟨by rw [follow_nil]; rfl, fun _ => ⟨rfl, rfl⟩, fun r k h => by simp at h⟩

/-- **One change**, whatever timestamps there are in the tree. -/
theorem applyChange_building (h₀ : past 0) (hpast : ¬past ts) (faults : Faults)
    (hb : Building n₀ ts past label b) (ent : WsEntry) :
    ∃ label', Building n₀ ts past label' (applyChangeCheckpoint faults ts b ent).1 ∧
      Frozen n₀ b.heap (applyChangeCheckpoint faults ts b ent).1.heap ∧
      ∀ b', applyChangeCheckpoint faults ts b ent = (b', .ok ()) →
        InRange ent.ino ent.fileOffset ∧ ∀ ρ, b'.heap.contents b'.root ρ =
          if ρ = pathOf ent.ino ent.fileOffset then applyWsEntPg (b.heap.contents b.root ρ) ent
          else b.heap.contents b.root ρ := by
  rw [applyChangeCheckpoint, checkpointIterInit_eq]
  split_ifs with hin
  · obtain ⟨label', hb', hf, hres⟩ := applyLoop_building h₀ hpast faults ent
      (pathOf ent.ino ent.fileOffset) hb (slotOk_root label b _ _)
    refine ⟨label', hb', hf, fun b' h => ⟨hin, ?_⟩⟩
    simp only [h, List.nil_append] at hres
    exact hres
  · refine ⟨label, hb, .refl _ _, fun b' h => ?_⟩
    simp at h

end Grafts

/-! ### An attempt -/

section Attempts

variable {n₀ ts : ℕ} {label : Ref → List ℕ} {b b' : Build}

/-- An attempt leads to pages of earlier checkpoints only. -/
theorem Attempt.building (ha : Attempt n₀ ts label b) : Building n₀ ts (· < ts) label b := by
  refine ⟨ha.ok.toHeapWf, ha.le, ha.own_ts, fun c hc h ρ x hx => ?_, ha.labelled, ha.root_ok⟩
  have hlt := ha.young c hc h
  refine follow_mem (p := fun r => b.heap.checkpointTs r < ts) ?_ ?_ ρ x hx
  · exact fun r k d hr hd => (ha.ok.mono r k d hd).trans_lt hr
  · rintro y ⟨⟩
    exact hlt

/-- No page points to a younger one after it. -/
theorem Building.heapOk (ha : Attempt n₀ ts label b) {label' : Ref → List ℕ}
    (hb : Building n₀ ts (· < ts) label' b') (hf : Frozen n₀ b.heap b'.heap) : HeapOk b'.heap := by
  refine ⟨hb.ok, fun r k c hc => ?_⟩
  cases r with
  | zero l =>
    have hdated := @dated_zero (· = 0) rfl b'.heap l [k] c (by rw [follow_cons, hc]; rfl)
    exact hdated.le
  | page id =>
    rcases Nat.lt_or_ge id n₀ with hid | hid
    · have hchild : b.heap.child (.page id) k = some c := by
        rw [← hc]
        exact congrArg (PageMem.ents · k) (hf.mem id hid).symm
      have hle := ha.ok.mono (.page id) k c hchild
      have hold : ¬Own n₀ c := fun hown =>
        absurd (ha.labelled.child _ k c hchild hown).1 (not_le.2 hid)
      have hr : b'.heap.checkpointTs (.page id) = b.heap.checkpointTs (.page id) :=
        hf.checkpointTs id hid
      rw [hr]
      cases c with
      | zero => exact hle
      | page j => exact (hf.checkpointTs j (not_le.1 hold)).trans_le hle
    · have hlt : id < b'.heap.next := by
        by_contra h
        rw [hb.ok.fresh id (not_lt.1 h)] at hc
        simp at hc
      have hr : b'.heap.checkpointTs (.page id) = ts := hb.own_ts id hid hlt
      rw [hr]
      by_cases hown : Own n₀ c
      · cases c with
        | zero => exact absurd hown not_false
        | page j => exact (hb.own_ts j hown (hb.ok.bound _ k j hc)).le
      · exact (hb.dated c hown (.inr ⟨.page id, k, hid, hc⟩) [] c rfl).le

theorem Building.attempt (ha : Attempt n₀ ts label b) {label' : Ref → List ℕ}
    (hb : Building n₀ ts (· < ts) label' b') (hf : Frozen n₀ b.heap b'.heap) :
    Attempt n₀ ts label' b' :=
  ⟨hb.heapOk ha hf, hb.le, hb.own_ts, fun c hc h => hb.dated c hc h [] c rfl, hb.labelled,
    hb.root_ok⟩

/-- The loop in an attempt. -/
theorem applyLoop_spec (hts : 0 < ts) (faults : Faults) (ent : WsEntry) (offsets : List ℕ)
    {slot : Slot} {π : List ℕ} (ha : Attempt n₀ ts label b)
    (hs : SlotOk n₀ label b slot offsets.length π) :
    match applyLoop faults ts ent offsets b slot with
    | (b', .error e) => e = .enomem ∧ HeapOk b'.heap ∧ Frozen n₀ b.heap b'.heap
    | (b', .ok ()) => ∃ label', Attempt n₀ ts label' b' ∧ Frozen n₀ b.heap b'.heap ∧
      ∀ ρ, b'.heap.contents b'.root ρ =
        if ρ = π ++ offsets then applyWsEntPg (b.heap.contents b.root ρ) ent
        else b.heap.contents b.root ρ := by
  obtain ⟨label', hb, hf, hres⟩ :=
    @applyLoop_building n₀ ts (· < ts) hts (lt_irrefl ts) faults ent offsets _ _ _ _ ha.building hs
  rcases hloop : applyLoop faults ts ent offsets b slot with ⟨b', e | ⟨⟩⟩
  · simp only [hloop] at hb hf hres ⊢
    exact ⟨hres, hb.heapOk ha hf, hf⟩
  · simp only [hloop] at hb hf hres ⊢
    exact ⟨label', hb.attempt ha hf, hf, hres⟩

end Attempts

end Checkpoint
end Sivfs
