/-
# Paths after a graft

If the new page is what was there before, or zeros where nothing was (`SameAs`), no word changes:
every path leads to the same page, to the new one instead of the one at the slot, or to zeros
instead of nothing (`Graft.walk_from`), so the contents of the tree are those before
(`Graft.contents`).
-/

import Sivfs.Checkpoint.Graft

open PathCopy

namespace Sivfs
namespace Checkpoint

/-! ### Paths after a graft -/

section Grafts

variable {n₀ ts level : ℕ} {past : ℕ → Prop} {label : Ref → List ℕ} {b b' : Build}
  {slot : Slot} {π : List ℕ} {m : PageMem}

/-- The new page is what was there before, or zeros where nothing was. -/
def SameAs (h : Heap) (m : PageMem) (level : ℕ) : Option Ref → Prop
  | some old => m = h.mem old
  | none => m = mkZeroCheckpointPage level

theorem mkZeroCheckpointPage_ents (level k : ℕ) : (mkZeroCheckpointPage level).ents k = none ∨
    ∃ l, l + 1 = level ∧ (mkZeroCheckpointPage level).ents k = some (.zero l) := by
  cases level with
  | zero => exact .inl rfl
  | succ level =>
    simp only [mkZeroCheckpointPage, PageMem.ents]
    split_ifs with h
    · exact .inr ⟨level, rfl, rfl⟩
    · exact .inl rfl

theorem mkZeroCheckpointPage_words (level : ℕ) :
    (mkZeroCheckpointPage level).words = fun _ => 0 := by
  cases level <;> rfl

/-- A path that led to `x` leads to `y` after a graft: to the same page, or to the new page
instead of what was at `slot`, or to zeros instead of nothing. -/
def Walks (b : Build) (slot : Slot) (x y : Option Ref) : Prop :=
  (y = x ∧ ∀ c, x = some c → c ≠ .page b.heap.next) ∨
    (x = b.get slot ∧ y = some (.page b.heap.next)) ∨ (x = none ∧ ∃ l, y = some (.zero l))

/-- Paths go on alike from where they led before a graft and from where they lead after it. -/
theorem Graft.walk_from (hok : HeapWf b.heap) (hs : SlotIn b slot level)
    (hsame : SameAs b.heap m level (b.get slot)) (g : Graft b b' slot ts level m)
    {x y : Option Ref} (h : Walks b slot x y) (ρ : List ℕ) :
    Walks b slot (follow b.heap.child x ρ) (follow b'.heap.child y ρ) := by
  have hzero : ∀ l k, b'.heap.child (.zero l) k = (mkZeroCheckpointPage l).ents k := by
    intro l k
    refine g.child_old (by simp) ?_
    rintro rfl
    obtain ⟨id, h, -⟩ := hs.ent _ k rfl
    simp at h
  have hblank : ∀ l k, Walks b slot none ((mkZeroCheckpointPage l).ents k) := by
    intro l k
    rcases mkZeroCheckpointPage_ents l k with h | ⟨l', -, h⟩
    · exact .inl ⟨h, by simp⟩
    · exact .inr (.inr ⟨rfl, l', h⟩)
  have hchild : ∀ r k c, b.heap.child r k = some c → c ≠ .page b.heap.next := fun r k c hc =>
    (hok.valid hc).ne_next
  refine follow_rel ?_ h ρ
  rintro x y (⟨rfl, hx⟩ | ⟨rfl, rfl⟩ | ⟨rfl, l, rfl⟩) k
  · cases y with
    | none => exact .inl ⟨by simp, by simp⟩
    | some r =>
      simp only [follow_cons, follow_nil]
      by_cases hslot : slot = .ent r k
      · refine .inr (.inl ⟨by rw [hslot]; rfl, ?_⟩)
        rw [g.child, if_neg (hx r rfl), if_pos hslot]
      · exact .inl ⟨g.child_old (hx r rfl) hslot, hchild r k⟩
  · rw [follow_cons, follow_nil, g.child_new]
    cases hget : b.get slot with
    | none =>
      rw [hget] at hsame
      rw [show m = _ from hsame, follow_none]
      exact hblank level k
    | some old =>
      rw [hget] at hsame
      rw [show m = _ from hsame, follow_cons, follow_nil]
      exact .inl ⟨rfl, hchild old k⟩
  · rw [follow_cons, follow_nil, follow_none, hzero]
    exact hblank l k

/-- The roots before and after a graft. -/
theorem Graft.walks_root (hroot : ∀ c, b.root = some c → Valid b.heap.next c)
    (g : Graft b b' slot ts level m) : Walks b slot b.root b'.root := by
  rw [g.root]
  split_ifs with h₁
  · exact .inr (.inl ⟨by rw [h₁]; rfl, rfl⟩)
  · exact .inl ⟨rfl, fun c hc => (hroot c hc).ne_next⟩

/-- Paths that lead alike lead to the same contents. -/
theorem Graft.contents_of_walks (hsame : SameAs b.heap m level (b.get slot))
    (g : Graft b b' slot ts level m) {x y : Option Ref} {ρ : List ℕ}
    (h : Walks b slot (follow b.heap.child x ρ) (follow b'.heap.child y ρ)) :
    b'.heap.contents y ρ = b.heap.contents x ρ := by
  rw [Heap.contents, Heap.contents]
  rcases h with ⟨hy, hx⟩ | ⟨hx, hy⟩ | ⟨hx, l, hy⟩
  · rw [hy]
    cases hr : follow b.heap.child x ρ with
    | none => rfl
    | some r =>
      show b'.heap.words r = b.heap.words r
      rw [g.words, if_neg (hx r hr)]
  · rw [hx, hy]
    show b'.heap.words (.page b.heap.next) = _
    rw [g.words, if_pos rfl]
    cases hget : b.get slot with
    | none =>
      rw [hget] at hsame
      rw [show m = _ from hsame]
      exact mkZeroCheckpointPage_words level
    | some old =>
      rw [hget] at hsame
      rw [show m = _ from hsame]
      rfl
  · rw [hx, hy]
    exact mkZeroCheckpointPage_words l

/-- Every path from the root leads where it did, or to the new page instead of what was at
`slot`, or to zeros instead of nothing. -/
theorem Graft.walk (ha : Building n₀ ts past label b) (hs : SlotOk n₀ label b slot level π)
    (hsame : SameAs b.heap m level (b.get slot)) (g : Graft b b' slot ts level m) (ρ : List ℕ) :
    Walks b slot (follow b.heap.child b.root ρ) (follow b'.heap.child b'.root ρ) :=
  g.walk_from ha.ok hs.slotIn hsame (g.walks_root fun c hc => (ha.root_ok c hc).1) ρ

/-- **A copy changes nothing.** -/
theorem Graft.contents (ha : Building n₀ ts past label b) (hs : SlotOk n₀ label b slot level π)
    (hsame : SameAs b.heap m level (b.get slot)) (g : Graft b b' slot ts level m) (ρ : List ℕ) :
    b'.heap.contents b'.root ρ = b.heap.contents b.root ρ :=
  g.contents_of_walks hsame (g.walk ha hs hsame ρ)

end Grafts

end Checkpoint
end Sivfs
