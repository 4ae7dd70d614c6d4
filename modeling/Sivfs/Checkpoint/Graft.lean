/-
# Grafting a page into a tree

A new page of the current attempt is put at a slot (`Graft`): over an older page, whose entries
it takes over, or over nothing.  Pages of the attempt are the ones written in place.  Older pages
keep their contents, point to older pages only, and carry an older timestamp if the attempt can
come across them (`Building`).  A page of the attempt is reached by one path only
(`PathCopy.Labelled`), so writing to it shows up once.

A graft keeps all of this, with the new page labelled by the path to its slot
(`Graft.building`).
-/

import Sivfs.Checkpoint.HeapWf

open PathCopy

namespace Sivfs
namespace Checkpoint

/-! ### An attempt -/

/-- The current attempt has made the page. -/
def Own (n₀ : ℕ) : Ref → Prop
  | .zero _ => False
  | .page id => n₀ ≤ id

/-- A checkpoint that is being built at timestamp `ts` from page `n₀` on. -/
structure Attempt (n₀ ts : ℕ) (label : Ref → List ℕ) (b : Build) : Prop where
  ok : HeapOk b.heap
  le : n₀ ≤ b.heap.next
  own_ts : ∀ id, n₀ ≤ id → id < b.heap.next → (b.heap.page id).checkpointTs = ts
  young : ∀ c, ¬Own n₀ c → b.root = some c ∨ (∃ r k, Own n₀ r ∧ b.heap.child r k = some c) →
    b.heap.checkpointTs c < ts
  labelled : Labelled b.heap.child b.root (Own n₀) label
  root_ok : ∀ c, b.root = some c → Valid b.heap.next c ∧ b.heap.level c = 6

/-- Every page under `c` carries a timestamp in `past`. -/
def Heap.Dated (h : Heap) (past : ℕ → Prop) (c : Ref) : Prop :=
  ∀ ρ x, follow h.child (some c) ρ = some x → past (h.checkpointTs x)

/-- A checkpoint that is being built at timestamp `ts` from page `n₀` on; the pages
of earlier checkpoints that it leads to carry timestamps in `past`. -/
structure Building (n₀ ts : ℕ) (past : ℕ → Prop) (label : Ref → List ℕ) (b : Build) : Prop where
  ok : HeapWf b.heap
  le : n₀ ≤ b.heap.next
  own_ts : ∀ id, n₀ ≤ id → id < b.heap.next → (b.heap.page id).checkpointTs = ts
  dated : ∀ c, ¬Own n₀ c → b.root = some c ∨ (∃ r k, Own n₀ r ∧ b.heap.child r k = some c) →
    b.heap.Dated past c
  labelled : Labelled b.heap.child b.root (Own n₀) label
  root_ok : ∀ c, b.root = some c → Valid b.heap.next c ∧ b.heap.level c = 6

/-- `root_ptr` is where path `π` leads, at level `level`. -/
structure SlotOk (n₀ : ℕ) (label : Ref → List ℕ) (b : Build) (slot : Slot) (level : ℕ)
    (π : List ℕ) : Prop where
  get : follow b.heap.child b.root π = b.get slot
  root : slot = .root → π = [] ∧ level = 6
  ent : ∀ r k, slot = .ent r k → ∃ id, r = .page id ∧ n₀ ≤ id ∧ id < b.heap.next ∧
    (b.heap.page id).level = level + 1 ∧ π = label r ++ [k] ∧
    follow b.heap.child b.root (label r) = some r

/-- `root_ptr` is the root, or in a page of the level above. -/
structure SlotIn (b : Build) (slot : Slot) (level : ℕ) : Prop where
  root : slot = .root → level = 6
  ent : ∀ r k, slot = .ent r k → ∃ id, r = .page id ∧ id < b.heap.next ∧
    (b.heap.page id).level = level + 1

theorem SlotOk.slotIn {n₀ level : ℕ} {label : Ref → List ℕ} {b : Build} {slot : Slot} {π : List ℕ}
    (hs : SlotOk n₀ label b slot level π) : SlotIn b slot level := by
  refine ⟨fun h => (hs.root h).2, fun r k h => ?_⟩
  obtain ⟨id, hid, -, hlt, hl, -⟩ := hs.ent r k h
  exact ⟨id, hid, hlt, hl⟩

/-- A new page `n` with contents `m` is put at `slot`. -/
structure Graft (b b' : Build) (slot : Slot) (ts level : ℕ) (m : PageMem) : Prop where
  next : b'.heap.next = b.heap.next + 1
  root : b'.root = if slot = .root then some (.page b.heap.next) else b.root
  child : ∀ r k, b'.heap.child r k =
    if r = .page b.heap.next then m.ents k
    else if slot = .ent r k then some (.page b.heap.next) else b.heap.child r k
  words : ∀ r, b'.heap.words r = if r = .page b.heap.next then m.words else b.heap.words r
  level : ∀ r, b'.heap.level r = if r = .page b.heap.next then level else b.heap.level r
  checkpointTs : ∀ r,
    b'.heap.checkpointTs r = if r = .page b.heap.next then ts else b.heap.checkpointTs r

section Grafts

variable {n₀ ts level : ℕ} {past : ℕ → Prop} {label : Ref → List ℕ} {b b' : Build}
  {slot : Slot} {π : List ℕ} {m : PageMem}

/-- What a page of this level may be filled with: entries to pages of the level below. -/
structure Fits (level : ℕ) (h : Heap) (m : PageMem) : Prop where
  ents : ∀ k c, m.ents k = some c → Valid h.next c ∧ h.level c + 1 = level
  words : 0 < level → m.words = fun _ => 0

/-- What a new page may be filled with: entries to older pages of the level
below. -/
structure Fills (n₀ : ℕ) (past : ℕ → Prop) (level : ℕ) (h : Heap) (m : PageMem) : Prop where
  ents : ∀ k c, m.ents k = some c →
    Valid h.next c ∧ ¬Own n₀ c ∧ h.level c + 1 = level ∧ h.Dated past c
  words : 0 < level → m.words = fun _ => 0

theorem Fills.fits {h : Heap} (hm : Fills n₀ past level h m) : Fits level h m :=
  ⟨fun k c hc => ⟨(hm.ents k c hc).1, (hm.ents k c hc).2.2.1⟩, hm.words⟩

/-- The page at `slot` is at the right level, and the attempt has made it unless
it is older. -/
theorem Building.get_slot (ha : Building n₀ ts past label b)
    (hs : SlotOk n₀ label b slot level π) {c : Ref}
    (hc : b.get slot = some c) : Valid b.heap.next c ∧ b.heap.level c = level ∧
      (Own n₀ c → label c = π) ∧ (¬Own n₀ c → b.heap.Dated past c) := by
  cases slot with
  | root =>
    obtain ⟨rfl, rfl⟩ := hs.root rfl
    obtain ⟨hv, hl⟩ := ha.root_ok c hc
    exact ⟨hv, hl, ha.labelled.root c hc, fun hn => ha.dated c hn (.inl hc)⟩
  | ent r k =>
    obtain ⟨id, rfl, hn₀, -, hlevel, rfl, -⟩ := hs.ent r k rfl
    have hl := ha.ok.level _ k c hc
    refine ⟨ha.ok.valid hc, ?_, fun hown => (ha.labelled.child _ k c hc hown).2,
      fun hn => ha.dated c hn (.inr ⟨.page id, k, hn₀, hc⟩)⟩
    have : b.heap.level (.page id) = level + 1 := hlevel
    omega

theorem Graft.child_new (g : Graft b b' slot ts level m) (k : ℕ) :
    b'.heap.child (.page b.heap.next) k = m.ents k := by
  rw [g.child, if_pos rfl]

theorem Graft.child_old (g : Graft b b' slot ts level m) {r : Ref} (hr : r ≠ .page b.heap.next)
    {k : ℕ} (hk : slot ≠ .ent r k) : b'.heap.child r k = b.heap.child r k := by
  rw [g.child, if_neg hr, if_neg hk]

/-- What the pages point to after a graft. -/
theorem Graft.child_cases (g : Graft b b' slot ts level m) {r c : Ref} {k : ℕ}
    (h : b'.heap.child r k = some c) : (r = .page b.heap.next ∧ m.ents k = some c) ∨
      (r ≠ .page b.heap.next ∧ slot = .ent r k ∧ c = .page b.heap.next) ∨
      (r ≠ .page b.heap.next ∧ b.heap.child r k = some c) := by
  rw [g.child] at h
  split_ifs at h with h₁ h₂
  · exact .inl ⟨h₁, h⟩
  · exact .inr (.inl ⟨h₁, h₂, (Option.some.inj h).symm⟩)
  · exact .inr (.inr ⟨h₁, h⟩)

/-- A page that was there before is not the new one. -/
theorem Valid.ne_next {n : ℕ} {r : Ref} (h : Valid n r) : r ≠ .page n := by
  rintro rfl
  exact lt_irrefl n h

/-- A graft keeps the pages well formed. -/
theorem Graft.heapWf (hok : HeapWf b.heap) (hs : SlotIn b slot level) (hm : Fits level b.heap m)
    (g : Graft b b' slot ts level m) : HeapWf b'.heap := by
  have hlv : ∀ c, Valid b.heap.next c → b'.heap.level c = b.heap.level c := fun c hc => by
    rw [g.level, if_neg hc.ne_next]
  have hnew : b'.heap.level (.page b.heap.next) = level := by
    rw [g.level, if_pos rfl]
  refine ⟨fun id hid k => ?_, fun r k id h => ?_, fun r hr => ?_, fun r k c h => ?_⟩
  · rw [g.next] at hid
    have hne : Ref.page id ≠ .page b.heap.next := by
      simp only [ne_eq, Ref.page.injEq]
      omega
    rw [g.child_old hne, hok.fresh id (by omega)]
    rintro rfl
    obtain ⟨id', h, hlt, -⟩ := hs.ent _ k rfl
    obtain rfl := Ref.page.inj h
    omega
  · rw [g.next]
    rcases g.child_cases h with ⟨-, h⟩ | ⟨-, -, h⟩ | ⟨-, h⟩
    · exact Nat.lt_succ_of_lt (hm.ents k _ h).1
    · obtain rfl := Ref.page.inj h
      exact Nat.lt_succ_self _
    · exact Nat.lt_succ_of_lt (hok.bound r k id h)
  · rw [g.words]
    rw [g.level] at hr
    split_ifs at hr ⊢ with h₁
    · exact hm.words hr
    · exact hok.words r hr
  · rcases g.child_cases h with ⟨rfl, hc⟩ | ⟨hne, rfl, rfl⟩ | ⟨hne, h⟩
    · obtain ⟨hv, hl⟩ := hm.ents k c hc
      rw [hlv c hv, hnew, hl]
    · obtain ⟨id, rfl, hlt, hl⟩ := hs.ent r k rfl
      rw [hlv (.page id) hlt, hnew]
      exact hl.symm
    · rw [hlv c (hok.valid h), g.level, if_neg hne]
      exact hok.level r k c h

/-- What an older page leads to is older. -/
theorem Building.closed (ha : Building n₀ ts past label b) (r : Ref) (k : ℕ) (c : Ref)
    (hr : ¬Own n₀ r ∧ Valid b.heap.next r) (hc : b.heap.child r k = some c) :
    ¬Own n₀ c ∧ Valid b.heap.next c :=
  ⟨fun hown => hr.1 (ha.labelled.child r k c hc hown).1, ha.ok.valid hc⟩

/-- A graft keeps the timestamps under an older page. -/
theorem Graft.dated (ha : Building n₀ ts past label b) (hs : SlotOk n₀ label b slot level π)
    (g : Graft b b' slot ts level m) {c : Ref} (hown : ¬Own n₀ c) (hv : Valid b.heap.next c)
    (h : b.heap.Dated past c) : b'.heap.Dated past c := by
  have hstart : ∀ x, some c = some x → ¬Own n₀ x ∧ Valid b.heap.next x := by
    rintro x ⟨⟩
    exact ⟨hown, hv⟩
  intro ρ x hx
  have hfollow : follow b'.heap.child (some c) ρ = follow b.heap.child (some c) ρ := by
    refine follow_congr ha.closed (fun r k hr => g.child_old hr.2.ne_next ?_) hstart ρ
    rintro rfl
    obtain ⟨id, rfl, hid, -⟩ := hs.ent r k rfl
    exact hr.1 hid
  rw [hfollow] at hx
  rw [g.checkpointTs, if_neg (follow_mem ha.closed hstart ρ x hx).2.ne_next]
  exact h ρ x hx

/-- A graft in place of an older page, or of none, does not move the pages of the
attempt. -/
theorem Graft.follow_own (ha : Building n₀ ts past label b)
    (hold : ∀ c, b.get slot = some c → ¬Own n₀ c)
    (g : Graft b b' slot ts level m) {ρ : List ℕ} {r : Ref}
    (hr : follow b.heap.child b.root ρ = some r) (hown : Own n₀ r) :
    follow b'.heap.child b'.root ρ = some r := by
  induction ρ using List.reverseRecOn generalizing r with
  | nil =>
    rw [follow_nil] at hr ⊢
    have hslot : slot ≠ .root := by
      rintro rfl
      exact hold r hr hown
    rw [g.root, if_neg hslot, hr]
  | append_singleton ρ k ih =>
    rw [follow_append] at hr ⊢
    cases hx : follow b.heap.child b.root ρ with
    | none => simp [hx] at hr
    | some x =>
      rw [hx, follow_cons, follow_nil] at hr
      rw [ih hx (ha.labelled.child x k r hr hown).1, follow_cons, follow_nil, ← hr]
      refine g.child_old ?_ ?_
      · rintro rfl
        rw [ha.ok.fresh _ le_rfl] at hr
        simp at hr
      · rintro rfl
        exact hold r hr hown

/-- **A graft in an attempt.**  The new page is the one at the end of `π`. -/
theorem Graft.building (ha : Building n₀ ts past label b) (hs : SlotOk n₀ label b slot level π)
    (hold : ∀ c, b.get slot = some c → ¬Own n₀ c) (hm : Fills n₀ past level b.heap m)
    (g : Graft b b' slot ts level m) :
    Building n₀ ts past (Function.update label (.page b.heap.next) π) b' ∧
      follow b'.heap.child b'.root π = some (.page b.heap.next) := by
  have hle := ha.le
  have hnew : Own n₀ (.page b.heap.next) := ha.le
  have hroot : ∀ c, b'.root = some c → (slot = .root ∧ c = .page b.heap.next) ∨
      (slot ≠ .root ∧ b.root = some c) := by
    intro c hc
    rw [g.root] at hc
    split_ifs at hc with h₁
    · exact .inl ⟨h₁, (Option.some.inj hc).symm⟩
    · exact .inr ⟨h₁, hc⟩
  constructor
  · refine ⟨g.heapWf ha.ok hs.slotIn hm.fits, by rw [g.next]; omega, fun id hid hlt => ?_,
      fun c hc h => ?_, ?_,
      fun c hc => ?_⟩
    · show b'.heap.checkpointTs (.page id) = ts
      rw [g.next] at hlt
      rw [g.checkpointTs]
      split_ifs with h₁
      · rfl
      · refine ha.own_ts id hid ?_
        have : id ≠ b.heap.next := fun h => h₁ (by rw [h])
        omega
    · rcases h with h | ⟨r, k, hr, h⟩
      · rcases hroot c h with ⟨-, rfl⟩ | ⟨-, h⟩
        · exact absurd hnew hc
        · exact g.dated ha hs hc (ha.root_ok c h).1 (ha.dated c hc (.inl h))
      · rcases g.child_cases h with ⟨-, h⟩ | ⟨-, -, rfl⟩ | ⟨-, h⟩
        · exact g.dated ha hs hc (hm.ents k c h).1 (hm.ents k c h).2.2.2
        · exact absurd hnew hc
        · exact g.dated ha hs hc (ha.ok.valid h) (ha.dated c hc (.inr ⟨r, k, hr, h⟩))
    · constructor
      · intro r hr hown
        rcases hroot r hr with ⟨rfl, rfl⟩ | ⟨-, h⟩
        · rw [Function.update_self]
          exact (hs.root rfl).1
        · rw [Function.update_of_ne (ha.root_ok r h).1.ne_next]
          exact ha.labelled.root r h hown
      · intro r k c hc hown
        rcases g.child_cases hc with ⟨-, h⟩ | ⟨hne, rfl, rfl⟩ | ⟨hne, h⟩
        · exact absurd hown (hm.ents k c h).2.1
        · obtain ⟨id, rfl, hid, -, -, hπ, -⟩ := hs.ent r k rfl
          rw [Function.update_self, Function.update_of_ne hne]
          exact ⟨hid, hπ⟩
        · rw [Function.update_of_ne hne, Function.update_of_ne (ha.ok.valid h).ne_next]
          exact ha.labelled.child r k c h hown
    · rw [g.next, g.level]
      rcases hroot c hc with ⟨rfl, rfl⟩ | ⟨-, h⟩
      · rw [if_pos rfl]
        exact ⟨Nat.lt_succ_self _, (hs.root rfl).2⟩
      · obtain ⟨hv, hl⟩ := ha.root_ok c h
        rw [if_neg hv.ne_next]
        exact ⟨hv.mono (Nat.le_succ _), hl⟩
  · cases slot with
    | root =>
      rw [(hs.root rfl).1, follow_nil, g.root, if_pos rfl]
    | ent r k =>
      obtain ⟨id, rfl, hid, hlt, -, rfl, hr⟩ := hs.ent r k rfl
      rw [follow_append, g.follow_own ha hold hr hid, follow_cons, follow_nil, g.child,
        if_neg (show Valid b.heap.next (.page id) from hlt).ne_next, if_pos rfl]

end Grafts

end Checkpoint
end Sivfs
