/-
# Pages that are well formed

An entry of a table leads to a page one level further down that has been allocated (`HeapWf`),
and to a page that is no younger than the table (`HeapOk`).  Pages from `n₀` on were made by the
current attempt; older ones keep what they hold (`Frozen`), so paths and contents below an older
page stay as they are (`Frozen.follow`, `Frozen.contents`).
-/

import Sivfs.Checkpoint.Tree

open PathCopy

namespace Sivfs
namespace Checkpoint

/-! ### Pages that are well formed -/

/-- Every page is as its level says, and points to pages that exist, of the level
below. -/
structure HeapWf (h : Heap) : Prop where
  fresh : ∀ id, h.next ≤ id → ∀ k, h.child (.page id) k = none
  bound : ∀ r k id, h.child r k = some (.page id) → id < h.next
  words : ∀ r, 0 < h.level r → h.words r = fun _ => 0
  level : ∀ r k c, h.child r k = some c → h.level c + 1 = h.level r

/-- A well-formed heap where no page points to a younger one. -/
structure HeapOk (h : Heap) : Prop extends HeapWf h where
  mono : ∀ r k c, h.child r k = some c → h.checkpointTs c ≤ h.checkpointTs r

/-- Pages below `n₀` keep their contents. -/
structure Frozen (n₀ : ℕ) (h h' : Heap) : Prop where
  next_le : h.next ≤ h'.next
  mem : ∀ id < n₀, (h'.page id).mem = (h.page id).mem
  checkpointTs : ∀ id < n₀, (h'.page id).checkpointTs = (h.page id).checkpointTs
  level : ∀ id < n₀, (h'.page id).level = (h.page id).level

/-- A heap is frozen with respect to itself. -/
theorem Frozen.refl (n₀ : ℕ) (h : Heap) : Frozen n₀ h h :=
  ⟨le_rfl, fun _ _ => rfl, fun _ _ => rfl, fun _ _ => rfl⟩

/-- What stays through two changes stays through both. -/
theorem Frozen.trans {n₀ : ℕ} {h h' h'' : Heap} (h₁ : Frozen n₀ h h') (h₂ : Frozen n₀ h' h'') :
    Frozen n₀ h h'' :=
  ⟨h₁.next_le.trans h₂.next_le, fun id hid => (h₂.mem id hid).trans (h₁.mem id hid),
    fun id hid => (h₂.checkpointTs id hid).trans (h₁.checkpointTs id hid),
    fun id hid => (h₂.level id hid).trans (h₁.level id hid)⟩

/-- The page exists. -/
def Valid (n : ℕ) : Ref → Prop
  | .zero _ => True
  | .page id => id < n

/-- Pages stay allocated. -/
theorem Valid.mono {n n' : ℕ} (hn : n ≤ n') {r : Ref} (h : Valid n r) : Valid n' r := by
  cases r with
  | zero => trivial
  | page id => exact lt_of_lt_of_le h hn

/-- An entry leads to a page that exists. -/
theorem HeapWf.valid {h : Heap} (hok : HeapWf h) {r c : Ref} {k : ℕ} (hc : h.child r k = some c) :
    Valid h.next c := by
  cases c with
  | zero => trivial
  | page id => exact hok.bound r k id hc

/-- Every step along a path goes down a level. -/
theorem HeapWf.level_follow {h : Heap} (hok : HeapWf h) (ρ : List ℕ) :
    ∀ {r x : Ref}, follow h.child (some r) ρ = some x → h.level x + ρ.length = h.level r := by
  induction ρ with
  | nil =>
    intro r x hx
    obtain rfl : r = x := by simpa using hx
    rfl
  | cons k ρ ih =>
    intro r x hx
    rw [follow_cons] at hx
    rcases hc : h.child r k with _ | c
    · simp [hc] at hx
    · rw [hc] at hx
      have h₁ := ih hx
      have h₂ := hok.level r k c hc
      rw [List.length_cons]
      omega

/-- An older page keeps what it holds. -/
theorem Frozen.mem_valid {n₀ : ℕ} {h h' : Heap} (hf : Frozen n₀ h h') {r : Ref} (hr : Valid n₀ r) :
    h'.mem r = h.mem r := by
  cases r with
  | zero => rfl
  | page id => exact hf.mem id hr

/-- Paths from older pages lead where they led. -/
theorem Frozen.follow {n₀ : ℕ} {h h' : Heap} (hf : Frozen n₀ h h')
    (hclosed : ∀ r k c, Valid n₀ r → h.child r k = some c → Valid n₀ c) {root : Option Ref}
    (hroot : ∀ r, root = some r → Valid n₀ r) (offsets : List ℕ) :
    PathCopy.follow h'.child root offsets = PathCopy.follow h.child root offsets :=
  follow_congr hclosed (fun r k hr => by rw [Heap.child, Heap.child, hf.mem_valid hr]) hroot offsets

/-- **Old checkpoints stay what they were.** -/
theorem Frozen.contents {n₀ : ℕ} {h h' : Heap} (hf : Frozen n₀ h h')
    (hclosed : ∀ r k c, Valid n₀ r → h.child r k = some c → Valid n₀ c) {root : Option Ref}
    (hroot : ∀ r, root = some r → Valid n₀ r) (offsets : List ℕ) :
    h'.contents root offsets = h.contents root offsets := by
  rw [Heap.contents, Heap.contents, hf.follow hclosed hroot]
  cases hc : PathCopy.follow h.child root offsets with
  | none => rfl
  | some r =>
    show h'.words r = h.words r
    rw [Heap.words, Heap.words, hf.mem_valid (follow_mem hclosed hroot offsets r hc)]

/-! ### Single stores -/

section Stores

variable (h : Heap)

/-- A store changes the page it goes to and no other. -/
theorem modify_mem (id : ℕ) (f : Page → Page) (r : Ref) :
    (h.modify id f).mem r = if r = .page id then (f (h.page id)).mem else h.mem r := by
  cases r with
  | zero => simp [Heap.mem]
  | page j =>
    by_cases hj : j = id
    · simp [Heap.mem, Heap.modify, hj]
    · simp [Heap.mem, Heap.modify, hj]

/-- A store that leaves the timestamp of its page alone leaves all timestamps alone. -/
theorem modify_checkpointTs (id : ℕ) (f : Page → Page)
    (hf : (f (h.page id)).checkpointTs = (h.page id).checkpointTs) (r : Ref) :
    (h.modify id f).checkpointTs r = h.checkpointTs r := by
  cases r with
  | zero => rfl
  | page j =>
    by_cases hj : j = id
    · simp [Heap.checkpointTs, Heap.modify, hj, hf]
    · simp [Heap.checkpointTs, Heap.modify, hj]

/-- The same for levels. -/
theorem modify_level (id : ℕ) (f : Page → Page)
    (hf : (f (h.page id)).level = (h.page id).level) (r : Ref) :
    (h.modify id f).level r = h.level r := by
  cases r with
  | zero => rfl
  | page j =>
    by_cases hj : j = id
    · simp [Heap.level, Heap.modify, hj, hf]
    · simp [Heap.level, Heap.modify, hj]

/-- A new page holds what it is given; the others keep what they hold. -/
theorem alloc_mem (ts level : ℕ) (mem : PageMem) (r : Ref) :
    (h.alloc ts level mem).mem r = if r = .page h.next then mem else h.mem r := by
  cases r with
  | zero => simp [Heap.mem]
  | page j =>
    by_cases hj : j = h.next
    · simp [Heap.mem, Heap.alloc, hj]
    · simp [Heap.mem, Heap.alloc, hj]

/-- A new page has the timestamp it is given. -/
theorem alloc_checkpointTs (ts level : ℕ) (mem : PageMem) (r : Ref) :
    (h.alloc ts level mem).checkpointTs r = if r = .page h.next then ts else h.checkpointTs r := by
  cases r with
  | zero => simp [Heap.checkpointTs]
  | page j =>
    by_cases hj : j = h.next
    · simp [Heap.checkpointTs, Heap.alloc, hj]
    · simp [Heap.checkpointTs, Heap.alloc, hj]

/-- A new page is at the level it is given. -/
theorem alloc_level (ts level : ℕ) (mem : PageMem) (r : Ref) :
    (h.alloc ts level mem).level r = if r = .page h.next then level else h.level r := by
  cases r with
  | zero => simp [Heap.level]
  | page j =>
    by_cases hj : j = h.next
    · simp [Heap.level, Heap.alloc, hj]
    · simp [Heap.level, Heap.alloc, hj]

end Stores

end Checkpoint
end Sivfs
