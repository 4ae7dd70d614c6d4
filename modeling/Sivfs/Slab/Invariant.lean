/-
# The invariant of the slab heap

`HeapInv` relates the words of memory and the free lists to what they stand for: how far each
slab is carved (`carve`), the nodes of each free list in order (`lists`) and the objects that
the program holds (`live`).  What the calls do to it is in `Sivfs.Slab.Grow` (slabs and regions)
and `Sivfs.Slab.Listed` (lists and objects).

Where an append to the write set fails half way, `Solid` is left: the regions are still those
of their slabs.
-/

import Sivfs.Slab.Carve
import Sivfs.Slab.Mmaps
import Sivfs.Slab.Threads

namespace Sivfs
namespace Slab

/-- An object that the program holds: what `sivfs_malloc_ws` returned, the size that was asked
for and the slot of the list that it came from. -/
structure Obj where
  ptr : ℕ
  size : ℕ
  slot : Slot
  deriving DecidableEq, Repr

/-- The regions of a slab are on the lists of its bin, and on its own list if the blocks are
`placed`, inside their mappings. -/
structure Home (placed : Prop) (s : SlabInfo) (slot : Slot) : Prop where
  bin : s.slot.bin = slot.bin
  slot : placed → s.slot = slot

/-- The slabs are intact and every object is a region. -/
structure Solid (slabs : List SlabInfo) (live : List Obj) (carve : SlabInfo → Carve)
    (mem : ℕ → ℕ) : Prop where
  carved : Carved slabs carve mem
  objects : ∀ o ∈ live, ∃ s k, Node slabs carve s k o.ptr ∧ s.len (carve s) k = s.elt

/-- The free lists are threaded through the nodes `lists`. -/
structure Threaded (freeLists : Slot → ℕ) (mem : ℕ → ℕ) (lists : Slot → List ℕ) : Prop where
  heads : ∀ slot, freeLists slot = (lists slot).headD 0
  rings : ∀ slot, Ring mem (lists slot)
  nodup : ∀ slot, (lists slot).Nodup
  disjoint : ∀ {slot slot' x}, x ∈ lists slot → x ∈ lists slot' → slot = slot'

/-- **The invariant.** -/
structure HeapInv (b : Bins) (placed : Prop) (slabs : List SlabInfo) (live : List Obj)
    (carve : SlabInfo → Carve) (lists : Slot → List ℕ) (h : Heap) : Prop where
  carved : Carved slabs carve h.mem
  threaded : Threaded h.freeLists h.mem lists
  listed : ∀ slot, ∀ x ∈ lists slot, ∃ s k, Node slabs carve s k x ∧ Home placed s slot ∧
    ∃ head, h.mem (s.region k) = pack (s.len (carve s) k) k (freeFlags head)
  objects : ∀ o ∈ live, ∃ s k, Node slabs carve s k o.ptr ∧ Home placed s o.slot ∧
    s.len (carve s) k = s.elt ∧ h.mem (s.region k) = pack s.elt k 0 ∧
    (o.size ≤ 2 ^ 64 - 16 → o.size + regionHeaderSize ≤ s.elt)
  live_nodup : (live.map Obj.ptr).Nodup
  bins : ∀ s ∈ slabs, b.getBin s.elt = .ok (some (s.slot.bin, s.elt))
  mmaps : ∀ s ∈ slabs, ∃ m, h.mmapStates[s.slot.mmap]? = some m ∧ m.tag = s.tag ∧
    (placed → m.start ≤ s.block ∧ s.block + s.size ≤ m.start + m.size)
  separate : placed → Separate h.mmapStates

/-- From `mem` to `mem'` no words change but the header `r` and the nodes `N`. -/
def Touches (r : ℕ) (N : List ℕ) (mem mem' : ℕ → ℕ) : Prop :=
  ∀ a, a ≠ r → (∀ y ∈ N, a ≠ y ∧ a ≠ y + 8) → mem' a = mem a

/-- The last region of a slab becomes smaller. -/
def resize (carve : SlabInfo → Carve) (s : SlabInfo) (last : ℕ) : SlabInfo → Carve :=
  Function.update carve s ⟨(carve s).top, last⟩

/-! ### Words of nodes and headers -/

section Words

variable {slabs : List SlabInfo} {carve : SlabInfo → Carve} {mem mem' : ℕ → ℕ}

/-- The last region gets another size and stays the last. -/
theorem resize_top (carve : SlabInfo → Carve) (s t : SlabInfo) (last : ℕ) :
    (resize carve s last t).top = (carve t).top := by
  rw [resize, Function.update_apply]
  split_ifs with h
  · rw [h]
  · rfl

/-- The others keep theirs. -/
theorem resize_len_of_ne {s t : SlabInfo} {k : ℕ} (h : t ≠ s ∨ k ≠ (carve s).top) (last : ℕ) :
    t.len (resize carve s last t) k = t.len (carve t) k := by
  by_cases hts : t = s
  · subst hts
    have hk := h.resolve_left (by simp)
    rw [resize, Function.update_self, SlabInfo.len, SlabInfo.len, if_neg hk, if_neg hk]
  · rw [resize, Function.update_of_ne hts]

/-- The last one has it. -/
theorem resize_len_top (carve : SlabInfo → Carve) (s : SlabInfo) (last : ℕ) :
    s.len (resize carve s last s) (carve s).top = last := by
  rw [resize, Function.update_self, SlabInfo.len, if_pos rfl]

/-- What may be on a list does not depend on sizes. -/
theorem node_resize {s t : SlabInfo} {last k x : ℕ} :
    Node slabs (resize carve s last) t k x ↔ Node slabs carve t k x :=
  ⟨fun h => ⟨h.mem, resize_top carve s t last ▸ h.le, h.eq⟩,
    fun h => ⟨h.mem, (resize_top carve s t last).symm ▸ h.le, h.eq⟩⟩

namespace Carved

variable (hc : Carved slabs carve mem)

include hc

/-- The words of a node are not headers of regions. -/
theorem node_ne_region {s t : SlabInfo} {j k x : ℕ} (hx : Node slabs carve s j x) (ht : t ∈ slabs)
    (hk : k ≤ (carve t).top) : t.region k ≠ x ∧ t.region k ≠ x + 8 :=
  ⟨fun h => hc.node_not_fixed hx (.inl rfl) t ht (.region k hk h.symm),
    fun h => hc.node_not_fixed hx (.inr rfl) t ht (.region k hk h.symm)⟩

/-- The headers of other regions stay. -/
theorem touches_region {r : ℕ} {N : List ℕ} (ht : Touches r N mem mem')
    (hN : ∀ y ∈ N, ∃ s k, Node slabs carve s k y) {s : SlabInfo} {k : ℕ} (hs : s ∈ slabs)
    (hk : k ≤ (carve s).top) (hne : s.region k ≠ r) : mem' (s.region k) = mem (s.region k) := by
  refine ht _ hne fun y hy => ?_
  obtain ⟨t, j, hnode⟩ := hN y hy
  exact hc.node_ne_region hnode hs hk

/-- The words of another node. -/
theorem touches_node {s t : SlabInfo} {j k x : ℕ} {N : List ℕ}
    (ht : Touches (s.region k) N mem mem') (hs : s ∈ slabs) (hk : k ≤ (carve s).top)
    (hN : ∀ y ∈ N, ∃ s k, Node slabs carve s k y) (hx : Node slabs carve t j x) (hxN : x ∉ N) :
    mem' x = mem x ∧ mem' (x + 8) = mem (x + 8) := by
  obtain ⟨hr, hr'⟩ := hc.node_ne_region hx hs hk
  have hother : ∀ y ∈ N, x + 24 ≤ y ∨ y + 24 ≤ x := fun y hy => by
    obtain ⟨t', j', hnode⟩ := hN y hy
    exact hc.node_apart hx hnode fun h => hxN (h ▸ hy)
  refine ⟨ht _ hr.symm fun y hy => ?_, ht _ hr'.symm fun y hy => ?_⟩
  · have := hother y hy
    omega
  · have := hother y hy
    omega

/-- The header of a region is rewritten, and its size if it is the last one. -/
theorem reheader {s : SlabInfo} {k last flags : ℕ} {N : List ℕ} (hs : s ∈ slabs)
    (hk : k ≤ (carve s).top) (ht : Touches (s.region k) N mem mem')
    (hN : ∀ y ∈ N, ∃ s k, Node slabs carve s k y) (helt : s.elt ≤ last)
    (hlast : last ≤ (carve s).last) (hother : k ≠ (carve s).top → last = (carve s).last)
    (hflags : flags < 2 ^ 17)
    (hmem : mem' (s.region k) = pack (s.len (resize carve s last s) k) k flags) :
    Carved slabs (resize carve s last) mem' := by
  have hfix : ∀ a, a ≠ s.region k → (∃ t ∈ slabs, t.Fixed (carve t) a) → mem' a = mem a := by
    rintro a ha ⟨t, htm, hfixed⟩
    refine ht a ha fun y hy => ?_
    obtain ⟨u, j, hnode⟩ := hN y hy
    exact ⟨fun h => hc.node_not_fixed hnode (.inl h) t htm hfixed,
      fun h => hc.node_not_fixed hnode (.inr h) t htm hfixed⟩
  have hsr : s.Fixed (carve s) (s.region k) := .region k hk rfl
  have hne : ∀ t ∈ slabs, t ≠ s → ∀ a, t.Fixed (carve t) a → a ≠ s.region k := by
    rintro t htm hts _ hfixed rfl
    have h₁ := (hc.fits t htm).fixed_mem hfixed
    have h₂ := (hc.fits s hs).fixed_mem hsr
    have := hc.apart t htm s hs hts
    rw [SlabInfo.Apart] at this
    omega
  refine ⟨fun t htm => ?_, fun t htm => ?_, hc.apart⟩
  · by_cases hts : t = s
    · subst hts
      rw [resize, Function.update_self]
      obtain ⟨h₁, h₂, h₃, h₄, h₅, -, h₇, h₈⟩ := hc.fits t hs
      exact ⟨h₁, h₂, h₃, h₄, h₅, helt, by simp only; omega, h₈⟩
    · rw [resize, Function.update_of_ne hts]
      exact hc.fits t htm
  · by_cases hts : t = s
    · subst hts
      have hm := hc.marked t hs
      have hfoot := (hc.fits t hs).footer_eq
      have hend := (hc.fits t hs).region_end hk
      have hlen := (hc.fits t hs).elt_le_len k
      have hge := (hc.fits t hs).elt_ge
      have hlow := t.block_lt k
      rw [regionStructSize] at hge
      refine ⟨?_, ?_, ?_, fun j hj => ?_⟩
      · rw [hfix _ (by omega) ⟨t, hs, .header rfl⟩, hm.header]
      · rw [hfix _ (by omega) ⟨t, hs, .footerTag rfl⟩, hm.footerTag]
      · rw [hfix _ (by omega) ⟨t, hs, .footerSize rfl⟩, hm.footerSize]
      · rw [resize_top] at hj
        by_cases hjk : j = k
        · subst hjk
          exact ⟨flags, hflags, hmem⟩
        · obtain ⟨f, hf, hfm⟩ := hm.region j hj
          have hr : t.region j ≠ t.region k := fun h => hjk ((hc.fits t hs).region_inj h)
          refine ⟨f, hf, ?_⟩
          rw [hfix _ hr ⟨t, hs, .region j hj rfl⟩, hfm]
          by_cases hjt : j = (carve t).top
          · have hl : last = (carve t).last := hother fun h => hjk (hjt.trans h.symm)
            rw [hjt, resize_len_top, len_top, hl]
          · rw [resize_len_of_ne (.inr hjt)]
    · have hm := (hc.marked t htm).congr fun a ha => hfix a (hne t htm hts a ha) ⟨t, htm, ha⟩
      rwa [resize, Function.update_of_ne hts]

end Carved

end Words

/-! ### Lists -/

section Lists

variable {freeLists : Slot → ℕ} {mem mem' : ℕ → ℕ} {lists : Slot → List ℕ}

/-- The lists are in the words of their regions. -/
theorem Threaded.congr (ht : Threaded freeLists mem lists)
    (hmem : ∀ slot, ∀ y ∈ lists slot, mem' y = mem y ∧ mem' (y + 8) = mem (y + 8)) :
    Threaded freeLists mem' lists :=
  ⟨ht.heads, fun slot => (ht.rings slot).congr (hmem slot), ht.nodup, ht.disjoint⟩

/-- One list changes. -/
theorem Threaded.update (ht : Threaded freeLists mem lists) {slot : Slot} {L : List ℕ}
    (hring : Ring mem' L) (hnd : L.Nodup)
    (hmem : ∀ slot' ≠ slot, ∀ y ∈ lists slot', mem' y = mem y ∧ mem' (y + 8) = mem (y + 8))
    (hnot : ∀ y ∈ L, ∀ slot' ≠ slot, y ∉ lists slot') :
    Threaded (Function.update freeLists slot (L.headD 0)) mem' (Function.update lists slot L) := by
  refine ⟨fun g => ?_, fun g => ?_, fun g => ?_, fun {g g' y} hy hy' => ?_⟩
  · by_cases hg : g = slot
    · simp [hg]
    · simp [hg, ht.heads]
  · by_cases hg : g = slot
    · subst hg
      rwa [Function.update_self]
    · rw [Function.update_of_ne hg]
      exact (ht.rings g).congr (hmem g hg)
  · by_cases hg : g = slot
    · subst hg
      rwa [Function.update_self]
    · rw [Function.update_of_ne hg]
      exact ht.nodup g
  · by_cases hg : g = slot <;> by_cases hg' : g' = slot
    · rw [hg, hg']
    · rw [hg, Function.update_self] at hy
      rw [Function.update_of_ne hg'] at hy'
      exact absurd hy' (hnot y hy g' hg')
    · rw [hg', Function.update_self] at hy'
      rw [Function.update_of_ne hg] at hy
      exact absurd hy (hnot y hy' g hg)
    · rw [Function.update_of_ne hg] at hy
      rw [Function.update_of_ne hg'] at hy'
      exact ht.disjoint hy hy'

end Lists

/-- A region in use is not a free one. -/
theorem pack_zero_ne {size size' k : ℕ} (hsize : size < 2 ^ 30) (hsize' : size' < 2 ^ 30)
    (hk : k < 2 ^ 16) (head : Bool) : pack size k 0 ≠ pack size' k (freeFlags head) := by
  intro h
  have hfree : isFreed (pack size' k (freeFlags head)) :=
    (isFreed_pack hsize' hk).2 (freeFlags_mod head)
  rw [← h, isFreed_pack hsize hk] at hfree
  exact absurd hfree (by decide)

/-- Regions do not overlap, so neither do what is on the lists. -/
theorem Carved.spaced {slabs : List SlabInfo} {carve : SlabInfo → Carve} {mem : ℕ → ℕ}
    (hc : Carved slabs carve mem) {N : List ℕ} (hN : ∀ y ∈ N, ∃ s k, Node slabs carve s k y) :
    Spaced N where
  mod y hy := by
    obtain ⟨s, k, hnode⟩ := hN y hy
    exact hc.node_mod hnode
  ne_zero y hy := by
    obtain ⟨s, k, hnode⟩ := hN y hy
    have := hnode.eq
    omega
  apart y hy z hz := by
    obtain ⟨s, k, hy'⟩ := hN y hy
    obtain ⟨t, j, hz'⟩ := hN z hz
    intro h
    have := hc.node_apart hy' hz' (by omega)
    omega

namespace HeapInv

variable {b : Bins} {placed : Prop} {slabs : List SlabInfo} {live : List Obj}
  {carve : SlabInfo → Carve} {lists : Slot → List ℕ} {h h' : Heap}
  (hi : HeapInv b placed slabs live carve lists h)

include hi

/-- The slabs and the objects are in place. -/
theorem solid : Solid slabs live carve h.mem :=
  ⟨hi.carved, fun o ho =>
    let ⟨s, k, hnode, _, hlen, _⟩ := hi.objects o ho
    ⟨s, k, hnode, hlen⟩⟩

/-- What is on a list is a region. -/
theorem node_of_mem {slot : Slot} {x : ℕ} (hx : x ∈ lists slot) :
    ∃ s k, Node slabs carve s k x :=
  let ⟨s, k, hnode, _⟩ := hi.listed slot x hx
  ⟨s, k, hnode⟩

/-- No object is on a list. -/
theorem object_not_mem {o : Obj} (ho : o ∈ live) (slot : Slot) : o.ptr ∉ lists slot := by
  intro hx
  obtain ⟨s, k, hnode, -, -, hmem, -⟩ := hi.objects o ho
  obtain ⟨t, j, hnode', -, head, hmem'⟩ := hi.listed slot _ hx
  obtain ⟨rfl, rfl⟩ := hi.carved.node_unique hnode hnode'
  have hf := hi.carved.fits s hnode.mem
  refine pack_zero_ne ?_ (hf.len_lt hnode.le) (hf.index_lt hnode.le) head (hmem.symm.trans hmem')
  exact (hf.elt_le_len k).trans_lt (hf.len_lt hnode.le)

/-- Nothing but memory, the free lists and the mappings matters. -/
theorem congr (hmem : h'.mem = h.mem) (hfl : h'.freeLists = h.freeLists)
    (hmm : h'.mmapStates = h.mmapStates) : HeapInv b placed slabs live carve lists h' where
  carved := hmem ▸ hi.carved
  threaded := hmem ▸ hfl ▸ hi.threaded
  listed := hmem ▸ hi.listed
  objects := hmem ▸ hi.objects
  live_nodup := hi.live_nodup
  bins := hi.bins
  mmaps := hmm ▸ hi.mmaps
  separate := hmm ▸ hi.separate

/-- What is left when a call fails while it links nodes. -/
theorem solid_rewrites {N : List ℕ} (hN : ∀ y ∈ N, ∃ s k, Node slabs carve s k y)
    (hw : Rewrites N h h') : Solid slabs live carve h'.mem := by
  refine ⟨hi.carved.congr ?_, hi.solid.objects⟩
  rintro a ⟨t, htm, ha⟩
  refine hw.mem a fun y hy => ?_
  obtain ⟨s, k, hnode⟩ := hN y hy
  exact ⟨fun e => hi.carved.node_not_fixed hnode (.inl e) t htm ha,
    fun e => hi.carved.node_not_fixed hnode (.inr e) t htm ha⟩

/-- What is left when a call fails while it changes a list. -/
theorem solid_touches {s : SlabInfo} {k last flags : ℕ} {N : List ℕ} {mem' : ℕ → ℕ}
    (hs : s ∈ slabs) (hk : k ≤ (carve s).top) (ht : Touches (s.region k) N h.mem mem')
    (hN : ∀ y ∈ N, ∃ s k, Node slabs carve s k y) (helt : s.elt ≤ last)
    (hlast : last ≤ (carve s).last) (hother : k ≠ (carve s).top → last = (carve s).last)
    (hflags : flags < 2 ^ 17)
    (hmem : mem' (s.region k) = pack (s.len (resize carve s last s) k) k flags) :
    Solid slabs live (resize carve s last) mem' := by
  refine ⟨hi.carved.reheader hs hk ht hN helt hlast hother hflags hmem, fun o ho => ?_⟩
  obtain ⟨t, j, hnode, hlen⟩ := hi.solid.objects o ho
  refine ⟨t, j, node_resize.2 hnode, ?_⟩
  by_cases htop : t = s ∧ j = (carve s).top
  · obtain ⟨rfl, rfl⟩ := htop
    rw [len_top] at hlen
    rw [resize_len_top]
    omega
  · rw [resize_len_of_ne (by tauto), hlen]

end HeapInv

end Slab
end Sivfs
