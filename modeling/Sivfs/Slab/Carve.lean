/-
# Slabs and the regions carved from them

A slab is a block with a header, a footer and, in between, regions of one size: the region
of index `k` is at `block + 8 + k * elt`.  The regions are carved one by one, and the region
of the largest index, `top`, holds what is left of the slab, `last` bytes.

`Carved` says that the words of all slabs are what this makes them.  It depends on the headers
of the blocks and of the regions and on the footers only, so it is kept by whatever is
written inside a region (`Carved.congr`, `Carved.not_fixed`).
-/

import Sivfs.Slab.Malloc

namespace Sivfs
namespace Slab

/-- A slab as it is created: its block, the size of its regions, its tag and the slot of the
list that it is put on. -/
structure SlabInfo where
  block : ℕ
  size : ℕ
  tag : ℕ
  elt : ℕ
  slot : Slot
  deriving DecidableEq, Repr

/-- How far a slab is carved. -/
structure Carve where
  /-- The largest index of a region. -/
  top : ℕ
  /-- The size of the region of that index. -/
  last : ℕ
  deriving DecidableEq, Repr

namespace SlabInfo

variable (s : SlabInfo) (c : Carve)

/-- The region of an index. -/
def region (k : ℕ) : ℕ := s.block + blockHeaderSize + k * s.elt

/-- The size of the region of an index. -/
def len (k : ℕ) : ℕ := if k = c.top then c.last else s.elt

/-- The footer of the block. -/
def footer : ℕ := s.block + s.size - blockFooterSize

/-- The numbers fit together. -/
structure Fits : Prop where
  block_mod : s.block % wordBytes = 0
  size_mod : s.size % wordBytes = 0
  elt_mod : s.elt % wordBytes = 0
  elt_ge : regionStructSize ≤ s.elt
  top_le : c.top ≤ maxSlabElts
  last_ge : s.elt ≤ c.last
  last_le : s.region c.top + c.last + blockFooterSize ≤ s.block + s.size
  size_lt : s.size < 2 ^ 30 + blockHeaderSize + blockFooterSize

/-- The words of the slab that are not inside a region. -/
inductive Fixed (a : ℕ) : Prop where
  | header (h : a = s.block)
  | footerTag (h : a = s.footer)
  | footerSize (h : a = s.footer + 8)
  | region (k : ℕ) (hk : k ≤ c.top) (h : a = s.region k)

/-- The words are those of a slab that is carved so. -/
structure Marked (mem : ℕ → ℕ) : Prop where
  header : mem s.block = s.size
  footerTag : mem s.footer = s.tag
  footerSize : mem (s.footer + 8) = s.size
  region : ∀ k ≤ c.top, ∃ flags < 2 ^ 17, mem (s.region k) = pack (s.len c k) k flags

end SlabInfo

/-! ### One slab -/

section Slab

variable {s : SlabInfo} {c : Carve}

@[simp] theorem len_top : s.len c c.top = c.last := if_pos rfl

/-- All regions but the last have the size of an element. -/
theorem len_of_lt {k : ℕ} (h : k < c.top) : s.len c k = s.elt := if_neg h.ne

/-- The first region is behind the header of the block. -/
theorem region_zero : s.region 0 = s.block + 8 := by
  rw [SlabInfo.region, Nat.zero_mul]
  rfl

/-- Each region is one element behind the one before. -/
theorem region_succ (k : ℕ) : s.region (k + 1) = s.region k + s.elt := by
  rw [SlabInfo.region, SlabInfo.region, Nat.succ_mul]
  omega

/-- Regions are in the order of their indices. -/
theorem region_mono {j k : ℕ} (h : j ≤ k) : s.region j ≤ s.region k :=
  Nat.add_le_add_left (Nat.mul_le_mul_right _ h) _

/-- A region begins where the one before it ends, or later. -/
theorem region_lt {j k : ℕ} (h : j < k) : s.region j + s.elt ≤ s.region k := by
  rw [← region_succ]
  exact region_mono h

/-- The same with the size a region has. -/
theorem region_before {j k : ℕ} (hjk : j < k) (hk : k ≤ c.top) :
    s.region j + s.len c j ≤ s.region k := by
  rw [len_of_lt (by omega)]
  exact region_lt hjk

/-- The header of the block is before every region. -/
theorem SlabInfo.block_lt (s : SlabInfo) (k : ℕ) : s.block + 8 ≤ s.region k := by
  rw [← region_zero]
  exact region_mono (Nat.zero_le k)

namespace SlabInfo.Fits

variable (hf : s.Fits c)

include hf

/-- A region has at least the size of an element. -/
theorem elt_le_len (k : ℕ) : s.elt ≤ s.len c k := by
  rw [SlabInfo.len]
  split_ifs
  · exact hf.last_ge
  · exact le_rfl

/-- Regions are aligned. -/
theorem region_mod (k : ℕ) : s.region k % 8 = 0 := by
  obtain ⟨hb, -, he, -, -, -, -, -⟩ := hf
  rw [wordBytes] at hb he
  rw [SlabInfo.region, blockHeaderSize, Nat.add_mod, Nat.mul_mod, he, Nat.mul_zero]
  omega

/-- A region ends before the next one and before the footer. -/
theorem region_end {k : ℕ} (hk : k ≤ c.top) : s.region k + s.len c k + 16 ≤ s.block + s.size := by
  have hlast := hf.last_le
  rw [blockFooterSize] at hlast
  rcases hk.eq_or_lt with rfl | hlt
  · rwa [len_top]
  · have := region_lt (s := s) hlt
    rw [len_of_lt hlt]
    omega

/-- The footer is at the end of the block. -/
theorem footer_eq : s.footer + 16 = s.block + s.size := by
  have h := hf.region_end le_rfl
  have := s.block_lt c.top
  rw [SlabInfo.footer, blockFooterSize]
  omega

/-- A region has one index. -/
theorem region_inj {j k : ℕ} (h : s.region j = s.region k) : j = k := by
  have helt := hf.elt_ge
  rw [regionStructSize] at helt
  rcases lt_trichotomy j k with hlt | rfl | hlt
  · have := region_lt (s := s) hlt
    omega
  · rfl
  · have := region_lt (s := s) hlt
    omega

/-- The size of a region fits into its field of the header. -/
theorem len_lt {k : ℕ} (hk : k ≤ c.top) : s.len c k < 2 ^ 30 := by
  have hend := hf.region_end hk
  have hlow := s.block_lt k
  have hsize := hf.size_lt
  rw [blockHeaderSize, blockFooterSize] at hsize
  omega

/-- So does its index. -/
theorem index_lt {k : ℕ} (hk : k ≤ c.top) : k < 2 ^ 16 := by
  have htop := hf.top_le
  have hmax : maxSlabElts = 2 ^ 16 - 1 := by decide
  omega

/-- The fixed words lie in the block. -/
theorem fixed_mem {a : ℕ} (h : s.Fixed c a) : s.block ≤ a ∧ a + 8 ≤ s.block + s.size := by
  have hend := hf.footer_eq
  have hlast := hf.region_end le_rfl
  have hlow := s.block_lt c.top
  cases h with
  | header h => omega
  | footerTag h => omega
  | footerSize h => omega
  | region k hk h =>
    have hk' := hf.region_end hk
    have helt := hf.elt_le_len k
    have hge := hf.elt_ge
    have hlow' := s.block_lt k
    rw [regionStructSize] at hge
    omega

/-- What is inside a region is not fixed. -/
theorem not_fixed {a k : ℕ} (hk : k ≤ c.top) (hlow : s.region k + 8 ≤ a)
    (hhigh : a + 8 ≤ s.region k + s.len c k) : ¬s.Fixed c a := by
  have hend := hf.region_end hk
  have hfoot := hf.footer_eq
  have hblock := s.block_lt k
  intro h
  cases h with
  | header h => omega
  | footerTag h => omega
  | footerSize h => omega
  | region j hj h =>
    rcases lt_or_ge k j with hkj | hjk
    · have := region_before (s := s) hkj hj
      omega
    · have := region_mono (s := s) hjk
      omega

end SlabInfo.Fits

/-- The fixed words are all that matters. -/
theorem SlabInfo.Marked.congr {mem mem' : ℕ → ℕ} (h : s.Marked c mem)
    (hfixed : ∀ a, s.Fixed c a → mem' a = mem a) : s.Marked c mem' where
  header := (hfixed _ (.header rfl)).trans h.header
  footerTag := (hfixed _ (.footerTag rfl)).trans h.footerTag
  footerSize := (hfixed _ (.footerSize rfl)).trans h.footerSize
  region k hk := by
    obtain ⟨flags, hflags, hmem⟩ := h.region k hk
    exact ⟨flags, hflags, (hfixed _ (.region k hk rfl)).trans hmem⟩

/-- **A region leads back to its block.** -/
theorem blockHead_region {mem : ℕ → ℕ} (hf : s.Fits c) (hm : s.Marked c mem) {k : ℕ}
    (hk : k ≤ c.top) (hlen : s.len c k = s.elt) : blockHead mem (s.region k) = some s.block := by
  obtain ⟨flags, hflags, hmem⟩ := hm.region k hk
  obtain ⟨flags₀, hflags₀, hmem₀⟩ := hm.region 0 (Nat.zero_le _)
  have hsize := hf.len_lt hk
  have hindex := hf.index_lt hk
  have hsize₀ := hf.len_lt (Nat.zero_le c.top)
  have hpos : s.size ≠ 0 := by
    have := hf.region_end le_rfl
    have := s.block_lt c.top
    omega
  have hfirst : s.region k - k * s.elt = s.region 0 := by
    rw [SlabInfo.region, SlabInfo.region]
    omega
  have hhead : s.region 0 - blockHeaderSize = s.block := by
    rw [region_zero, blockHeaderSize]
    omega
  have hfoot : footerSize mem s.block s.size = s.size := hm.footerSize
  rw [blockHead, hmem, pack_and_bigAllocationFlag hsize hindex hflags, if_neg (by simp),
    regionSlabIndex_pack hsize hindex, regionSize_pack hsize hindex hflags, hlen]
  simp only [hfirst, hmem₀, regionSlabIndex_pack hsize₀ (show 0 < 2 ^ 16 by decide), hhead,
    hm.header, hfoot, ne_eq, not_true_eq_false, if_false, if_neg hpos]

/-- The block of a slab has the tag of the slab. -/
theorem blockTag_block {mem : ℕ → ℕ} (hf : s.Fits c) (hm : s.Marked c mem) :
    blockTag mem s.block = some s.tag := by
  have hsize := hf.size_lt
  rw [blockHeaderSize, blockFooterSize] at hsize
  have hpos : s.size ≠ 0 := by
    have := hf.region_end le_rfl
    have := s.block_lt c.top
    omega
  have hclear : s.size &&& complement bigAllocationFlag = s.size := by
    have hsame : s.size % 2 ^ 63 = s.size := Nat.mod_eq_of_lt (by omega)
    rw [show complement bigAllocationFlag = 2 ^ 63 - 1 by decide, Nat.and_two_pow_sub_one_eq_mod,
      hsame]
  have hfoot : footerSize mem s.block s.size = s.size := hm.footerSize
  have htag : mem (s.block + s.size - blockFooterSize) = s.tag := hm.footerTag
  rw [blockTag, hm.header, hclear]
  simp only [if_neg hpos, hfoot, htag, ne_eq, not_true_eq_false, if_false]

end Slab

/-! ### All slabs -/

/-- The blocks of two slabs do not meet. -/
def SlabInfo.Apart (s t : SlabInfo) : Prop :=
  s.block + s.size ≤ t.block ∨ t.block + t.size ≤ s.block

/-- All slabs are carved as `carve` says. -/
structure Carved (slabs : List SlabInfo) (carve : SlabInfo → Carve) (mem : ℕ → ℕ) : Prop where
  fits : ∀ s ∈ slabs, s.Fits (carve s)
  marked : ∀ s ∈ slabs, s.Marked (carve s) mem
  apart : ∀ s ∈ slabs, ∀ t ∈ slabs, s ≠ t → s.Apart t

/-- `x` is the list node of a region. -/
structure Node (slabs : List SlabInfo) (carve : SlabInfo → Carve) (s : SlabInfo) (k x : ℕ) :
    Prop where
  mem : s ∈ slabs
  le : k ≤ (carve s).top
  eq : x = s.region k + 8

namespace Carved

variable {slabs : List SlabInfo} {carve : SlabInfo → Carve} {mem mem' : ℕ → ℕ}
  (hc : Carved slabs carve mem)

include hc

/-- What is inside a region is not fixed in any slab. -/
theorem not_fixed {s : SlabInfo} {a k : ℕ} (hs : s ∈ slabs) (hk : k ≤ (carve s).top)
    (hlow : s.region k + 8 ≤ a) (hhigh : a + 8 ≤ s.region k + s.len (carve s) k) :
    ∀ t ∈ slabs, ¬t.Fixed (carve t) a := by
  intro t ht hfix
  by_cases hst : s = t
  · subst hst
    exact (hc.fits s hs).not_fixed hk hlow hhigh hfix
  · have hin := (hc.fits t ht).fixed_mem hfix
    have hend := (hc.fits s hs).region_end hk
    have hblock := s.block_lt k
    have := hc.apart s hs t ht hst
    rw [SlabInfo.Apart] at this
    omega

/-- Only the fixed words of the slabs matter. -/
theorem congr (h : ∀ a, (∃ s ∈ slabs, s.Fixed (carve s) a) → mem' a = mem a) :
    Carved slabs carve mem' where
  fits := hc.fits
  marked s hs := (hc.marked s hs).congr fun a ha => h a ⟨s, hs, ha⟩
  apart := hc.apart

/-- The words of a node are inside its region. -/
theorem node_not_fixed {s : SlabInfo} {k x a : ℕ} (hx : Node slabs carve s k x)
    (ha : a = x ∨ a = x + 8) : ∀ t ∈ slabs, ¬t.Fixed (carve t) a := by
  have helt := (hc.fits s hx.mem).elt_ge
  have hlen := (hc.fits s hx.mem).elt_le_len k
  have heq := hx.eq
  rw [regionStructSize] at helt
  exact hc.not_fixed hx.mem hx.le (by omega) (by omega)

/-- Two regions do not meet. -/
theorem region_apart {s t : SlabInfo} {j k : ℕ} (hs : s ∈ slabs) (ht : t ∈ slabs)
    (hj : j ≤ (carve s).top) (hk : k ≤ (carve t).top) (hne : s.region j ≠ t.region k) :
    s.region j + s.len (carve s) j ≤ t.region k ∨ t.region k + t.len (carve t) k ≤ s.region j := by
  by_cases hst : s = t
  · subst hst
    rcases lt_trichotomy j k with hlt | rfl | hlt
    · exact .inl (region_before hlt hk)
    · exact absurd rfl hne
    · exact .inr (region_before hlt hj)
  · have hends := (hc.fits s hs).region_end hj
    have hendt := (hc.fits t ht).region_end hk
    have hlows := s.block_lt j
    have hlowt := t.block_lt k
    have := hc.apart s hs t ht hst
    rw [SlabInfo.Apart] at this
    omega

/-- The nodes of two regions are at least a region apart. -/
theorem node_apart {s t : SlabInfo} {j k x y : ℕ} (hx : Node slabs carve s j x)
    (hy : Node slabs carve t k y) (hne : x ≠ y) : x + 24 ≤ y ∨ y + 24 ≤ x := by
  have hxe := hx.eq
  have hye := hy.eq
  have hs := (hc.fits s hx.mem).elt_le_len j
  have ht := (hc.fits t hy.mem).elt_le_len k
  have hs' := (hc.fits s hx.mem).elt_ge
  have ht' := (hc.fits t hy.mem).elt_ge
  rw [regionStructSize] at hs' ht'
  have := hc.region_apart hx.mem hy.mem hx.le hy.le (by omega)
  omega

/-- What is on a free list is aligned. -/
theorem node_mod {s : SlabInfo} {k x : ℕ} (hx : Node slabs carve s k x) : x % 8 = 0 := by
  have := (hc.fits s hx.mem).region_mod k
  have := hx.eq
  omega

/-- A region belongs to one slab. -/
theorem node_unique {s t : SlabInfo} {j k x : ℕ} (hx : Node slabs carve s j x)
    (hy : Node slabs carve t k x) : s = t ∧ j = k := by
  have heq : s.region j = t.region k := by
    have := hx.eq
    have := hy.eq
    omega
  by_cases hst : s = t
  · subst hst
    exact ⟨rfl, (hc.fits s hx.mem).region_inj heq⟩
  · have hends := (hc.fits s hx.mem).region_end hx.le
    have hendt := (hc.fits t hy.mem).region_end hy.le
    have hlows := s.block_lt j
    have hlowt := t.block_lt k
    have := hc.apart s hx.mem t hy.mem hst
    rw [SlabInfo.Apart] at this
    omega

/-- Behind the last region of a slab there is none. -/
theorem not_node {s t : SlabInfo} {j k : ℕ} (hs : s ∈ slabs) (hk : (carve s).top < k)
    (hend : s.region k + 8 ≤ s.block + s.size) : ¬Node slabs carve t j (s.region k + 8) := by
  intro hx
  have hxe := hx.eq
  by_cases hst : s = t
  · subst hst
    have := (hc.fits s hs).region_inj (show s.region j = s.region k by omega)
    have := hx.le
    omega
  · have hendt := (hc.fits t hx.mem).region_end hx.le
    have hlowt := t.block_lt j
    have hlow := s.block_lt k
    have := hc.apart s hs t hx.mem hst
    rw [SlabInfo.Apart] at this
    omega

end Carved

end Slab
end Sivfs
