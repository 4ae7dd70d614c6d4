/-
# Slabs and regions

A slab starts with one region (`HeapInv.create`).  Later its last region is cut to the size of
an element (`HeapInv.shrink`) and the rest becomes a region of its own (`HeapInv.extend`), for
which there is `Room`.  For the words of slabs alone these are `Carved.cons`, `.reheader` and
`.extend`.
-/

import Sivfs.Slab.Invariant

namespace Sivfs
namespace Slab

/-! ### One more slab -/

section Fresh

variable {slabs : List SlabInfo} {carve : SlabInfo → Carve} {mem : ℕ → ℕ} {s : SlabInfo} {c : Carve}
  (hfits : s.Fits c) (hfresh : ∀ t ∈ slabs, t.Apart s)

include hfits hfresh

/-- A slab that meets no other is none of them. -/
theorem ne_of_apart {t : SlabInfo} (ht : t ∈ slabs) : t ≠ s := by
  rintro rfl
  have hapart := hfresh t ht
  have hend := hfits.region_end (Nat.zero_le _)
  have hlow := t.block_lt 0
  rw [SlabInfo.Apart] at hapart
  omega

/-- So the others are carved as they were. -/
theorem carve_of_apart {t : SlabInfo} (ht : t ∈ slabs) : Function.update carve s c t = carve t :=
  Function.update_of_ne (ne_of_apart hfits hfresh ht) _ _

/-- And their nodes stay nodes. -/
theorem Node.cons {t : SlabInfo} {j x : ℕ} (hx : Node slabs carve t j x) :
    Node (s :: slabs) (Function.update carve s c) t j x := by
  refine ⟨List.mem_cons_of_mem _ hx.mem, ?_, hx.eq⟩
  rw [carve_of_apart hfits hfresh hx.mem]
  exact hx.le

namespace Carved

variable (hc : Carved slabs carve mem)

include hc

omit hfits in
/-- The words of a node of another slab are not in the new one. -/
theorem node_outside {t : SlabInfo} {j x : ℕ} (hx : Node slabs carve t j x) :
    x + 16 ≤ s.block ∨ s.block + s.size < x + 8 := by
  have hend := (hc.fits t hx.mem).region_end hx.le
  have hlen := (hc.fits t hx.mem).elt_le_len j
  have hge := (hc.fits t hx.mem).elt_ge
  have hlow := t.block_lt j
  have hapart := hfresh t hx.mem
  have hxe := hx.eq
  rw [SlabInfo.Apart] at hapart
  rw [regionStructSize] at hge
  omega

/-- **The slabs and a new one.** -/
theorem cons (hmarked : s.Marked c mem) :
    Carved (s :: slabs) (Function.update carve s c) mem := by
  refine ⟨fun t ht => ?_, fun t ht => ?_, fun t ht u hu htu => ?_⟩
  · rcases List.mem_cons.1 ht with rfl | ht
    · rwa [Function.update_self]
    · rw [carve_of_apart hfits hfresh ht]
      exact hc.fits t ht
  · rcases List.mem_cons.1 ht with rfl | ht
    · rwa [Function.update_self]
    · rw [carve_of_apart hfits hfresh ht]
      exact hc.marked t ht
  · rcases List.mem_cons.1 ht with rfl | ht'
    · exact (hfresh u ((List.mem_cons.1 hu).resolve_left htu.symm)).symm
    · rcases List.mem_cons.1 hu with rfl | hu'
      · exact hfresh t ht'
      · exact hc.apart t ht' u hu' htu

end Carved

end Fresh

/-! ### One more region -/

section Room

variable {slabs : List SlabInfo} {carve : SlabInfo → Carve} {mem : ℕ → ℕ} {s : SlabInfo}
  {top rest : ℕ}

/-- The last region of a slab has the size of an element, and behind it there is room for one of
size `rest`. -/
structure Room (carve : SlabInfo → Carve) (s : SlabInfo) (top rest : ℕ) : Prop where
  carve : carve s = ⟨top, s.elt⟩
  top_lt : top + 1 ≤ maxSlabElts
  rest_ge : s.elt ≤ rest
  fits : s.region (top + 1) + rest + blockFooterSize ≤ s.block + s.size

namespace Room

variable (hr : Room carve s top rest)

include hr

/-- It is behind the others. -/
theorem region_le {j : ℕ} (hj : j ≤ (carve s).top) : s.region j + s.elt ≤ s.region (top + 1) := by
  rw [hr.carve] at hj
  exact region_lt (Nat.lt_succ_of_le hj)

/-- A node stays a node. -/
theorem node {t : SlabInfo} {j x : ℕ} (hnode : Node slabs carve t j x) :
    Node slabs (Function.update carve s ⟨top + 1, rest⟩) t j x := by
  refine ⟨hnode.mem, ?_, hnode.eq⟩
  have hj := hnode.le
  by_cases hts : t = s
  · subst hts
    rw [hr.carve] at hj
    rw [Function.update_self]
    exact hj.trans (Nat.le_succ _)
  · rwa [Function.update_of_ne hts]

/-- A region keeps its size. -/
theorem len {t : SlabInfo} {j : ℕ} (hj : j ≤ (carve t).top) :
    t.len (Function.update carve s ⟨top + 1, rest⟩ t) j = t.len (carve t) j := by
  by_cases hts : t = s
  · subst hts
    rw [hr.carve] at hj
    rw [Function.update_self, len_of_lt (Nat.lt_succ_of_le hj), hr.carve, SlabInfo.len, ite_self]
  · rw [Function.update_of_ne hts]

end Room

namespace Carved

variable (hc : Carved slabs carve mem) (hs : s ∈ slabs) (hr : Room carve s top rest)

include hc hs hr

/-- The new header is in no other slab. -/
theorem ne_next {t : SlabInfo} {a : ℕ} (ht : t ∈ slabs) (hts : t ≠ s) (hlow : t.block ≤ a)
    (hend : a + 8 ≤ t.block + t.size) : a ≠ s.region (top + 1) := by
  rintro rfl
  have hfits := hr.fits
  have hlow' := s.block_lt (top + 1)
  have hapart := hc.apart t ht s hs hts
  rw [blockFooterSize] at hfits
  rw [SlabInfo.Apart] at hapart
  omega

/-- The word of the new header was inside a region. -/
theorem fixed_ne_next {t : SlabInfo} {a : ℕ} (ht : t ∈ slabs) (ha : t.Fixed (carve t) a) :
    a ≠ s.region (top + 1) := by
  by_cases hts : t = s
  · subst hts
    have hfits := hr.fits
    have hfoot := (hc.fits t hs).footer_eq
    have hge := (hc.fits t hs).elt_ge
    have hrest := hr.rest_ge
    have hlow := t.block_lt (top + 1)
    rw [blockFooterSize] at hfits
    rw [regionStructSize] at hge
    cases ha with
    | header e => omega
    | footerTag e => omega
    | footerSize e => omega
    | region j hj e =>
      have := hr.region_le hj
      omega
  · obtain ⟨hlow, hend⟩ := (hc.fits t ht).fixed_mem ha
    exact hc.ne_next hs hr ht hts hlow hend

/-- It is no word of a node. -/
theorem node_ne_next {t : SlabInfo} {j x : ℕ} (hnode : Node slabs carve t j x) :
    x ≠ s.region (top + 1) ∧ x + 8 ≠ s.region (top + 1) := by
  have hx := hnode.eq
  have hge := (hc.fits t hnode.mem).elt_ge
  have hj := hnode.le
  rw [regionStructSize] at hge
  by_cases hts : t = s
  · subst hts
    have := hr.region_le hj
    omega
  · have hend := (hc.fits t hnode.mem).region_end hj
    have hlen := (hc.fits t hnode.mem).elt_le_len j
    have hlow := t.block_lt j
    exact ⟨hc.ne_next hs hr hnode.mem hts (by omega) (by omega),
      hc.ne_next hs hr hnode.mem hts (by omega) (by omega)⟩

/-- **The slabs after a region was added**, with its header. -/
theorem extend {flags : ℕ} (hflags : flags < 2 ^ 17) :
    Carved slabs (Function.update carve s ⟨top + 1, rest⟩)
      (Function.update mem (s.region (top + 1)) (pack rest (top + 1) flags)) := by
  have hfix : ∀ t ∈ slabs, ∀ a, t.Fixed (carve t) a →
      Function.update mem (s.region (top + 1)) (pack rest (top + 1) flags) a = mem a :=
    fun t ht a ha => Function.update_of_ne (hc.fixed_ne_next hs hr ht ha) _ _
  refine ⟨fun t ht => ?_, fun t ht => ?_, hc.apart⟩
  · by_cases hts : t = s
    · subst hts
      have hf := hc.fits t hs
      rw [Function.update_self]
      exact ⟨hf.block_mod, hf.size_mod, hf.elt_mod, hf.elt_ge, hr.top_lt, hr.rest_ge, hr.fits,
        hf.size_lt⟩
    · rw [Function.update_of_ne hts]
      exact hc.fits t ht
  · have hm := hc.marked t ht
    by_cases hts : t = s
    · subst hts
      refine ⟨(hfix t hs _ (.header rfl)).trans hm.header,
        (hfix t hs _ (.footerTag rfl)).trans hm.footerTag,
        (hfix t hs _ (.footerSize rfl)).trans hm.footerSize, fun j hj => ?_⟩
      rw [Function.update_self] at hj
      rcases Nat.le_succ_iff.1 hj with hj | rfl
      · have hj' : j ≤ (carve t).top := by rwa [hr.carve]
        obtain ⟨f, hf, hfm⟩ := hm.region j hj'
        refine ⟨f, hf, ?_⟩
        rw [hfix t hs _ (.region j hj' rfl), hfm, hr.len hj']
      · refine ⟨flags, hflags, ?_⟩
        rw [Function.update_self, Function.update_self, SlabInfo.len, if_pos rfl]
    · rw [Function.update_of_ne hts]
      exact hm.congr fun a ha => hfix t ht a ha

end Carved

end Room

namespace HeapInv

variable {b : Bins} {placed : Prop} {slabs : List SlabInfo} {live : List Obj}
  {carve : SlabInfo → Carve} {lists : Slot → List ℕ} {h h' : Heap}
  (hi : HeapInv b placed slabs live carve lists h)

include hi

/-- The last region of a slab, a free one, becomes smaller. -/
theorem shrink {s : SlabInfo} {last : ℕ} {head : Bool} (hs : s ∈ slabs) (helt : s.elt ≤ last)
    (hlast : last ≤ (carve s).last)
    (hfree : h.mem (s.region (carve s).top) = pack (carve s).last (carve s).top (freeFlags head))
    (hmem : h'.mem = Function.update h.mem (s.region (carve s).top)
      (pack last (carve s).top (freeFlags head)))
    (hfl : h'.freeLists = h.freeLists) (hmm : h'.mmapStates = h.mmapStates) :
    HeapInv b placed slabs live (resize carve s last) lists h' := by
  have ht : Touches (s.region (carve s).top) [] h.mem h'.mem := fun a ha _ => by
    rw [hmem, Function.update_of_ne ha]
  have hself : h'.mem (s.region (carve s).top) = pack last (carve s).top (freeFlags head) := by
    rw [hmem, Function.update_self]
  have hf := hi.carved.fits s hs
  have hregion : ∀ t j, t ∈ slabs → j ≤ (carve t).top → ¬(t = s ∧ j = (carve s).top) →
      h'.mem (t.region j) = h.mem (t.region j) := fun t j htm hj hne =>
    hi.carved.touches_region ht (by simp) htm hj fun heq => hne <|
      hi.carved.node_unique ⟨htm, hj, rfl⟩ ⟨hs, le_rfl, by rw [heq]⟩
  refine ⟨?_, ?_, fun slot x hx => ?_, fun o ho => ?_, hi.live_nodup, hi.bins, ?_, ?_⟩
  · exact hi.carved.reheader hs le_rfl ht (by simp) helt hlast (by simp) (freeFlags_lt head)
      (by rw [hself, resize_len_top])
  · rw [hfl]
    refine hi.threaded.congr fun slot y hy => ?_
    obtain ⟨t, j, hnode⟩ := hi.node_of_mem hy
    exact hi.carved.touches_node ht hs le_rfl (by simp) hnode (by simp)
  · obtain ⟨t, j, hnode, hhome, hd, hm⟩ := hi.listed slot x hx
    refine ⟨t, j, node_resize.2 hnode, hhome, ?_⟩
    by_cases htop : t = s ∧ j = (carve s).top
    · obtain ⟨rfl, rfl⟩ := htop
      exact ⟨head, by rw [resize_len_top, hself]⟩
    · exact ⟨hd, by rw [hregion t j hnode.mem hnode.le htop, hm, resize_len_of_ne (by tauto)]⟩
  · obtain ⟨t, j, hnode, hhome, hlen, hm, hfits⟩ := hi.objects o ho
    have htop : ¬(t = s ∧ j = (carve s).top) := by
      rintro ⟨rfl, rfl⟩
      refine pack_zero_ne ?_ ?_ (hf.index_lt le_rfl) head (hm.symm.trans hfree)
      · exact (hf.elt_le_len _).trans_lt (hf.len_lt le_rfl)
      · have := hf.len_lt le_rfl
        rwa [len_top] at this
    refine ⟨t, j, node_resize.2 hnode, hhome, ?_, ?_, hfits⟩
    · rw [resize_len_of_ne (by tauto), hlen]
    · rw [hregion t j hnode.mem hnode.le htop, hm]
  · rw [hmm]
    exact hi.mmaps
  · rw [hmm]
    exact hi.separate

/-- The rest of a slab becomes a region of its own. -/
theorem extend {s : SlabInfo} {top rest : ℕ} {head : Bool} (hs : s ∈ slabs)
    (hcarve : carve s = ⟨top, s.elt⟩) (htop : top + 1 ≤ maxSlabElts) (hrest : s.elt ≤ rest)
    (hfits : s.region (top + 1) + rest + blockFooterSize ≤ s.block + s.size)
    (hmem : h'.mem = Function.update h.mem (s.region (top + 1))
      (pack rest (top + 1) (freeFlags head)))
    (hfl : h'.freeLists = h.freeLists) (hmm : h'.mmapStates = h.mmapStates) :
    HeapInv b placed slabs live (Function.update carve s ⟨top + 1, rest⟩) lists h' := by
  have hroom : Room carve s top rest := ⟨hcarve, htop, hrest, hfits⟩
  have hregion : ∀ t j x, Node slabs carve t j x → h'.mem (t.region j) = h.mem (t.region j) := by
    intro t j x hnode
    rw [hmem, Function.update_of_ne]
    exact hi.carved.fixed_ne_next hs hroom hnode.mem (.region j hnode.le rfl)
  refine ⟨?_, ?_, fun slot x hx => ?_, fun o ho => ?_, hi.live_nodup, hi.bins, ?_, ?_⟩
  · rw [hmem]
    exact hi.carved.extend hs hroom (freeFlags_lt head)
  · rw [hfl]
    refine hi.threaded.congr fun slot y hy => ?_
    obtain ⟨t, j, hnode⟩ := hi.node_of_mem hy
    obtain ⟨hne, hne'⟩ := hi.carved.node_ne_next hs hroom hnode
    rw [hmem]
    exact ⟨Function.update_of_ne hne _ _, Function.update_of_ne hne' _ _⟩
  · obtain ⟨t, j, hnode, hhome, hd, hm⟩ := hi.listed slot x hx
    refine ⟨t, j, hroom.node hnode, hhome, hd, ?_⟩
    rw [hregion t j x hnode, hroom.len hnode.le, hm]
  · obtain ⟨t, j, hnode, hhome, hl, hm, hsize⟩ := hi.objects o ho
    refine ⟨t, j, hroom.node hnode, hhome, ?_, ?_, hsize⟩
    · rw [hroom.len hnode.le, hl]
    · rw [hregion t j _ hnode, hm]
  · rw [hmm]
    exact hi.mmaps
  · rw [hmm]
    exact hi.separate

/-- What is written outside the slabs does not matter. -/
theorem outside {block size : ℕ}
    (hapart : ∀ t ∈ slabs, t.block + t.size ≤ block ∨ block + size ≤ t.block)
    (hmem : ∀ a, a < block ∨ block + size < a + 8 → h'.mem a = h.mem a)
    (hfl : h'.freeLists = h.freeLists) (hmm : h'.mmapStates = h.mmapStates) :
    HeapInv b placed slabs live carve lists h' := by
  have hfix : ∀ t ∈ slabs, ∀ a, t.Fixed (carve t) a → h'.mem a = h.mem a := by
    intro t htm a ha
    have := (hi.carved.fits t htm).fixed_mem ha
    have := hapart t htm
    exact hmem a (by omega)
  have hregion : ∀ t j y, Node slabs carve t j y → h'.mem (t.region j) = h.mem (t.region j) :=
    fun t j y hy => hfix t hy.mem _ (.region j hy.le rfl)
  refine ⟨hi.carved.congr ?_, ?_, fun g y hy => ?_, fun o ho => ?_, hi.live_nodup, hi.bins, ?_, ?_⟩
  · rintro a ⟨t, htm, ha⟩
    exact hfix t htm a ha
  · rw [hfl]
    refine hi.threaded.congr fun g y hy => ?_
    obtain ⟨t, j, hy'⟩ := hi.node_of_mem hy
    have hend := (hi.carved.fits t hy'.mem).region_end hy'.le
    have hlen := (hi.carved.fits t hy'.mem).elt_le_len j
    have hge := (hi.carved.fits t hy'.mem).elt_ge
    have hlow := t.block_lt j
    have hye := hy'.eq
    have := hapart t hy'.mem
    rw [regionStructSize] at hge
    exact ⟨hmem _ (by omega), hmem _ (by omega)⟩
  · obtain ⟨t, j, hy', hhome, hd, hm⟩ := hi.listed g y hy
    exact ⟨t, j, hy', hhome, hd, by rw [hregion t j y hy', hm]⟩
  · obtain ⟨t, j, hy', hhome, hl, hm, hsize⟩ := hi.objects o ho
    exact ⟨t, j, hy', hhome, hl, by rw [hregion t j _ hy', hm], hsize⟩
  · rw [hmm]
    exact hi.mmaps
  · rw [hmm]
    exact hi.separate

/-- A slab is made: one region, which is the list of its bin. -/
theorem create {s : SlabInfo} {last : ℕ} (hfits : s.Fits ⟨0, last⟩)
    (hmarked : s.Marked ⟨0, last⟩ h'.mem)
    (hfree : h'.mem (s.region 0) = pack last 0 (freeFlags true))
    (hring : Ring h'.mem [s.region 0 + 8]) (hempty : lists s.slot = [])
    (hfresh : ∀ t ∈ slabs, t.Apart s)
    (hmem : ∀ a, a < s.block ∨ s.block + s.size < a + 8 → h'.mem a = h.mem a)
    (hfl : h'.freeLists = Function.update h.freeLists s.slot (s.region 0 + 8))
    (hmm : h'.mmapStates = h.mmapStates) (hbin : b.getBin s.elt = .ok (some (s.slot.bin, s.elt)))
    (hmap : ∃ m, h.mmapStates[s.slot.mmap]? = some m ∧ m.tag = s.tag ∧
      (placed → m.start ≤ s.block ∧ s.block + s.size ≤ m.start + m.size)) :
    HeapInv b placed (s :: slabs) live (Function.update carve s ⟨0, last⟩)
      (Function.update lists s.slot [s.region 0 + 8]) h' := by
  have hold : HeapInv b placed slabs live carve lists { h with mem := h'.mem } :=
    hi.outside hfresh hmem rfl rfl
  have hcarve : ∀ {t}, t ∈ slabs → Function.update carve s ⟨0, last⟩ t = carve t :=
    fun ht => carve_of_apart hfits hfresh ht
  refine ⟨hold.carved.cons hfits hfresh hmarked, ?_, fun g y hy => ?_, fun o ho => ?_,
    hi.live_nodup, fun t htm => ?_, ?_, ?_⟩
  · rw [hfl]
    refine hi.threaded.update hring (List.nodup_singleton _) (fun g _ y hy => ?_)
      fun y hy g _ hyg => ?_
    · obtain ⟨t, j, hy'⟩ := hi.node_of_mem hy
      have hout := hi.carved.node_outside hfresh hy'
      exact ⟨hmem _ (by omega), hmem _ (by omega)⟩
    · obtain rfl := List.mem_singleton.1 hy
      obtain ⟨t, j, hy'⟩ := hi.node_of_mem hyg
      have hout := hi.carved.node_outside hfresh hy'
      have hend := hfits.region_end (le_refl 0)
      have hlow := s.block_lt 0
      omega
  · by_cases hg : g = s.slot
    · subst hg
      rw [Function.update_self, List.mem_singleton] at hy
      subst hy
      refine ⟨s, 0, ⟨List.mem_cons_self, Nat.zero_le _, rfl⟩, ⟨rfl, fun _ => rfl⟩, true, ?_⟩
      rw [hfree, Function.update_self, SlabInfo.len, if_pos rfl]
    · rw [Function.update_of_ne hg] at hy
      obtain ⟨t, j, hy', hhome, hd, hm⟩ := hold.listed g y hy
      exact ⟨t, j, hy'.cons hfits hfresh, hhome, hd, by rw [hcarve hy'.mem]; exact hm⟩
  · obtain ⟨t, j, hy', hhome, hl, hm, hsize⟩ := hold.objects o ho
    exact ⟨t, j, hy'.cons hfits hfresh, hhome, by rw [hcarve hy'.mem, hl], hm, hsize⟩
  · rcases List.mem_cons.1 htm with rfl | htm
    · exact hbin
    · exact hi.bins t htm
  · rw [hmm]
    intro t htm
    rcases List.mem_cons.1 htm with rfl | htm
    · exact hmap
    · exact hi.mmaps t htm
  · rw [hmm]
    exact hi.separate

end HeapInv

end Slab
end Sivfs
