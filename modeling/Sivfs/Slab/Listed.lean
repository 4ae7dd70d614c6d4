/-
# Lists and objects

A region goes on a list when it is freed or split off (`HeapInv.put`) and leaves it when it is
given to the program (`HeapInv.take`).  What the program writes to an object touches no header
and no node (`HeapInv.store`).
-/

import Sivfs.Slab.Invariant

namespace Sivfs
namespace Slab

namespace HeapInv

variable {b : Bins} {placed : Prop} {slabs : List SlabInfo} {live : List Obj}
  {carve : SlabInfo → Carve} {lists : Slot → List ℕ} {h h' : Heap}
  (hi : HeapInv b placed slabs live carve lists h)

include hi

/-- A region that is on no list is put on one. -/
theorem put {s : SlabInfo} {k x : ℕ} {slot : Slot} {L : List ℕ} {live' : List Obj} {head : Bool}
    (hx : Node slabs carve s k x) (hhome : Home placed s slot) (hnot : ∀ slot', x ∉ lists slot')
    (ht : Touches (s.region k) (x :: lists slot) h.mem h'.mem)
    (hfree : h'.mem (s.region k) = pack (s.len (carve s) k) k (freeFlags head))
    (hL : ∀ y, y ∈ L ↔ y = x ∨ y ∈ lists slot) (hnd : L.Nodup) (hring : Ring h'.mem L)
    (hfl : h'.freeLists = Function.update h.freeLists slot (L.headD 0))
    (hmm : h'.mmapStates = h.mmapStates) (hlive : live'.Sublist live)
    (hgone : ∀ o ∈ live', o.ptr ≠ x) :
    HeapInv b placed slabs live' carve (Function.update lists slot L) h' := by
  have hN : ∀ y ∈ x :: lists slot, ∃ s k, Node slabs carve s k y := by
    intro y hy
    rcases List.mem_cons.1 hy with rfl | hy
    · exact ⟨s, k, hx⟩
    · exact hi.node_of_mem hy
  have hregion : ∀ t j y, Node slabs carve t j y → y ≠ x →
      h'.mem (t.region j) = h.mem (t.region j) := fun t j y hnode hne =>
    hi.carved.touches_region ht hN hnode.mem hnode.le fun heq => hne <| by
      rw [hnode.eq, hx.eq, heq]
  have hf := hi.carved.fits s hx.mem
  have hsame : resize carve s (carve s).last = carve := Function.update_eq_self s carve
  refine ⟨?_, ?_, fun g y hy => ?_, fun o ho => ?_, hi.live_nodup.sublist (hlive.map _), hi.bins,
    ?_, ?_⟩
  · rw [← hsame]
    exact hi.carved.reheader hx.mem hx.le ht hN hf.last_ge le_rfl (fun _ => rfl)
      (freeFlags_lt head) (by rw [hsame, hfree])
  · rw [hfl]
    refine hi.threaded.update hring hnd (fun g hg y hy => ?_) fun y hy g hg hyg => ?_
    · obtain ⟨t, j, hnode⟩ := hi.node_of_mem hy
      refine hi.carved.touches_node ht hx.mem hx.le hN hnode fun hyN => ?_
      rcases List.mem_cons.1 hyN with rfl | hyN
      · exact hnot g hy
      · exact hg (hi.threaded.disjoint hy hyN)
    · rcases (hL y).1 hy with rfl | hy
      · exact hnot g hyg
      · exact hg (hi.threaded.disjoint hyg hy)
  · by_cases hyx : y = x
    · subst hyx
      have hg : g = slot := by
        by_contra hg
        rw [Function.update_of_ne hg] at hy
        exact hnot g hy
      exact ⟨s, k, hx, hg ▸ hhome, head, hfree⟩
    · have hy' : y ∈ lists g := by
        by_cases hg : g = slot
        · subst hg
          rw [Function.update_self] at hy
          exact ((hL y).1 hy).resolve_left hyx
        · rwa [Function.update_of_ne hg] at hy
      obtain ⟨t, j, hnode, hhome', hd, hm⟩ := hi.listed g y hy'
      exact ⟨t, j, hnode, hhome', hd, by rw [hregion t j y hnode hyx, hm]⟩
  · obtain ⟨t, j, hnode, hhome', hl, hm, hsize⟩ := hi.objects o (hlive.subset ho)
    exact ⟨t, j, hnode, hhome', hl, by rw [hregion t j _ hnode (hgone o ho), hm], hsize⟩
  · rw [hmm]
    exact hi.mmaps
  · rw [hmm]
    exact hi.separate

/-- A region is taken off its list and becomes an object. -/
theorem take {s : SlabInfo} {k x size last : ℕ} {slot : Slot} {L : List ℕ}
    (hmem : x ∈ lists slot) (hx : Node slabs carve s k x) (hhome : Home placed s slot)
    (hlast : last = if k = (carve s).top then s.elt else (carve s).last)
    (ht : Touches (s.region k) (lists slot) h.mem h'.mem)
    (hused : h'.mem (s.region k) = pack s.elt k 0)
    (hL : ∀ y, y ∈ L ↔ y ∈ lists slot ∧ y ≠ x) (hnd : L.Nodup) (hring : Ring h'.mem L)
    (hfl : h'.freeLists = Function.update h.freeLists slot (L.headD 0))
    (hmm : h'.mmapStates = h.mmapStates)
    (hsize : size ≤ 2 ^ 64 - 16 → size + regionHeaderSize ≤ s.elt) :
    HeapInv b placed slabs (⟨x, size, slot⟩ :: live) (resize carve s last)
      (Function.update lists slot L) h' := by
  have hN : ∀ y ∈ lists slot, ∃ s k, Node slabs carve s k y := fun y hy => hi.node_of_mem hy
  have hf := hi.carved.fits s hx.mem
  have hregion : ∀ t j y, Node slabs carve t j y → y ≠ x →
      h'.mem (t.region j) = h.mem (t.region j) := fun t j y hnode hne =>
    hi.carved.touches_region ht hN hnode.mem hnode.le fun heq => hne <| by
      rw [hnode.eq, hx.eq, heq]
  have hlen : s.len (resize carve s last s) k = s.elt := by
    by_cases hk : k = (carve s).top
    · rw [hk, resize_len_top, hlast, if_pos hk]
    · rw [resize_len_of_ne (.inr hk), SlabInfo.len, if_neg hk]
  have hlen' : ∀ t j y, Node slabs carve t j y → y ≠ x →
      t.len (resize carve s last t) j = t.len (carve t) j := by
    intro t j y hnode hne
    by_cases hk : k = (carve s).top
    · refine resize_len_of_ne ?_ _
      by_contra hboth
      push Not at hboth
      obtain ⟨rfl, hj⟩ := hboth
      exact hne (by rw [hnode.eq, hx.eq, hj, hk])
    · rw [hlast, if_neg hk, resize, Function.update_eq_self]
  have hlast_ge : s.elt ≤ last := by
    have := hf.last_ge
    rw [hlast]
    split_ifs <;> omega
  have hlast_le : last ≤ (carve s).last := by
    have := hf.last_ge
    rw [hlast]
    split_ifs <;> omega
  refine ⟨?_, ?_, fun g y hy => ?_, fun o ho => ?_, ?_, hi.bins, ?_, ?_⟩
  · exact hi.carved.reheader hx.mem hx.le ht hN hlast_ge hlast_le
      (fun hk => by rw [hlast, if_neg hk]) (show 0 < 2 ^ 17 by decide) (by rw [hused, hlen])
  · rw [hfl]
    refine hi.threaded.update hring hnd (fun g hg y hy => ?_) fun y hy g hg hyg => ?_
    · obtain ⟨t, j, hnode⟩ := hi.node_of_mem hy
      exact hi.carved.touches_node ht hx.mem hx.le hN hnode fun hyN =>
        hg (hi.threaded.disjoint hy hyN)
    · exact hg (hi.threaded.disjoint hyg ((hL y).1 hy).1)
  · have hy' : y ∈ lists g ∧ y ≠ x := by
      by_cases hg : g = slot
      · subst hg
        rw [Function.update_self] at hy
        exact (hL y).1 hy
      · rw [Function.update_of_ne hg] at hy
        exact ⟨hy, fun e => hg (hi.threaded.disjoint (e ▸ hy) hmem)⟩
    obtain ⟨t, j, hnode, hhome', hd, hm⟩ := hi.listed g y hy'.1
    exact ⟨t, j, node_resize.2 hnode, hhome', hd, by
      rw [hregion t j y hnode hy'.2, hlen' t j y hnode hy'.2, hm]⟩
  · rcases List.mem_cons.1 ho with rfl | ho
    · exact ⟨s, k, node_resize.2 hx, hhome, hlen, hused, hsize⟩
    · obtain ⟨t, j, hnode, hhome', hl, hm, hsize'⟩ := hi.objects o ho
      have hne : o.ptr ≠ x := fun e => hi.object_not_mem ho slot (e ▸ hmem)
      exact ⟨t, j, node_resize.2 hnode, hhome', by rw [hlen' t j _ hnode hne, hl],
        by rw [hregion t j _ hnode hne, hm], hsize'⟩
  · refine List.nodup_cons.2 ⟨fun hmap => ?_, hi.live_nodup⟩
    obtain ⟨o, ho, heq⟩ := List.mem_map.1 hmap
    exact hi.object_not_mem ho slot (heq ▸ hmem)
  · rw [hmm]
    exact hi.mmaps
  · rw [hmm]
    exact hi.separate

/-- The program writes to an object. -/
theorem store {o : Obj} (ho : o ∈ live) {a : ℕ} (hlow : o.ptr ≤ a)
    (hhigh : a + 8 ≤ regionOf o.ptr + regionSize (h.mem (regionOf o.ptr))) (value : ℕ) :
    HeapInv b placed slabs live carve lists (h.store a value) := by
  obtain ⟨s, k, hnode, -, hl, hm, -⟩ := hi.objects o ho
  have hf := hi.carved.fits s hnode.mem
  have hregion : regionOf o.ptr = s.region k := by
    rw [regionOf, regionHeaderSize, hnode.eq]
    omega
  have hsize : regionSize (h.mem (s.region k)) = s.elt := by
    rw [hm, regionSize_pack ?_ (hf.index_lt hnode.le) (show 0 < 2 ^ 17 by decide)]
    exact (hf.elt_le_len k).trans_lt (hf.len_lt hnode.le)
  rw [hregion, hsize] at hhigh
  rw [hnode.eq] at hlow
  have hfixed := hi.carved.not_fixed hnode.mem hnode.le hlow (by omega)
  have hother : ∀ t ∈ slabs, ∀ c, t.Fixed (carve t) c → (h.store a value).mem c = h.mem c := by
    rintro t htm c hc
    rw [store_mem, Function.update_of_ne]
    rintro rfl
    exact hfixed t htm hc
  have hregions : ∀ t j y, Node slabs carve t j y →
      (h.store a value).mem (t.region j) = h.mem (t.region j) := fun t j y hy =>
    hother t hy.mem _ (.region j hy.le rfl)
  refine ⟨hi.carved.congr ?_, hi.threaded.congr ?_, fun g y hy => ?_, fun o' ho' => ?_,
    hi.live_nodup, hi.bins, hi.mmaps, hi.separate⟩
  · rintro c ⟨t, htm, hc⟩
    exact hother t htm c hc
  · intro g y hy
    obtain ⟨t, j, hy'⟩ := hi.node_of_mem hy
    have hne : y ≠ o.ptr := fun e => hi.object_not_mem ho g (e ▸ hy)
    have hapart := hi.carved.region_apart hnode.mem hy'.mem hnode.le hy'.le fun e => hne <| by
      rw [hy'.eq, hnode.eq, e]
    have hlen := (hi.carved.fits t hy'.mem).elt_le_len j
    have hge := (hi.carved.fits t hy'.mem).elt_ge
    have hye := hy'.eq
    rw [regionStructSize] at hge
    rw [store_mem, Function.update_of_ne (by omega), Function.update_of_ne (by omega)]
    exact ⟨rfl, rfl⟩
  · obtain ⟨t, j, hy', hhome, hd, hm'⟩ := hi.listed g y hy
    exact ⟨t, j, hy', hhome, hd, by rw [hregions t j y hy', hm']⟩
  · obtain ⟨t, j, hy', hhome, hl', hm', hsize'⟩ := hi.objects o' ho'
    exact ⟨t, j, hy', hhome, hl', by rw [hregions t j _ hy', hm'], hsize'⟩

end HeapInv

end Slab
end Sivfs
