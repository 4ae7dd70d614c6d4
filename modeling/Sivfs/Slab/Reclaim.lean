/-
# Free to a list

`sivfs_free_ws` finds the block of a region by its index, the bin by its size and the mapping
by its address and the tag of the block.  The region becomes the list of the bin or is put
behind the head, and is marked as free last (`wp_markFreed`).

If the blocks lie inside their mappings, and mappings of one tag are apart, the mapping is the
one that the block was made for.  So the list is the one that the object came from.
-/

import Sivfs.Slab.Refill

namespace Sivfs
namespace Slab

open Call

theorem wp_setRegionFlags {region flags : ℕ} {Q : Unit → Heap → Prop} {E : Failure → Heap → Prop}
    {s : Heap} (hflags : flags &&& complement allocationFlags = 0)
    (hmod : region % wordBytes = 0)
    (hok : Q () (s.write region (s.mem region &&& complement allocationFlags ||| flags)))
    (herr : E (.fatal .enomem)
      (s.store region (s.mem region &&& complement allocationFlags ||| flags))) :
    (setRegionFlags region flags).wp Q E s := by
  rw [setRegionFlags, wp_bind, wp_require]
  refine ⟨fun _ => ?_, fun hn => absurd hflags hn⟩
  rw [wp_bind, wp_get]
  exact wp_writeWs_of hmod hok herr

section

variable {b : Bins} {placed : Prop} {slabs : List SlabInfo} {live : List Obj}
  {carve : SlabInfo → Carve} {lists : Slot → List ℕ} {s : Heap} {o : Obj} {t : SlabInfo} {k : ℕ}
  {slot : Slot} (hi : HeapInv b placed slabs live carve lists s) (ho : o ∈ live)
  (hnode : Node slabs carve t k o.ptr) (hhome : Home placed t slot)
  (hlen : t.len (carve t) k = t.elt) (hmem : s.mem (t.region k) = pack t.elt k 0)

include hi ho hnode hhome hlen hmem

/-- **The region is on the list** and is marked as free. -/
theorem wp_markFreed {s₁ : Heap} {L : List ℕ} {f : Bool} {flags : ℕ}
    (hsame : ∀ a, (∀ y ∈ o.ptr :: lists slot, a ≠ y ∧ a ≠ y + 8) → s₁.mem a = s.mem a)
    (hfl : s₁.freeLists = Function.update s.freeLists slot (L.headD 0))
    (hmm : s₁.mmapStates = s.mmapStates) (hring : Ring s₁.mem L)
    (hL : ∀ y, y ∈ L ↔ y = o.ptr ∨ y ∈ lists slot) (hnd : L.Nodup)
    (hflags : flags = freeFlags f * 2 ^ 46) :
    (setRegionFlags (t.region k) flags).wp
      (fun _ s' => ∃ lists',
        HeapInv b placed slabs (live.filter fun p => p.ptr ≠ o.ptr) carve lists' s' ∧
        o.ptr ∈ lists' slot)
      (fun e s' => e = .fatal .enomem ∧ ∃ carve, Solid slabs live carve s'.mem) s₁ := by
  have hf := hi.carved.fits t hnode.mem
  have hN : ∀ y ∈ o.ptr :: lists slot, ∃ s k, Node slabs carve s k y := by
    intro y hy
    rcases List.mem_cons.1 hy with rfl | hy
    · exact ⟨t, k, hnode⟩
    · exact hi.node_of_mem hy
  have hne : ∀ y ∈ o.ptr :: lists slot, t.region k ≠ y ∧ t.region k ≠ y + 8 := fun y hy =>
    let ⟨_, _, hy⟩ := hN y hy
    hi.carved.node_ne_region hy hnode.mem hnode.le
  have hword : s₁.mem (t.region k) &&& complement allocationFlags ||| flags =
      pack t.elt k (freeFlags f) := by
    have := hf.len_lt hnode.le
    rw [hsame _ hne, hmem, hflags, word_freed (by omega) (hf.index_lt hnode.le)]
  have htouch : Touches (t.region k) (o.ptr :: lists slot) s.mem
      (Function.update s₁.mem (t.region k) (pack t.elt k (freeFlags f))) := fun a ha hy => by
    rw [Function.update_of_ne ha, hsame a hy]
  have hself : Function.update s₁.mem (t.region k) (pack t.elt k (freeFlags f)) (t.region k) =
      pack (t.len (carve t) k) k (freeFlags f) := by
    rw [Function.update_self, hlen]
  have hkeep : resize carve t (carve t).last = carve := Function.update_eq_self t carve
  refine wp_setRegionFlags ?_ (hf.region_mod k) ?_ ?_
  · rw [hflags]
    cases f <;> decide
  · rw [hword]
    refine ⟨_, hi.put hnode hhome (hi.object_not_mem ho) htouch hself hL hnd ?_ hfl hmm
      List.filter_sublist fun p hp => ?_, ?_⟩
    · refine hring.congr fun y hy => ?_
      have hy := hne y (by simpa using (hL y).1 hy)
      exact ⟨Function.update_of_ne hy.1.symm _ _, Function.update_of_ne hy.2.symm _ _⟩
    · simpa using List.of_mem_filter hp
    · rw [Function.update_self]
      exact (hL _).2 (.inl rfl)
  · rw [hword]
    refine ⟨rfl, resize carve t (carve t).last, hi.solid_touches hnode.mem hnode.le htouch hN
      hf.last_ge le_rfl (fun _ => rfl) (freeFlags_lt f) ?_⟩
    rw [hkeep, store_mem, hself]

/-- **A region is freed to a list.** -/
theorem wp_pushRegion : (pushRegion slot (s.freeLists slot) (t.region k)).wp
    (fun _ s' => ∃ lists',
      HeapInv b placed slabs (live.filter fun p => p.ptr ≠ o.ptr) carve lists' s' ∧
      o.ptr ∈ lists' slot)
    (fun e s' => e = .fatal .enomem ∧ ∃ carve, Solid slabs live carve s'.mem) s := by
  have hxe : t.region k + regionHeaderSize = o.ptr := hnode.eq.symm
  have hxmod := hi.carved.node_mod hnode
  have hN : ∀ y ∈ o.ptr :: lists slot, ∃ s k, Node slabs carve s k y := by
    intro y hy
    rcases List.mem_cons.1 hy with rfl | hy
    · exact ⟨t, k, hnode⟩
    · exact hi.node_of_mem hy
  have hx0 : o.ptr ≠ 0 := by
    have := hnode.eq
    omega
  have hxN : o.ptr ∈ o.ptr :: lists slot := List.mem_cons_self
  have hrefl : Rewrites (o.ptr :: lists slot) s s := ⟨fun _ _ => rfl, rfl, rfl⟩
  rw [pushRegion]
  simp only [hxe]
  by_cases hlist : s.freeLists slot = 0
  · have hempty := hi.lists_eq_nil hlist
    rw [if_pos hlist]
    have h₁ := hrefl.write hxN (.inl rfl) o.ptr
    have h₂ := h₁.write hxN (.inr rfl) o.ptr
    refine wp_writeWs_seq hxmod ⟨rfl, carve, hi.solid_rewrites hN (hrefl.store hxN (.inl rfl) _)⟩ ?_
    refine wp_writeWs_seq (by rw [wordBytes]; omega)
      ⟨rfl, carve, hi.solid_rewrites hN (h₁.store hxN (.inr rfl) _)⟩ ?_
    rw [wp_bind, wp_setFreeList]
    refine ⟨fun _ => ?_, fun _ => ⟨rfl, carve, hi.solid_rewrites hN ⟨h₂.mem, rfl, rfl⟩⟩⟩
    have hring : Ring ((s.write o.ptr o.ptr).write (o.ptr + 8) o.ptr).mem [o.ptr] := by
      refine ⟨pointer_eq_some.2 ⟨Function.update_self .., hx0⟩, pointer_eq_some.2 ⟨?_, hx0⟩⟩
      rw [lhPrev, write_mem, Function.update_of_ne (by omega), write_mem, Function.update_self]
    exact wp_markFreed hi ho hnode hhome hlen hmem h₂.mem rfl rfl hring (by simp [hempty])
      (List.nodup_singleton _)
        (show freedMagic ||| listHeadFlag = freeFlags true * 2 ^ 46 by decide)
  · obtain ⟨l, hl⟩ := hi.lists_eq_cons hlist
    have hring := hi.threaded.rings slot
    have hnd := hi.threaded.nodup slot
    have hsp := hi.carved.spaced hN
    have hx := hi.object_not_mem ho slot
    rw [hl] at hring hnd hsp hx
    rw [if_neg hlist, wp_bind]
    refine wp_lhAddWs hring hx hnd hsp (fun s₁ hw hring₁ => ?_) fun s₁ hw => ?_
    · rw [← hl] at hw
      refine wp_markFreed hi ho hnode hhome hlen hmem hw.mem ?_ hw.mmapStates hring₁
        (fun y => ?_) ?_
        (show freedMagic = freeFlags false * 2 ^ 46 by decide)
      · rw [hw.freeLists, List.headD_cons, Function.update_eq_self]
      · rw [hl]
        simp only [List.mem_cons]
        tauto
      · simp only [List.nodup_cons, List.mem_cons] at hnd hx ⊢
        tauto
    · rw [← hl] at hw
      exact ⟨rfl, carve, hi.solid_rewrites hN hw⟩

end

section

variable {b : Bins} {placed : Prop} {slabs : List SlabInfo} {live : List Obj}
  {carve : SlabInfo → Carve} {lists : Slot → List ℕ} {s : Heap} {o : Obj}
  (hi : HeapInv b placed slabs live carve lists s) (ho : o ∈ live)

include hi ho

/-- **`sivfs_free_ws`** of an object. -/
theorem wp_freeWs (answer : Except Errno Unit) : (freeWs b answer o.ptr).wp
    (fun _ s' => ∃ lists',
      HeapInv b placed slabs (live.filter fun p => p.ptr ≠ o.ptr) carve lists' s' ∧
      (placed → o.ptr ∈ lists' o.slot))
    (fun e s' => Failed b placed slabs live e s' ∧ (placed → e = .fatal .enomem)) s := by
  obtain ⟨t, k, hnode, hhome, hlen, hmem, -⟩ := hi.objects o ho
  have hf := hi.carved.fits t hnode.mem
  have helt : t.elt < 2 ^ 30 := hlen ▸ hf.len_lt hnode.le
  have hindex := hf.index_lt hnode.le
  have hge := hf.elt_ge
  have hend := hf.region_end hnode.le
  have hlow := t.block_lt k
  rw [regionStructSize] at hge
  have hregion : regionOf o.ptr = t.region k := by
    rw [regionOf, regionHeaderSize, hnode.eq]
    omega
  have hbinmod := (Bins.getBin_eq_some (hi.bins t hnode.mem)).1
  have hsub : subSize t.elt regionHeaderSize = t.elt - 8 :=
    subSize_of_le (by rw [regionHeaderSize]; omega) (by omega)
  have hslab : slabEltSize (t.elt - 8) = t.elt := by
    rw [slabEltSize, addSize, u64Size, regionHeaderSize, regionStructSize]
    omega
  have hbin : b.getBin (slabEltSize (t.elt - 8)) = .ok (some (t.slot.bin, t.elt)) := by
    rw [hslab]
    exact hi.bins t hnode.mem
  have hhead : (blockHead s.mem (t.region k)).bind (blockTag s.mem) = some t.tag := by
    rw [blockHead_region hf (hi.carved.marked t hnode.mem) hnode.le hlen, Option.bind_some,
      blockTag_block hf (hi.carved.marked t hnode.mem)]
  have hsize : regionSize (pack t.elt k 0) = t.elt :=
    regionSize_pack helt hindex (show 0 < 2 ^ 17 by decide)
  have hfound : placed → getMmapState s.mmapStates (t.region k) t.tag = some t.slot.mmap := by
    intro hp
    obtain ⟨m, hm, htag, hin⟩ := hi.mmaps t hnode.mem
    obtain ⟨hstart, hstop⟩ := hin hp
    exact (hi.separate hp).getMmapState_eq hm (by omega) (by omega) htag
  rw [freeWs]
  simp only [hregion]
  rw [wp_bind, wp_get, wp_bind, wp_require, hmem]
  refine ⟨fun _ => ?_, fun hn => absurd ?_ hn⟩
  · rw [freeRegion, pack_and_bigAllocationFlag helt hindex (show 0 < 2 ^ 17 by decide),
      if_neg (by simp), hsize, freeSlab, wp_bind, wp_bind, wp_require]
    refine ⟨fun _ => ?_, fun hn => absurd (show t.elt ≠ 0 by omega) hn⟩
    rw [wp_bind, wp_require]
    refine ⟨fun _ => ?_, fun hn => absurd ?_ hn⟩
    · rw [wp_bind, wp_get, hhead]
      simp only [hsub]
      rw [wp_bind]
      have hmod : (t.elt - 8) % wordBytes = 0 := by
        rw [wordBytes] at hbinmod ⊢
        omega
      refine wp_mono (wp_getFreeListSlot_free (by omega) hmod hbin) ?_ ?_
      · rintro r _ ⟨rfl, m, hm, rfl⟩
        have hplaced : placed → (⟨m, t.slot.bin⟩ : Slot) = o.slot := by
          intro hp
          have hmt := hfound hp
          rw [hm] at hmt
          rw [← hhome.slot hp, Option.some.inj hmt]
        have hthome : Home placed t ⟨m, t.slot.bin⟩ :=
          ⟨rfl, fun hp => (hhome.slot hp).trans (hplaced hp).symm⟩
        refine wp_mono (wp_pushRegion hi ho hnode hthome hlen hmem) ?_ ?_
        · rintro - s' ⟨lists', hi', hx⟩
          exact ⟨lists', hi'.congr rfl rfl rfl, fun hp => hplaced hp ▸ hx⟩
        · rintro _ s' ⟨rfl, hsolid⟩
          exact ⟨hsolid, fun _ => rfl⟩
      · rintro _ _ ⟨rfl, rfl, hnone⟩
        refine ⟨hi.failed _, fun hp => ?_⟩
        rw [hfound hp] at hnone
        cases hnone
    · rw [and_freedMagicMask, Nat.div_eq_of_lt (by omega)]
      rfl
  · rw [hregion, hmem, pack_and_freedMagicMask helt hindex]
    rfl

end

end Slab
end Sivfs
