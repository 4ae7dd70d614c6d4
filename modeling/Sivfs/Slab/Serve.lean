/-
# Malloc from a free list

`sivfs_malloc_ws` takes the region behind the head of a list, and the head itself when it is
the only one.  A region with room for two is split first, and only the last region of a slab
has that room; if it was the head, the iteration starts again and finds the rest behind the
head.  So the loop of `allocFrom` goes around at most twice (`wp_allocFrom`).
-/

import Sivfs.Slab.Refill
import Sivfs.Slab.Sizes

namespace Sivfs
namespace Slab

open Call

/-- The slot of a request and the size of the regions on its list. -/
def servedBy (b : Bins) (answer : Except Errno Alloc.AllocatorArgs) (zone tag size : ℕ) (h : Heap) :
    Option (Slot × ℕ) :=
  (getFreeListSlot b (some answer) zone tag (roundUp size wordBytes)).run
    (fun r _ => r.1.map fun slot => (slot, r.2)) (fun _ _ => none) h

/-- The slab that is made for a request. -/
def madeSlabs (b : Bins) (answer : Except Errno Alloc.AllocatorArgs) (zone tag size : ℕ)
    (h : Heap) : List SlabInfo :=
  (servedBy b answer zone tag size h).elim [] fun r => newSlabs answer h r.1 tag r.2

section

variable {b : Bins} {answer : Except Errno Alloc.AllocatorArgs} {zone tag size : ℕ} {s s' : Heap}

/-- A request that fails makes no slab. -/
theorem madeSlabs_of_error {e : Failure}
    (h : getFreeListSlot b (some answer) zone tag (roundUp size wordBytes) s = (.error e, s')) :
    madeSlabs b answer zone tag size s = [] := by
  have hnone : servedBy b answer zone tag size s = none := by
    rw [servedBy, run_of_error h]
  rw [madeSlabs, hnone, Option.elim_none]

/-- The slot that serves a request. -/
theorem servedBy_of_ok {slot : Slot} {elt : ℕ}
    (h : getFreeListSlot b (some answer) zone tag (roundUp size wordBytes) s =
      (.ok (some slot, elt), s')) : servedBy b answer zone tag size s = some (slot, elt) := by
  rw [servedBy, run_of_ok h, Option.map_some]

/-- And the slab that may have been made for it. -/
theorem madeSlabs_of_ok {slot : Slot} {elt : ℕ}
    (h : getFreeListSlot b (some answer) zone tag (roundUp size wordBytes) s =
      (.ok (some slot, elt), s')) :
    madeSlabs b answer zone tag size s = newSlabs answer s slot tag elt := by
  rw [madeSlabs, servedBy_of_ok h, Option.elim_some]

end

/-- **A region is taken off a list.**  The head is taken only when it is alone. -/
theorem wp_unlinkRegion {s : Heap} {slot : Slot} {head x : ℕ} {l : List ℕ}
    (hhead : s.freeLists slot = head) (hr : Ring s.mem (head :: l)) (hnd : (head :: l).Nodup)
    (hsp : Spaced (head :: l)) (hx : x ∈ head :: l) (hlast : x = head → l = []) :
    (unlinkRegion slot head x).wp
      (fun _ s' => (∀ a, (∀ y ∈ head :: l, a ≠ y ∧ a ≠ y + 8) → s'.mem a = s.mem a) ∧
        s'.mmapStates = s.mmapStates ∧ ∃ L, (∀ y, y ∈ L ↔ y ∈ head :: l ∧ y ≠ x) ∧ L.Nodup ∧
          Ring s'.mem L ∧ s'.freeLists = Function.update s.freeLists slot (L.headD 0))
      (fun e s' => e = .fatal .enomem ∧
        ∀ a, (∀ y ∈ head :: l, a ≠ y ∧ a ≠ y + 8) → s'.mem a = s.mem a) s := by
  rw [unlinkRegion]
  by_cases hxh : x = head
  · obtain rfl := hlast hxh
    subst hxh
    have hnext : lhNext s.mem x = x := next_eq_some hr.1
    rw [if_pos rfl, wp_bind, wp_get, wp_bind, wp_require]
    refine ⟨fun _ => ?_, fun hn => absurd hnext hn⟩
    rw [wp_setFreeList]
    exact ⟨fun _ => ⟨fun _ _ => rfl, rfl, [], by simp, List.nodup_nil, trivial, rfl⟩,
      fun _ => ⟨rfl, fun _ _ => rfl⟩⟩
  · obtain ⟨l₁, l₂, rfl⟩ := List.append_of_mem ((List.mem_cons.1 hx).resolve_left hxh)
    rw [if_neg hxh]
    refine wp_lhRemoveWs hr hnd hsp (fun s' hw hring => ?_) fun s' hw => ⟨rfl, hw.mem⟩
    refine ⟨hw.mem, hw.mmapStates, head :: (l₁ ++ l₂), fun y => ?_, by grind, hring, ?_⟩
    · grind
    · rw [hw.freeLists, List.headD_cons, ← hhead, Function.update_eq_self]

section

variable {b : Bins} {placed : Prop} {slabs : List SlabInfo} {live : List Obj}
  {carve : SlabInfo → Carve} {lists : Slot → List ℕ} {s : Heap}
  (hi : HeapInv b placed slabs live carve lists s)

include hi

/-- No region is twice on a list. -/
theorem HeapInv.spaced (slot : Slot) : Spaced (lists slot) :=
  hi.carved.spaced fun _ hy => hi.node_of_mem hy

/-- The regions of a list have the size of its bin. -/
theorem HeapInv.elt_eq {t : SlabInfo} {slot : Slot} (ht : t ∈ slabs) (hhome : Home placed t slot) :
    t.elt = b.maxsize slot.bin := by
  obtain ⟨-, -, -, hmax, -⟩ := Bins.getBin_eq_some (hi.bins t ht)
  rw [← hmax, hhome.bin]

/-- **A free region becomes an object.** -/
theorem wp_takeRegion {t : SlabInfo} {k x size request : ℕ} {slot : Slot} {l : List ℕ} {f : Bool}
    (hl : lists slot = s.freeLists slot :: l) (hx : x ∈ lists slot)
    (hlast : x = s.freeLists slot → l = []) (hnode : Node slabs carve t k x)
    (hhome : Home placed t slot)
    (hmem : s.mem (t.region k) = pack (t.len (carve t) k) k (freeFlags f)) (hsize : t.elt ≤ size)
    (hreq : request ≤ 2 ^ 64 - 16 → request + regionHeaderSize ≤ t.elt) :
    (takeRegion t.elt slot (s.freeLists slot) x size).wp
      (fun r s' => Intact b placed slabs (⟨r.region + regionHeaderSize, request, slot⟩ :: live) s')
      (Failed b placed slabs live) s := by
  have hf := hi.carved.fits t hnode.mem
  have hN : ∀ y ∈ lists slot, ∃ s k, Node slabs carve s k y := fun y hy => hi.node_of_mem hy
  have hregion : regionOf x = t.region k := by
    rw [regionOf, regionHeaderSize, hnode.eq]
    omega
  have hxe : t.region k + regionHeaderSize = x := hnode.eq.symm
  have hcut : (if t.elt < size then t.elt else size) = t.elt := by
    split_ifs <;> omega
  have hword : t.elt ||| s.mem (t.region k) &&& slabIndexMask = pack t.elt k 0 := by
    rw [hmem]
    exact word_taken ((hf.elt_le_len k).trans_lt (hf.len_lt hnode.le)) (hf.len_lt hnode.le)
      (hf.index_lt hnode.le) _
  have hmod : t.region k % wordBytes = 0 := hf.region_mod k
  have hregion_ne : ∀ y ∈ lists slot, t.region k ≠ y ∧ t.region k ≠ y + 8 := by
    intro y hy
    obtain ⟨_, _, hy⟩ := hN y hy
    exact hi.carved.node_ne_region hy hnode.mem hnode.le
  have htouch : ∀ s₁ s' : Heap, s₁.mem = Function.update s.mem (t.region k) (pack t.elt k 0) →
      (∀ a, (∀ y ∈ lists slot, a ≠ y ∧ a ≠ y + 8) → s'.mem a = s₁.mem a) →
      Touches (t.region k) (lists slot) s.mem s'.mem ∧
        s'.mem (t.region k) = pack t.elt k 0 := by
    intro s₁ s' hs₁ hs'
    refine ⟨fun a ha hy => ?_, ?_⟩
    · rw [hs' a hy, hs₁, Function.update_of_ne ha]
    · rw [hs' _ hregion_ne, hs₁, Function.update_self]
  have hfatal : ∀ s' : Heap, Touches (t.region k) (lists slot) s.mem s'.mem ∧
      s'.mem (t.region k) = pack t.elt k 0 → ∃ carve, Solid slabs live carve s'.mem := by
    rintro s' ⟨htch, hused⟩
    have hge := hf.last_ge
    by_cases hk : k = (carve t).top
    · exact ⟨_, hi.solid_touches hnode.mem hnode.le htch hN le_rfl hge (absurd hk)
        (show 0 < 2 ^ 17 by decide) (by rw [hused, hk, resize_len_top])⟩
    · exact ⟨_, hi.solid_touches hnode.mem hnode.le htch hN hge le_rfl (fun _ => rfl)
        (show 0 < 2 ^ 17 by decide)
        (by rw [hused, resize_len_of_ne (.inr hk), SlabInfo.len, if_neg hk])⟩
  rw [takeRegion, wp_bind, wp_require]
  refine ⟨fun _ => ?_, fun hn => absurd hsize hn⟩
  rw [wp_bind, wp_get]
  simp only [hregion, hcut, hword]
  refine wp_writeWs_seq hmod (hfatal _ (htouch (s.write _ _) _ rfl fun _ _ => rfl)) ?_
  have hring : Ring (s.write (t.region k) (pack t.elt k 0)).mem (lists slot) :=
    (hi.threaded.rings slot).congr fun y hy =>
      ⟨Function.update_of_ne (hregion_ne y hy).1.symm _ _,
        Function.update_of_ne (hregion_ne y hy).2.symm _ _⟩
  have hnd := hi.threaded.nodup slot
  have hsp := hi.spaced slot
  rw [hl] at hring hnd hsp hx
  rw [wp_bind]
  refine wp_mono (wp_unlinkRegion rfl hring hnd hsp hx hlast) ?_ ?_
  · rintro _ s' ⟨hs', hmm, L, hL, hLnd, hLring, hfl⟩
    rw [← hl] at hs' hL hx
    obtain ⟨htch, hused⟩ := htouch (s.write _ _) s' rfl hs'
    rw [wp_pure, hxe]
    exact (hi.take hx hnode hhome rfl htch hused hL hLnd hLring hfl hmm hreq).intact
  · rintro _ s' ⟨rfl, hs'⟩
    rw [← hl] at hs'
    exact hfatal s' (htouch (s.write _ _) s' rfl hs')

/-- A free region that is on no list is put behind the head of one. -/
theorem wp_linkRegion {t : SlabInfo} {k x : ℕ} {slot : Slot} {l : List ℕ} {f : Bool}
    (hl : lists slot = s.freeLists slot :: l) (hnode : Node slabs carve t k x)
    (hhome : Home placed t slot)
    (hmem : s.mem (t.region k) = pack (t.len (carve t) k) k (freeFlags f))
    (hnot : ∀ slot', x ∉ lists slot') (hlive : ∀ o ∈ live, o.ptr ≠ x) :
    (lhAddWs (s.freeLists slot) x).wp
      (fun _ s' => s'.freeLists = s.freeLists ∧ HeapInv b placed slabs live carve
        (Function.update lists slot (s.freeLists slot :: x :: l)) s')
      (Failed b placed slabs live) s := by
  have hN : ∀ y ∈ x :: lists slot, ∃ s k, Node slabs carve s k y := by
    intro y hy
    rcases List.mem_cons.1 hy with rfl | hy
    · exact ⟨t, k, hnode⟩
    · exact hi.node_of_mem hy
  have hring := hi.threaded.rings slot
  have hnd := hi.threaded.nodup slot
  have hsp := hi.carved.spaced hN
  have hx := hnot slot
  rw [hl] at hring hnd hsp hx
  refine wp_lhAddWs hring hx hnd hsp (fun s' hw hring' => ?_) fun s' hw => ?_
  · rw [← hl] at hw
    have hne : ∀ y ∈ x :: lists slot, t.region k ≠ y ∧ t.region k ≠ y + 8 := by
      intro y hy
      obtain ⟨u, j, hu⟩ := hN y hy
      exact hi.carved.node_ne_region hu hnode.mem hnode.le
    refine ⟨hw.freeLists, hi.put hnode hhome hnot (fun a _ ha => hw.mem a ha)
      ((hw.mem _ hne).trans hmem) (fun y => ?_) ?_ hring' ?_ hw.mmapStates (List.Sublist.refl _)
      hlive⟩
    · rw [hl]
      simp only [List.mem_cons]
      tauto
    · simp only [List.nodup_cons, List.mem_cons] at hnd hx ⊢
      tauto
    · rw [hw.freeLists, List.headD_cons, Function.update_eq_self]
  · rw [← hl] at hw
    exact ⟨carve, hi.solid_rewrites hN hw⟩

/-- The two words that split the last region of a slab. -/
theorem HeapInv.words_split {t : SlabInfo} {f : Bool} (ht : t ∈ slabs)
    (hmem : s.mem (t.region (carve t).top) = pack (carve t).last (carve t).top (freeFlags f))
    (hbig : 2 * t.elt ≤ (carve t).last) (htop : (carve t).top + 1 ≤ maxSlabElts) :
    t.elt ||| regionFlags (s.mem (t.region (carve t).top)) |||
        s.mem (t.region (carve t).top) &&& slabIndexMask =
      pack t.elt (carve t).top (freeFlags f) ∧
    subSize (carve t).last t.elt ||| freedMagic ||| ((carve t).top + 1) <<< slabIndexShift =
      pack ((carve t).last - t.elt) ((carve t).top + 1) (freeFlags false) := by
  have hf := hi.carved.fits t ht
  have hlast := hf.len_lt (k := (carve t).top) le_rfl
  have hindex := hf.index_lt (k := (carve t).top) le_rfl
  have hpos := hf.elt_ge
  have hmax : maxSlabElts = 2 ^ 16 - 1 := by decide
  rw [len_top] at hlast
  rw [regionStructSize] at hpos
  constructor
  · rw [hmem]
    exact word_split (by omega) hlast hindex (freeFlags_lt f)
  · rw [subSize_of_le (by omega) (by omega), word_split_next (by omega) (by omega)]

/-- The heap when both words are written: the rest is a region that is on no list. -/
theorem HeapInv.cut {t : SlabInfo} {f g : Bool} (ht : t ∈ slabs)
    (hmem : s.mem (t.region (carve t).top) = pack (carve t).last (carve t).top (freeFlags f))
    (hbig : 2 * t.elt ≤ (carve t).last) (htop : (carve t).top + 1 ≤ maxSlabElts) :
    HeapInv b placed slabs live
      (Function.update (resize carve t t.elt) t ⟨(carve t).top + 1, (carve t).last - t.elt⟩) lists
      ((s.write (t.region (carve t).top) (pack t.elt (carve t).top (freeFlags f))).write
        (t.region ((carve t).top + 1))
        (pack ((carve t).last - t.elt) ((carve t).top + 1) (freeFlags g))) := by
  have hf := hi.carved.fits t ht
  have hend := hf.region_end (k := (carve t).top) le_rfl
  have hsucc := region_succ (s := t) (carve t).top
  rw [len_top] at hend
  have hshrunk : HeapInv b placed slabs live (resize carve t t.elt) lists
      (s.write (t.region (carve t).top) (pack t.elt (carve t).top (freeFlags f))) :=
    hi.shrink ht le_rfl hf.last_ge hmem rfl rfl rfl
  refine hshrunk.extend ht (Function.update_self ..) htop (by omega) ?_ rfl rfl rfl
  rw [blockFooterSize]
  omega

/-- **The last region of a slab is split**, and the rest is put behind the head. -/
theorem wp_splitRegion {t : SlabInfo} {x : ℕ} {slot : Slot} {l : List ℕ} {f : Bool}
    (hl : lists slot = s.freeLists slot :: l) (hnode : Node slabs carve t (carve t).top x)
    (hhome : Home placed t slot)
    (hmem : s.mem (t.region (carve t).top) = pack (carve t).last (carve t).top (freeFlags f))
    (hbig : 2 * t.elt ≤ (carve t).last) :
    (splitRegion t.elt (s.freeLists slot) (t.region (carve t).top) (carve t).last).wp
      (fun _ s' => s'.freeLists = s.freeLists ∧ ∃ carve' y, HeapInv b placed slabs live carve'
        (Function.update lists slot (s.freeLists slot :: y :: l)) s' ∧ y ∉ lists slot)
      (Failed b placed slabs live) s := by
  have hf := hi.carved.fits t hnode.mem
  have hlast := hf.len_lt (k := (carve t).top) le_rfl
  have hend := hf.region_end (k := (carve t).top) le_rfl
  have hsucc := region_succ (s := t) (carve t).top
  rw [len_top] at hlast hend
  have hslab : regionSlabIndex (s.mem (t.region (carve t).top)) = (carve t).top := by
    rw [hmem, regionSlabIndex_pack hlast (hf.index_lt le_rfl)]
  rw [splitRegion, wp_bind, wp_get]
  simp only [hslab, ← region_succ]
  rw [wp_bind, wp_require]
  refine ⟨fun htop => ?_, fun _ => hi.failed _⟩
  rw [hslab] at htop
  obtain ⟨hword₁, hword₂⟩ := hi.words_split hnode.mem hmem hbig htop
  rw [hword₁, hword₂]
  have hshrunk : HeapInv b placed slabs live (resize carve t t.elt) lists
      (s.write (t.region (carve t).top) (pack t.elt (carve t).top (freeFlags f))) :=
    hi.shrink hnode.mem le_rfl hf.last_ge hmem rfl rfl rfl
  have hcut := hi.cut (g := false) hnode.mem hmem hbig htop
  refine wp_writeWs_seq (hf.region_mod _) ⟨_, hshrunk.solid⟩ ?_
  refine wp_writeWs_seq (hf.region_mod _) ⟨_, hcut.solid⟩ ?_
  have hfresh : ∀ u j, ¬Node slabs carve u j (t.region ((carve t).top + 1) + 8) := fun u j =>
    hi.carved.not_node hnode.mem (Nat.lt_succ_self _) (by omega)
  have hnot : ∀ slot', t.region ((carve t).top + 1) + 8 ∉ lists slot' := by
    intro slot' hy
    obtain ⟨u, j, hu⟩ := hi.node_of_mem hy
    exact hfresh u j hu
  have hrest : Node slabs
      (Function.update (resize carve t t.elt) t ⟨(carve t).top + 1, (carve t).last - t.elt⟩) t
      ((carve t).top + 1) (t.region ((carve t).top + 1) + 8) :=
    ⟨hnode.mem, by rw [Function.update_self], rfl⟩
  refine wp_mono (wp_linkRegion (f := false) hcut hl hrest hhome ?_ hnot fun o ho e => ?_)
    (fun _ s' hs' => ⟨hs'.1, _, _, hs'.2, hnot slot⟩) fun _ _ h => h
  · rw [Function.update_self, SlabInfo.len, if_pos rfl]
    exact Function.update_self ..
  · obtain ⟨u, j, hu, -⟩ := hi.objects o ho
    exact hfresh u j (e ▸ hu)

/-- One turn of the loop.  If the head is split the loop starts again. -/
theorem wp_allocFrom_turn {slot : Slot} {l : List ℕ} {x request n : ℕ} {within : Option Allocation}
    (hl : lists slot = s.freeLists slot :: l) (hx : x ∈ lists slot)
    (hnext : lhNext s.mem (s.freeLists slot) = x) (hlast : x = s.freeLists slot → l = [])
    (hreq : request ≤ 2 ^ 64 - 16 → request + regionHeaderSize ≤ b.maxsize slot.bin)
    (hsmall : b.maxsize slot.bin < 10000)
    (hagain : x = s.freeLists slot → ∀ r s' carve' y, s'.freeLists = s.freeLists →
      HeapInv b placed slabs live carve'
        (Function.update lists slot (s.freeLists slot :: y :: l)) s' →
      (allocFrom (b.maxsize slot.bin) slot (s.freeLists slot) n (some r)).wp
        (fun r s' => Intact b placed slabs
          (⟨r.region + regionHeaderSize, request, slot⟩ :: live) s')
        (Failed b placed slabs live) s') :
    (allocFrom (b.maxsize slot.bin) slot (s.freeLists slot) (n + 1) within).wp
      (fun r s' => Intact b placed slabs (⟨r.region + regionHeaderSize, request, slot⟩ :: live) s')
      (Failed b placed slabs live) s := by
  obtain ⟨t, k, hnode, hhome, f, hmem⟩ := hi.listed slot x hx
  have hf := hi.carved.fits t hnode.mem
  have helt := hi.elt_eq hnode.mem hhome
  have hlen := hf.len_lt hnode.le
  have hindex := hf.index_lt hnode.le
  have hpos := hf.elt_ge
  have hregion : regionOf x = t.region k := by
    rw [regionOf, regionHeaderSize, hnode.eq]
    omega
  have hfreed : isFreed (s.mem (t.region k)) := by
    rw [hmem]
    exact (isFreed_pack hlen hindex).2 (freeFlags_mod f)
  have hsize : regionSize (s.mem (t.region k)) = t.len (carve t) k := by
    rw [hmem, regionSize_pack hlen hindex (freeFlags_lt f)]
  rw [← helt] at hreq hagain hsmall ⊢
  have htwice : t.elt * 2 % u64Size = t.elt * 2 := by
    rw [u64Size]
    omega
  have hx0 : x ≠ 0 := by
    have := hnode.eq
    omega
  rw [allocFrom.eq_def]
  simp only
  rw [wp_bind, wp_get]
  simp only [hnext, if_neg hx0, hregion]
  rw [wp_bind, wp_require]
  refine ⟨fun _ => ?_, fun hn => hn (by rw [hnext, hregion]; exact hfreed)⟩
  rw [hsize, htwice]
  split_ifs with hbig hhead
  · obtain rfl : k = (carve t).top := by
      by_contra hk
      rw [SlabInfo.len, if_neg hk] at hbig
      rw [regionStructSize] at hpos
      omega
    rw [len_top] at hmem hbig ⊢
    refine wp_seq (wp_splitRegion hi hl hnode hhome hmem (by omega)) ?_
    rintro - s' ⟨hfl, carve', y, hi', -⟩
    exact hagain hhead _ s' carve' y hfl hi'
  · obtain rfl : k = (carve t).top := by
      by_contra hk
      rw [SlabInfo.len, if_neg hk] at hbig
      rw [regionStructSize] at hpos
      omega
    rw [len_top] at hmem hbig ⊢
    refine wp_seq (wp_splitRegion hi hl hnode hhome hmem (by omega)) ?_
    rintro - s' ⟨hfl, carve', y, hi', hy⟩
    rw [← hfl] at hl hi' hhead ⊢
    have hlist : Function.update lists slot (s'.freeLists slot :: y :: l) slot =
        s'.freeLists slot :: y :: l := Function.update_self ..
    have hx' : x ∈ Function.update lists slot (s'.freeLists slot :: y :: l) slot := by
      rw [hlist]
      rw [hl] at hx
      simp only [List.mem_cons] at hx ⊢
      tauto
    obtain ⟨t', k', hnode', hhome', f', hmem'⟩ := hi'.listed slot x hx'
    have helt' : t'.elt = t.elt := by rw [hi'.elt_eq hnode'.mem hhome', helt]
    rw [← helt'] at hreq ⊢
    exact wp_takeRegion hi' hlist hx' (absurd · hhead) hnode' hhome' hmem' le_rfl hreq
  · exact wp_takeRegion hi hl hx hlast hnode hhome hmem (hf.elt_le_len k) hreq

/-- A list of more than one region. -/
theorem wp_allocFrom_next {slot : Slot} {l : List ℕ} {x request n : ℕ} {within : Option Allocation}
    (hl : lists slot = s.freeLists slot :: x :: l)
    (hreq : request ≤ 2 ^ 64 - 16 → request + regionHeaderSize ≤ b.maxsize slot.bin)
    (hsmall : b.maxsize slot.bin < 10000) :
    (allocFrom (b.maxsize slot.bin) slot (s.freeLists slot) (n + 1) within).wp
      (fun r s' => Intact b placed slabs (⟨r.region + regionHeaderSize, request, slot⟩ :: live) s')
      (Failed b placed slabs live) s := by
  have hring := hi.threaded.rings slot
  have hnd := hi.threaded.nodup slot
  rw [hl] at hring hnd
  have hne : x ≠ s.freeLists slot := by
    rintro rfl
    simp at hnd
  exact wp_allocFrom_turn hi hl (by rw [hl]; simp) (next_eq_some hring.1.1) (absurd · hne) hreq
    hsmall (absurd · hne)

/-- **The loop ends in its second turn at the latest.** -/
theorem wp_allocFrom {slot : Slot} {request n : ℕ} {within : Option Allocation}
    (hhead : s.freeLists slot ≠ 0)
    (hreq : request ≤ 2 ^ 64 - 16 → request + regionHeaderSize ≤ b.maxsize slot.bin)
    (hsmall : b.maxsize slot.bin < 10000) :
    (allocFrom (b.maxsize slot.bin) slot (s.freeLists slot) (n + 2) within).wp
      (fun r s' => Intact b placed slabs (⟨r.region + regionHeaderSize, request, slot⟩ :: live) s')
      (Failed b placed slabs live) s := by
  obtain ⟨l, hl⟩ := hi.lists_eq_cons hhead
  cases l with
  | cons x l => exact wp_allocFrom_next hi hl hreq hsmall
  | nil =>
    have hring := hi.threaded.rings slot
    rw [hl] at hring
    refine wp_allocFrom_turn hi hl (by rw [hl]; simp) (next_eq_some hring.1) (fun _ => rfl) hreq
      hsmall fun _ r s' carve' y hfl hi' => ?_
    rw [← hfl] at hi' ⊢
    exact wp_allocFrom_next hi' (Function.update_self ..) hreq hsmall

/-- **A region of the slot is taken**, and the object in it is one more that is live. -/
theorem wp_slabRegion {slot : Slot} {request : ℕ}
    (hreq : request ≤ 2 ^ 64 - 16 → request + regionHeaderSize ≤ b.maxsize slot.bin)
    (hsmall : b.maxsize slot.bin < 10000) :
    (slabRegion (b.maxsize slot.bin) slot).wp
      (fun r s' => Intact b placed slabs (⟨r.region + regionHeaderSize, request, slot⟩ :: live) s')
      (Failed b placed slabs live) s := by
  rw [slabRegion, wp_bind, wp_get, wp_bind, wp_require]
  refine ⟨fun hhead => ?_, fun _ => hi.failed _⟩
  obtain ⟨l, hl⟩ := hi.lists_eq_cons hhead
  obtain ⟨t, k, hnode, -, f, hmem⟩ := hi.listed slot (s.freeLists slot) (by rw [hl]; simp)
  have hf := hi.carved.fits t hnode.mem
  have hregion : regionOf (s.freeLists slot) = t.region k := by
    rw [regionOf, regionHeaderSize, hnode.eq]
    omega
  have hfreed : isFreed (s.mem (regionOf (s.freeLists slot))) := by
    rw [hregion, hmem]
    exact (isFreed_pack (hf.len_lt hnode.le) (hf.index_lt hnode.le)).2 (freeFlags_mod f)
  rw [wp_bind, wp_require]
  exact ⟨fun _ => wp_allocFrom hi hhead hreq hsmall, fun hn => hn hfreed⟩

/-- **`sivfs_malloc_ws`** of a size with a bin. -/
theorem wp_mallocWs (hb : b.Exact) {answer : Except Errno Alloc.AllocatorArgs}
    {zone tag size i elt : ℕ}
    (hbin : b.getBin (slabEltSize (roundUp size wordBytes)) = .ok (some (i, elt)))
    (hg : ∀ args, answer = .ok args → Granted placed slabs args) :
    (mallocWs b answer zone tag size).wp
      (fun p s' => ∃ m, servedBy b answer zone tag size s = some (⟨m, i⟩, elt) ∧
        roundUp size wordBytes ≠ 0 ∧
        Intact b placed (madeSlabs b answer zone tag size s ++ slabs)
          (⟨p, size, ⟨m, i⟩⟩ :: live) s')
      (Failed b placed (madeSlabs b answer zone tag size s ++ slabs) live) s := by
  obtain ⟨-, -, hlt, hmax, hle⟩ := Bins.getBin_eq_some hbin
  have hreq : size ≤ 2 ^ 64 - 16 → size + regionHeaderSize ≤ b.maxsize i := by
    intro hsize
    have hround := roundUp_word (show size ≤ 2 ^ 64 - 8 by omega)
    have hfit : size + regionHeaderSize ≤ slabEltSize (roundUp size wordBytes) := by
      refine le_trans ?_ (le_max_left _ _)
      rw [hround, addSize, u64Size, regionHeaderSize]
      omega
    omega
  have hslot : (getFreeListSlot b (some answer) zone tag (roundUp size wordBytes)).wp _ _ s :=
    wp_result (wp_getFreeListSlot_alloc hi hb hbin hg)
  have hret := returns_getFreeListSlot b (some answer) zone tag (roundUp size wordBytes)
  have hwithin : (allocateWithin b answer zone tag size).wp
      (fun r s' => ∃ m, servedBy b answer zone tag size s = some (⟨m, i⟩, elt) ∧
        roundUp size wordBytes ≠ 0 ∧ Intact b placed (madeSlabs b answer zone tag size s ++ slabs)
          (⟨r.region + regionHeaderSize, size, ⟨m, i⟩⟩ :: live) s')
      (Failed b placed (madeSlabs b answer zone tag size s ++ slabs) live) s := by
    rw [allocateWithin, wp_bind]
    refine wp_mono hslot ?_ ?_
    · rintro r s₁ ⟨hr, m, rfl, carve₁, lists₁, hi₁⟩
      obtain ⟨hne, -⟩ := hret s _ s₁ hr
      rw [← madeSlabs_of_ok hr] at hi₁
      have hserve : (slabRegion (b.maxsize i) ⟨m, i⟩).wp _ _ s₁ :=
        wp_slabRegion hi₁ hreq (hb.maxsize_lt hlt)
      rw [hmax] at hserve
      refine wp_mono hserve (fun r s₂ h => ?_) fun _ _ h => h
      exact ⟨m, servedBy_of_ok hr, hne, h⟩
    · rintro e s₁ ⟨hr, h⟩
      rwa [madeSlabs_of_error hr]
  rw [mallocWs, wp_bind]
  refine wp_mono hwithin ?_ fun _ _ h => h
  rintro r s₂ ⟨m, hsome, hne, carve₂, lists₂, hi₂⟩
  rw [wp_bind, wp_modify, wp_pure]
  exact ⟨m, hsome, hne, carve₂, lists₂, hi₂.congr rfl rfl rfl⟩

end

end Slab
end Sivfs
