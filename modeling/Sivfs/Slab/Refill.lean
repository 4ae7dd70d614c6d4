/-
# A slab for an empty bin

`sivfs_get_free_list_slot` makes a slab when the bin of a request is empty.  What the kernel
has to grant for it is `Granted`; that the kernel keeps to the bound in it is
`ioctlAllocBlock_small`.  All writes go to the new block, so whatever fails on the way leaves
the other slabs alone (`wp_createSlab`), and in the end the slab has one region, which is the
list of the bin.

`Failed` says what a call may leave that does not succeed: after a check everything is as it
was, and after an append that failed the slabs and the objects are still there.
-/

import Sivfs.Slab.Bins
import Sivfs.Slab.Grow
import Sivfs.Slab.Listed

namespace Sivfs
namespace Slab

open Call

/-- The slabs, the objects and the lists fit together. -/
def Intact (b : Bins) (placed : Prop) (slabs : List SlabInfo) (live : List Obj) (h : Heap) : Prop :=
  ∃ carve lists, HeapInv b placed slabs live carve lists h

/-- How a call may fail.  It never exits and never loops. -/
def Failed (b : Bins) (placed : Prop) (slabs : List SlabInfo) (live : List Obj) :
    Failure → Heap → Prop
  | .errno _, h => Intact b placed slabs live h
  | .fatal _, h => ∃ carve, Solid slabs live carve h.mem
  | .exit, _ => False
  | .diverges, _ => False

/-- A block for a slab: it does not meet the other slabs, its size without header and footer
goes into a header word, and if blocks are `placed` it lies inside its mapping. -/
structure Granted (placed : Prop) (slabs : List SlabInfo) (args : Alloc.AllocatorArgs) : Prop where
  apart : ∀ t ∈ slabs,
    t.block + t.size ≤ args.allocRet ∨ args.allocRet + args.allocSize ≤ t.block
  small : args.allocSize < 2 ^ 30 + blockHeaderSize + blockFooterSize
  inside : placed → args.mmapStart ≤ args.allocRet ∧
    args.allocRet + args.allocSize ≤ args.mmapStart + args.mmapSize

/-- The slab that is made for a bin if it is empty. -/
def newSlabs (answer : Except Errno Alloc.AllocatorArgs) (h : Heap) (slot : Slot) (tag elt : ℕ) :
    List SlabInfo :=
  match answer with
  | .ok args =>
    if h.freeLists slot = 0 then [⟨args.allocRet, args.allocSize, tag, elt, slot⟩] else []
  | .error _ => []

/-- A write whose address is checked. -/
theorem wp_writeWs_check {α : Type} {address value : ℕ} {f : Unit → Call Heap Failure α}
    {Q : α → Heap → Prop} {E : Failure → Heap → Prop} {s : Heap} (hmis : E (.fatal .einval) s)
    (herr : E (.fatal .enomem) (s.store address value))
    (hok : address % wordBytes = 0 → (f ()).wp Q E (s.write address value)) :
    (writeWs address value >>= f).wp Q E s :=
  wp_bind.2 (wp_writeWs.2 ⟨fun h => ⟨fun _ => hok h, fun _ => herr⟩, fun _ => hmis⟩)

theorem le_roundUp {x len : ℕ} (hx : 0 < x) (hlen : 0 < len) (hsum : x + len < 2 ^ 62) :
    len ≤ roundUp x len ∧ roundUp x len < x + len := by
  have hdiv : divRound x len = (x + len - 1) / len := by
    have : subSize (addSize x len) 1 = x + len - 1 := by
      rw [subSize, addSize, u64Size]
      omega
    rw [divRound, this]
  have hpos : 0 < (x + len - 1) / len := Nat.div_pos (by omega) hlen
  have hle : (x + len - 1) / len * len ≤ x + len - 1 := Nat.div_mul_le_self _ _
  have hmul := Nat.le_mul_of_pos_left len hpos
  rw [roundUp, hdiv, u64Size, Nat.mod_eq_of_lt (by omega)]
  exact ⟨hmul, by omega⟩

/-- A slab has room for a region. -/
theorem le_slabRequest {elt : ℕ} (hpos : 0 < elt) (hlt : elt < 10000) :
    elt + 24 ≤ slabRequest elt ∧ slabRequest elt < 2 ^ 15 := by
  obtain ⟨hle, hhigh⟩ := le_roundUp (x := slabsize - (blockHeaderSize + blockFooterSize))
    (by decide) hpos (by rw [slabsize]; omega)
  rw [← slabEltsSize] at hle hhigh
  rw [slabRequest, addSize, u64Size, blockHeaderSize, blockFooterSize]
  rw [slabsize, blockHeaderSize, blockFooterSize] at hhigh
  omega

/-- The mapping that is found holds the address and has the tag. -/
theorem getMmapState_eq_some {ms : List MmapState} {zone tag m : ℕ}
    (h : getMmapState ms zone tag = some m) :
    ∃ state, ms[m]? = some state ∧ state.start ≤ zone ∧ zone < state.start + state.size ∧
      state.tag = tag := by
  obtain ⟨hm, hdec, -⟩ := List.findIdx?_eq_some_iff_getElem.1 h
  obtain ⟨hstart, hend, htag⟩ := of_decide_eq_true hdec
  exact ⟨ms[m], List.getElem?_eq_getElem hm, hstart, hend, htag⟩

/-! ### The words of a new slab -/

/-- What is in memory when a slab is made: header and footer, and one free region, which is the
list of its bin. -/
def createdMem (new : SlabInfo) (mem : ℕ → ℕ) (a : ℕ) : ℕ :=
  if a = new.block + 16 ∨ a = new.block + 24 then new.block + 16
  else if a = new.block + 8 then pack (new.size - 24) 0 (freeFlags true)
  else if a = new.footer + 8 then new.size
  else if a = new.footer then new.tag
  else if a = new.block then new.size
  else mem a

section Words

variable {new : SlabInfo} {mem : ℕ → ℕ}

/-- The writes of `sivfs_get_free_list_slot`, in their order. -/
theorem createdMem_eq : Function.update (Function.update (Function.update (Function.update
    (Function.update (Function.update mem new.block new.size) new.footer new.tag)
      (new.footer + 8) new.size) (new.block + 8) (pack (new.size - 24) 0 (freeFlags true)))
      (new.block + 24) (new.block + 16)) (new.block + 16) (new.block + 16) =
    createdMem new mem := by
  funext a
  simp only [Function.update_apply, createdMem]
  split_ifs <;> first | rfl | omega

/-- The header of the region. -/
theorem createdMem_region :
    createdMem new mem (new.region 0) = pack (new.size - 24) 0 (freeFlags true) := by
  rw [region_zero, createdMem, if_neg (by omega), if_pos rfl]

/-- The region is a list. -/
theorem ring_createdMem : Ring (createdMem new mem) [new.region 0 + 8] := by
  have hword : ∀ a, a = new.block + 16 ∨ a = new.block + 24 →
      createdMem new mem a = new.block + 16 := fun a ha => if_pos ha
  rw [region_zero]
  exact ⟨pointer_eq_some.2 ⟨hword _ (.inr rfl), by omega⟩,
    pointer_eq_some.2 ⟨hword _ (.inl rfl), by omega⟩⟩

variable (hsize : 48 ≤ new.size)

include hsize

/-- The words around the slab stay. -/
theorem createdMem_outside {a : ℕ} (ha : a < new.block ∨ new.block + new.size < a + 8) :
    createdMem new mem a = mem a := by
  have hfoot : new.footer = new.block + new.size - 16 := rfl
  rw [createdMem, if_neg (by omega), if_neg (by omega), if_neg (by omega), if_neg (by omega),
    if_neg (by omega)]

/-- The slab is carved into one region. -/
theorem marked_createdMem : new.Marked ⟨0, new.size - 24⟩ (createdMem new mem) := by
  have hfoot : new.footer = new.block + new.size - 16 := rfl
  refine ⟨?_, ?_, ?_, fun k hk => ?_⟩
  · rw [createdMem, if_neg (by omega), if_neg (by omega), if_neg (by omega), if_neg (by omega),
      if_pos rfl]
  · rw [createdMem, if_neg (by omega), if_neg (by omega), if_neg (by omega), if_pos rfl]
  · rw [createdMem, if_neg (by omega), if_neg (by omega), if_pos rfl]
  · obtain rfl := Nat.le_zero.1 hk
    refine ⟨freeFlags true, freeFlags_lt true, ?_⟩
    rw [createdMem_region, SlabInfo.len, if_pos rfl]

end Words

/-! ### The call -/

section

variable {b : Bins} {placed : Prop} {slabs : List SlabInfo} {live : List Obj}
  {carve : SlabInfo → Carve} {lists : Slot → List ℕ} {s : Heap}
  (hi : HeapInv b placed slabs live carve lists s)

include hi

theorem HeapInv.intact : Intact b placed slabs live s := ⟨carve, lists, hi⟩

theorem HeapInv.failed (e : Errno) : Failed b placed slabs live (.errno e) s := hi.intact

/-- A list is empty if its head is `NULL`. -/
theorem HeapInv.lists_eq_nil {slot : Slot} (h : s.freeLists slot = 0) : lists slot = [] := by
  rw [hi.threaded.heads] at h
  cases hl : lists slot with
  | nil => rfl
  | cons x l =>
    have hx : x ∈ lists slot := by simp [hl]
    obtain ⟨t, j, hnode⟩ := hi.node_of_mem hx
    have hxe := hnode.eq
    rw [hl, List.headD_cons] at h
    omega

theorem HeapInv.lists_eq_cons {slot : Slot} (h : s.freeLists slot ≠ 0) :
    ∃ l, lists slot = s.freeLists slot :: l := by
  rw [hi.threaded.heads] at h ⊢
  cases hl : lists slot with
  | nil => simp [hl] at h
  | cons x l => exact ⟨l, rfl⟩

/-- The heap with the words of a new slab in it. -/
theorem HeapInv.created {new : SlabInfo} {s' : Heap}
    (hbin : b.getBin new.elt = .ok (some (new.slot.bin, new.elt)))
    (hfits : new.Fits ⟨0, new.size - 24⟩) (hempty : s.freeLists new.slot = 0)
    (hapart : ∀ t ∈ slabs, t.Apart new)
    (hmap : ∃ m, s.mmapStates[new.slot.mmap]? = some m ∧ m.tag = new.tag ∧
      (placed → m.start ≤ new.block ∧ new.block + new.size ≤ m.start + m.size))
    (hmem : s'.mem = createdMem new s.mem)
    (hfl : s'.freeLists = Function.update s.freeLists new.slot (new.block + 16))
    (hmm : s'.mmapStates = s.mmapStates) : Intact b placed (new :: slabs) live s' := by
  have hge := hfits.elt_ge
  have hlast := hfits.last_ge
  have hend := hfits.region_end (le_refl 0)
  have hlen := hfits.elt_le_len 0
  rw [regionStructSize] at hge
  rw [region_zero] at hend
  have hsize : 48 ≤ new.size := by omega
  refine ⟨_, _, hi.create hfits ?_ ?_ ?_ (hi.lists_eq_nil hempty) hapart (fun a ha => ?_) ?_ hmm
    hbin hmap⟩
  · rw [hmem]
    exact marked_createdMem hsize
  · rw [hmem, createdMem_region]
  · rw [hmem]
    exact ring_createdMem
  · rw [hmem, createdMem_outside hsize ha]
  · rw [hfl, region_zero]

/-- The words of a slab are written, and its region becomes the list of the bin. -/
theorem wp_writeSlab (new : SlabInfo) (hbin : b.getBin new.elt = .ok (some (new.slot.bin, new.elt)))
    (hge : regionStructSize ≤ new.elt) (hsize : new.elt + 24 ≤ new.size)
    (hsmall : new.size < 2 ^ 30 + blockHeaderSize + blockFooterSize)
    (hempty : s.freeLists new.slot = 0) (hapart : ∀ t ∈ slabs, t.Apart new)
    (hmap : ∃ m, s.mmapStates[new.slot.mmap]? = some m ∧ m.tag = new.tag ∧
      (placed → m.start ≤ new.block ∧ new.block + new.size ≤ m.start + m.size)) :
    (do
      writeWs new.block new.size
      writeWs new.footer new.tag
      writeWs (new.footer + 8) new.size
      writeWs (new.block + 8) (pack (new.size - 24) 0 (freeFlags true))
      writeWs (new.block + 24) (new.block + 16)
      writeWs (new.block + 16) (new.block + 16)
      setFreeList new.slot (new.block + 16) : Call Heap Failure Unit).wp
      (fun _ s' => Intact b placed (new :: slabs) live s') (Failed b placed slabs live) s := by
  obtain ⟨hmod, -⟩ := Bins.getBin_eq_some hbin
  have hfoot : new.footer = new.block + new.size - 16 := rfl
  rw [regionStructSize] at hge
  rw [blockHeaderSize, blockFooterSize] at hsmall
  generalize hN : [new.block, new.footer, new.block + 16] = N
  have hN₁ : new.block ∈ N := by simp [← hN]
  have hN₂ : new.footer ∈ N := by simp [← hN]
  have hN₃ : new.block + 16 ∈ N := by simp [← hN]
  have hmem : ∀ {s' : Heap}, Rewrites N s s' →
      ∀ a, a < new.block ∨ new.block + new.size < a + 8 → s'.mem a = s.mem a := by
    refine fun hw a ha => hw.mem a fun y hy => ?_
    simp only [← hN, List.mem_cons, List.not_mem_nil, or_false] at hy
    omega
  have hfatal : ∀ {s' : Heap} {e : Errno}, Rewrites N s s' →
      Failed b placed slabs live (.fatal e) s' := fun hw =>
    ⟨carve, (hi.outside hapart (hmem hw) hw.freeLists hw.mmapStates).solid⟩
  have h₀ : Rewrites N s s := ⟨fun _ _ => rfl, rfl, rfl⟩
  have h₁ := h₀.write hN₁ (.inl rfl) new.size
  have h₂ := h₁.write hN₂ (.inl rfl) new.tag
  have h₃ := h₂.write hN₂ (.inr rfl) new.size
  have h₄ := h₃.write hN₁ (.inr rfl) (pack (new.size - 24) 0 (freeFlags true))
  have h₅ := h₄.write hN₃ (.inr rfl) (new.block + 16)
  have h₆ := h₅.write hN₃ (.inl rfl) (new.block + 16)
  refine wp_writeWs_check (hfatal h₀) (hfatal (h₀.store hN₁ (.inl rfl) _)) fun hBmod => ?_
  refine wp_writeWs_check (hfatal h₁) (hfatal (h₁.store hN₂ (.inl rfl) _)) fun hFmod => ?_
  refine wp_writeWs_check (hfatal h₂) (hfatal (h₂.store hN₂ (.inr rfl) _)) fun _ => ?_
  refine wp_writeWs_check (hfatal h₃) (hfatal (h₃.store hN₁ (.inr rfl) _)) fun _ => ?_
  refine wp_writeWs_check (hfatal h₄) (hfatal (h₄.store hN₃ (.inr rfl) _)) fun _ => ?_
  refine wp_writeWs_check (hfatal h₅) (hfatal (h₅.store hN₃ (.inl rfl) _)) fun _ => ?_
  rw [wp_setFreeList]
  refine ⟨fun _ => ?_, fun _ => hfatal ⟨h₆.mem, h₆.freeLists, h₆.mmapStates⟩⟩
  have hfits : new.Fits ⟨0, new.size - 24⟩ := by
    have hSmod : new.size % wordBytes = 0 := by
      rw [wordBytes] at hBmod hFmod ⊢
      omega
    refine ⟨hBmod, hSmod, hmod, hge, Nat.zero_le _, by simp only; omega, ?_, hsmall⟩
    rw [region_zero]
    simp only [blockFooterSize]
    omega
  refine hi.created hbin hfits hempty hapart hmap createdMem_eq ?_ h₆.mmapStates
  exact congrArg (fun f => Function.update f new.slot (new.block + 16)) h₆.freeLists

/-- **A slab is made.** -/
theorem wp_createSlab {answer : Except Errno Alloc.AllocatorArgs} {state : MmapState} {slot : Slot}
    {tag elt : ℕ} (hslot : s.mmapStates[slot.mmap]? = some state) (htag : state.tag = tag)
    (hempty : s.freeLists slot = 0) (hbin : b.getBin elt = .ok (some (slot.bin, elt)))
    (hge : regionStructSize ≤ elt) (hlt : elt < 10000)
    (hg : ∀ args, answer = .ok args → Granted placed slabs args) :
    (createSlab answer state slot tag elt).wp
      (fun _ s' => Intact b placed (newSlabs answer s slot tag elt ++ slabs) live s')
      (Failed b placed slabs live) s := by
  have hreq := le_slabRequest (by rw [regionStructSize] at hge; omega) hlt
  rw [createSlab, wp_bind, wp_require]
  refine ⟨fun _ => ?_, fun _ => hi.failed _⟩
  rw [wp_bind, wp_require]
  refine ⟨fun _ => ?_, fun _ => hi.failed _⟩
  rw [wp_bind]
  cases answer with
  | error e => exact hi.failed e
  | ok args =>
    obtain ⟨hapart, hsmall, hinside⟩ := hg args rfl
    rw [sivfsAllocBlock, wp_pure, wp_bind, wp_require]
    refine ⟨fun hstart => ?_, fun _ => hi.failed _⟩
    rw [wp_bind, wp_require]
    refine ⟨fun hsize => ?_, fun _ => hi.failed _⟩
    rw [wp_bind, wp_require]
    refine ⟨fun _ => ?_, fun _ => hi.failed _⟩
    rw [wp_bind, wp_require]
    refine ⟨fun hle => ?_, fun _ => hi.failed _⟩
    have hword : subSize (subSize args.allocSize blockFooterSize) blockHeaderSize ||| freedMagic |||
        listHeadFlag = pack (args.allocSize - 24) 0 (freeFlags true) := by
      rw [blockHeaderSize, blockFooterSize] at hsmall ⊢
      rw [subSize_of_le (show 16 ≤ args.allocSize by omega) (by omega),
        subSize_of_le (show 8 ≤ args.allocSize - 16 by omega) (by omega), word_created (by omega)]
      rfl
    simp only [newSlabs, if_pos hempty, hword]
    exact wp_writeSlab hi ⟨args.allocRet, args.allocSize, tag, elt, slot⟩ hbin hge
      (hreq.1.trans hle) hsmall hempty hapart ⟨state, hslot, htag, fun hp => by
        rw [← hstart, ← hsize]
        exact hinside hp⟩

/-- **A request with a bin is given its slot**, and a slab if the bin is empty. -/
theorem wp_getFreeListSlot_alloc (hb : b.Exact) {answer : Except Errno Alloc.AllocatorArgs}
    {zone tag size i elt : ℕ} (hbin : b.getBin (slabEltSize size) = .ok (some (i, elt)))
    (hg : ∀ args, answer = .ok args → Granted placed slabs args) :
    (getFreeListSlot b (some answer) zone tag size).wp
      (fun r s' => ∃ m, r = (some ⟨m, i⟩, elt) ∧
        Intact b placed (newSlabs answer s ⟨m, i⟩ tag elt ++ slabs) live s')
      (Failed b placed slabs live) s := by
  obtain ⟨-, -, hlt, hmax, hle⟩ := Bins.getBin_eq_some hbin
  have hge : regionStructSize ≤ elt := (le_max_right _ _).trans hle
  have hpos : 0 < slabEltSize size := lt_of_lt_of_le (by decide) (le_max_right _ regionStructSize)
  have helt : elt < 10000 := hmax ▸ hb.maxsize_lt hlt
  rw [getFreeListSlot, wp_bind, wp_require]
  refine ⟨fun _ => ?_, fun _ => hi.failed _⟩
  rw [wp_bind, wp_require]
  refine ⟨fun _ => ?_, fun _ => hi.failed _⟩
  rw [wp_bind, wp_get, hbin]
  cases hm : getMmapState s.mmapStates zone tag with
  | none => exact hi.failed .einval
  | some m =>
    obtain ⟨state, hstate, -, -, htag⟩ := getMmapState_eq_some hm
    simp only
    rw [wp_bind, refill, wp_bind, wp_get]
    simp only [hstate]
    by_cases hempty : s.freeLists ⟨m, i⟩ = 0
    · rw [if_pos hempty]
      refine wp_mono (wp_createSlab hi hstate htag hempty (hb.getBin_maxsize hpos hbin) hge helt hg)
        (fun _ s' hs' => ?_) fun _ _ h => h
      exact ⟨m, rfl, hs'⟩
    · rw [if_neg hempty]
      refine ⟨m, rfl, ?_⟩
      have hnone : newSlabs answer s ⟨m, i⟩ tag elt = [] := by
        cases answer with
        | error e => rfl
        | ok args => exact if_neg hempty
      rw [hnone]
      exact hi.intact

omit hi in
/-- The slot of a region that is freed. -/
theorem wp_getFreeListSlot_free {zone tag size i elt : ℕ} (hne : size ≠ 0)
    (hmod : size % wordBytes = 0) (hbin : b.getBin (slabEltSize size) = .ok (some (i, elt))) :
    (getFreeListSlot b none zone tag size).wp
      (fun r s' => s' = s ∧ ∃ m, getMmapState s.mmapStates zone tag = some m ∧
        r = (some ⟨m, i⟩, elt))
      (fun e s' => e = .errno .einval ∧ s' = s ∧ getMmapState s.mmapStates zone tag = none) s := by
  rw [getFreeListSlot, wp_bind, wp_require]
  refine ⟨fun _ => ?_, fun h => absurd hne h⟩
  rw [wp_bind, wp_require]
  refine ⟨fun _ => ?_, fun h => absurd hmod h⟩
  rw [wp_bind, wp_get, hbin]
  cases hm : getMmapState s.mmapStates zone tag with
  | none => exact ⟨rfl, rfl, rfl⟩
  | some m => exact ⟨rfl, m, rfl, rfl⟩

end

end Slab
end Sivfs
