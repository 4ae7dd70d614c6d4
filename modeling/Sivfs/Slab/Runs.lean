/-
# Runs of the slab heap

A thread calls `sivfs_malloc_ws` for sizes that have a bin and `sivfs_free_ws` for objects
that it holds, and writes to its objects, in any order.  A call that fails because of a check
leaves the thread running.  One that fails to append to the write set stops it, since then the
transaction is aborted.

`heapMachine` is that thread.  Beside the heap a state has the objects that it holds and the
slabs that `sivfs_get_free_list_slot` made.  What the kernel answers is up to the run; `Allowed`
says what it may be, and `ioctlAllocBlock_small` that the kernel keeps to the bound in it.
-/

import Sivfs.Lib.Machine
import Sivfs.Slab.Reclaim
import Sivfs.Slab.Serve
import Sivfs.Slab.Undo

namespace Sivfs
namespace Slab

open Call

/-- The state of a thread. -/
structure State where
  heap : Heap
  live : List Obj
  slabs : List SlabInfo
  /-- The failure that stopped it. -/
  stopped : Option Failure

/-- The failures that stop a thread. -/
def Failure.stops : Failure → Option Failure
  | .errno _ => none
  | e => some e

namespace State

variable (b : Bins) (s : State)

/-- `sivfs_malloc_ws`. -/
def malloc (zone tag size : ℕ) (answer : Except Errno Alloc.AllocatorArgs) (room : ℕ) : State :=
  let h := { s.heap with room := room }
  let slabs := madeSlabs b answer zone tag size h ++ s.slabs
  (mallocWs b answer zone tag size).run
    (fun ptr h' =>
      { heap := h'
        live := ((servedBy b answer zone tag size h).map fun r => ⟨ptr, size, r.1⟩).toList ++ s.live
        slabs := slabs
        stopped := none })
    (fun e h' => { heap := h', live := s.live, slabs := slabs, stopped := e.stops }) h

/-- `sivfs_free_ws`. -/
def free (ptr : ℕ) (answer : Except Errno Unit) (room : ℕ) : State :=
  (freeWs b answer ptr).run
    (fun _ h' => { s with heap := h', live := s.live.filter fun o => o.ptr ≠ ptr })
    (fun e h' => { s with heap := h', stopped := e.stops }) { s.heap with room := room }

/-- The word at an address holds bytes of an object. -/
def InObject (address : ℕ) (o : Obj) : Prop :=
  address % wordBytes = 0 ∧ o.ptr ≤ address ∧ address < o.ptr + o.size ∧
    address + wordBytes ≤ regionOf o.ptr + regionSize (s.heap.mem (regionOf o.ptr))

instance (address : ℕ) (o : Obj) : Decidable (s.InObject address o) :=
  inferInstanceAs (Decidable (_ ∧ _ ∧ _ ∧ _))

/-- A thread that is not stopped does what it may do. -/
def step : Op → Option State
  | .malloc zone tag size answer room =>
    if s.stopped = none then some (s.malloc b zone tag size answer room) else none
  | .free ptr answer room =>
    if s.stopped = none ∧ ∃ o ∈ s.live, o.ptr = ptr then some (s.free b ptr answer room) else none
  | .store address value =>
    if s.stopped = none ∧ ∃ o ∈ s.live, s.InObject address o then
      some { s with heap := s.heap.store address value }
    else none

/-- A thread before its first call: the mappings are registered and all lists are empty. -/
def start (mem : ℕ → ℕ) (ops : List MmapOp) : State where
  heap := ⟨mem, fun _ => 0, (runMmaps ops).map MmapEntry.state, [], [], [], 0, 0, 0⟩
  live := []
  slabs := []
  stopped := none

end State

/-- A thread that allocates and frees. -/
def heapMachine (b : Bins) : Machine State Op where
  init s := ∃ mem ops, s = State.start mem ops
  step s op := s.step b op

/-- The sizes that are asked for have a bin, and what the kernel answers is a block for a
slab. -/
def Allowed (b : Bins) (placed : Prop) (s : State) : Op → Prop
  | .malloc _ _ size answer _ =>
    (∃ r, b.getBin (slabEltSize (roundUp size wordBytes)) = .ok (some r)) ∧
      ∀ args, answer = .ok args → Granted placed s.slabs args
  | _ => True

/-- What the kernel grants, as a condition that can be decided. -/
theorem granted_iff {placed : Prop} {slabs : List SlabInfo} {args : Alloc.AllocatorArgs} :
    Granted placed slabs args ↔
      (∀ t ∈ slabs, t.block + t.size ≤ args.allocRet ∨ args.allocRet + args.allocSize ≤ t.block) ∧
      args.allocSize < 2 ^ 30 + blockHeaderSize + blockFooterSize ∧
      (placed → args.mmapStart ≤ args.allocRet ∧
        args.allocRet + args.allocSize ≤ args.mmapStart + args.mmapSize) :=
  ⟨fun ⟨h₁, h₂, h₃⟩ => ⟨h₁, h₂, h₃⟩, fun ⟨h₁, h₂, h₃⟩ => ⟨h₁, h₂, h₃⟩⟩

instance (placed : Prop) [Decidable placed] (slabs : List SlabInfo) (args : Alloc.AllocatorArgs) :
    Decidable (Granted placed slabs args) := decidable_of_iff _ granted_iff.symm

instance (b : Bins) (size : ℕ) : Decidable (∃ r, b.getBin size = .ok (some r)) :=
  match b.getBin size with
  | .ok (some r) => isTrue ⟨r, rfl⟩
  | .ok none => isFalse (by simp)
  | .error _ => isFalse (by simp)

instance (b : Bins) (placed : Prop) [Decidable placed] (s : State) :
    (op : Op) → Decidable (Allowed b placed s op)
  | .malloc _ _ size (.ok args) _ =>
    decidable_of_iff ((∃ r, b.getBin (slabEltSize (roundUp size wordBytes)) = .ok (some r)) ∧
      Granted placed s.slabs args) (by simp [Allowed])
  | .malloc _ _ size (.error _) _ =>
    decidable_of_iff (∃ r, b.getBin (slabEltSize (roundUp size wordBytes)) = .ok (some r))
      (by simp [Allowed])
  | .free _ _ _ => isTrue trivial
  | .store _ _ => isTrue trivial

/-- The kernel grants less than a page more than it is asked for. -/
theorem ioctlAllocBlock_small {ι : Type*} [DecidableEq ι] {mm : List Alloc.Vma}
    {mem : Alloc.Memory} {t : ι} {ts : Ts} {args args' : Alloc.AllocatorArgs}
    {a a' : Alloc.Ainfo ι} {c elt : ℕ} (hpos : 0 < elt) (hlt : elt < 10000)
    (hargs : args.blockAlloc = slabRequest elt)
    (h : Alloc.ioctlAllocBlock mm mem t ts args a = some (a', .ok (args', some c))) :
    args'.allocSize < 2 ^ 30 + blockHeaderSize + blockFooterSize := by
  obtain ⟨-, hreq⟩ := le_slabRequest hpos hlt
  rw [Alloc.ioctlAllocBlock] at h
  cases hfind : Alloc.sivfsFindVma mm args.zone 1 with
  | error e => simp [hfind] at h
  | ok v =>
    simp only [hfind] at h
    split_ifs at h
    · simp at h
    obtain ⟨⟨a₁, r⟩, halloc, h⟩ := Option.map_eq_some_iff.1 h
    cases r with
    | error e => simp at h
    | ok d =>
      simp only [Prod.mk.injEq, Except.ok.injEq, Option.some.injEq] at h
      obtain ⟨rfl, rfl, rfl⟩ := h
      obtain ⟨-, hsize, -⟩ := Alloc.allocBlock_chunk halloc
      rw [Alloc.Ainfo.grantSize, hargs] at hsize
      simp only [hsize, blockHeaderSize, blockFooterSize]
      have : pageSize = 4096 := rfl
      split_ifs <;> omega

/-- Blocks that need not lie in their mappings. -/
theorem Allowed.weaken {b : Bins} {placed placed' : Prop} {s : State} {op : Op}
    (h : Allowed b placed s op) (himp : placed' → placed) : Allowed b placed' s op := by
  cases op with
  | malloc zone tag size answer room =>
    obtain ⟨hbin, hg⟩ := h
    exact ⟨hbin, fun args ha => let ⟨h₁, h₂, h₃⟩ := hg args ha; ⟨h₁, h₂, fun hp => h₃ (himp hp)⟩⟩
  | free ptr answer room => trivial
  | store address value => trivial

/-- What holds of a thread. -/
structure Sound (b : Bins) (placed : Prop) (s : State) : Prop where
  running : s.stopped = none → Intact b placed s.slabs s.live s.heap
  solid : ∃ carve, Solid s.slabs s.live carve s.heap.mem
  stopped : ∀ e, s.stopped = some e → ∃ e', e = .fatal e'

section

variable {b : Bins} {placed : Prop} {s s' : State}

/-- An intact heap is sound. -/
theorem Intact.sound {slabs : List SlabInfo} {live : List Obj} {h : Heap}
    (hi : Intact b placed slabs live h) : Sound b placed ⟨h, live, slabs, none⟩ :=
  ⟨fun _ => hi, let ⟨carve, _, hi⟩ := hi; ⟨carve, hi.solid⟩, by simp⟩

/-- So is one after a failure, with the calls it stops. -/
theorem Failed.sound {slabs : List SlabInfo} {live : List Obj} {h : Heap} {e : Failure}
    (hf : Failed b placed slabs live e h) : Sound b placed ⟨h, live, slabs, e.stops⟩ := by
  cases e with
  | errno e => exact Intact.sound hf
  | fatal e => exact ⟨by simp [Failure.stops], hf, by simp [Failure.stops]⟩
  | exit => exact hf.elim
  | diverges => exact hf.elim

/-- Room in the write-set does not matter. -/
theorem Intact.room {slabs : List SlabInfo} {live : List Obj} {h : Heap}
    (hi : Intact b placed slabs live h) (room : ℕ) :
    Intact b placed slabs live { h with room := room } :=
  let ⟨carve, lists, hi⟩ := hi
  ⟨carve, lists, hi.congr rfl rfl rfl⟩

/-- A thread starts with no slabs. -/
theorem sound_start (mem : ℕ → ℕ) (ops : List MmapOp) : Sound b placed (State.start mem ops) := by
  refine Intact.sound ⟨fun _ => ⟨0, 0⟩, fun _ => [],
    ⟨by simp, by simp, by simp⟩, ?_, by simp, by simp, by simp,
    by simp, by simp, fun _ => separate_runMmaps ops⟩
  exact ⟨fun _ => rfl, fun _ => trivial, fun _ => List.nodup_nil, by simp⟩

/-- **What holds of a thread is kept by every step.** -/
theorem Sound.step (hb : b.Exact) (hs : Sound b placed s) {op : Op} (hop : Allowed b placed s op)
    (hstep : (heapMachine b).step s op = some s') : Sound b placed s' := by
  cases op with
  | malloc zone tag size answer room =>
    obtain ⟨⟨⟨i, elt⟩, hbin⟩, hg⟩ := hop
    simp only [heapMachine, State.step] at hstep
    split_ifs at hstep with hrun
    obtain rfl := Option.some.inj hstep
    obtain ⟨carve, lists, hi⟩ := (hs.running hrun).room room
    refine run_of_wp (P := Sound b placed) (wp_mallocWs hi hb hbin hg) ?_ fun e h hf => hf.sound
    rintro p h ⟨m, hserved, -, hi'⟩
    rw [hserved]
    exact hi'.sound
  | free ptr answer room =>
    simp only [heapMachine, State.step] at hstep
    split_ifs at hstep with hrun
    obtain rfl := Option.some.inj hstep
    obtain ⟨hrun, o, ho, rfl⟩ := hrun
    obtain ⟨carve, lists, hi⟩ := (hs.running hrun).room room
    refine run_of_wp (P := Sound b placed) (wp_freeWs hi ho answer) ?_ fun e h hf => hf.1.sound
    rintro - h ⟨lists', hi', -⟩
    simp only [hrun]
    exact hi'.intact.sound
  | store address value =>
    simp only [heapMachine, State.step] at hstep
    split_ifs at hstep with hrun
    obtain rfl := Option.some.inj hstep
    obtain ⟨hrun, o, ho, -, hlow, -, hhigh⟩ := hrun
    obtain ⟨carve, lists, hi⟩ := hs.running hrun
    simp only [hrun]
    exact (hi.store ho hlow hhigh value).intact.sound

/-- **What holds of a thread holds in every run.** -/
theorem sound_of_reachable (hb : b.Exact)
    (hs : (heapMachine b).ReachableWith (Allowed b placed) s) : Sound b placed s :=
  hs.invariant (fun _ ⟨mem, ops, h⟩ => h ▸ sound_start mem ops) fun _ _ _ _ hi hop hstep =>
    hi.step hb hop hstep

end

/-! ### What is read off a state -/

/-- `x` is met by following the list of a slot from its head. -/
def OnList (h : Heap) (slot : Slot) (x : ℕ) : Prop :=
  h.freeLists slot ≠ 0 ∧ ∃ n, (lhNext h.mem)^[n] (h.freeLists slot) = x

/-- What is on a list in memory is what the invariant says is on it. -/
theorem HeapInv.onList_iff {b : Bins} {placed : Prop} {slabs : List SlabInfo} {live : List Obj}
    {carve : SlabInfo → Carve} {lists : Slot → List ℕ} {h : Heap}
    (hi : HeapInv b placed slabs live carve lists h) {slot : Slot} {x : ℕ} :
    OnList h slot x ↔ x ∈ lists slot := by
  by_cases hhead : h.freeLists slot = 0
  · simp [OnList, hhead, hi.lists_eq_nil hhead]
  · obtain ⟨l, hl⟩ := hi.lists_eq_cons hhead
    have hring := hi.threaded.rings slot
    rw [hl] at hring ⊢
    rw [hring.mem_iff, OnList, and_iff_right hhead]

/-- The pointers of objects, and of free regions as long as the thread runs. -/
def State.HasRegion (s : State) (x : ℕ) : Prop :=
  (∃ o ∈ s.live, o.ptr = x) ∨ s.stopped = none ∧ ∃ slot, OnList s.heap slot x

/-- What is to hold of a slab: region `k` has index `k`, all but the one of the largest index
have the size of the slab, and whatever is a region of the block is one of them. -/
def State.Regular (s : State) (t : SlabInfo) : Prop :=
  ∃ top ≤ maxSlabElts,
    (∀ k ≤ top, regionSlabIndex (s.heap.mem (t.region k)) = k ∧
      t.elt ≤ regionSize (s.heap.mem (t.region k)) ∧
      (k ≠ top → regionSize (s.heap.mem (t.region k)) = t.elt) ∧
      t.region k + regionSize (s.heap.mem (t.region k)) + blockFooterSize ≤ t.block + t.size) ∧
    ∀ x, s.HasRegion x → t.block ≤ x → x < t.block + t.size →
      ∃ k ≤ top, x = t.region k + regionHeaderSize

/-- What is to hold of an object: it is a region of a slab and leads back to its block. -/
def State.LeadsBack (s : State) (o : Obj) : Prop :=
  ∃ t ∈ s.slabs, ∃ k ≤ maxSlabElts, o.ptr = t.region k + regionHeaderSize ∧
    regionSlabIndex (s.heap.mem (regionOf o.ptr)) = k ∧
    regionSize (s.heap.mem (regionOf o.ptr)) = t.elt ∧
    blockHead s.heap.mem (regionOf o.ptr) = some t.block ∧
    blockTag s.heap.mem t.block = some t.tag

section

variable {b : Bins} {placed : Prop} {s : State} {carve : SlabInfo → Carve}

/-- The region of an address in a slab. -/
theorem Node.regionOf_eq {slabs : List SlabInfo} {t : SlabInfo} {k x : ℕ}
    (h : Node slabs carve t k x) : regionOf x = t.region k := by
  rw [regionOf, regionHeaderSize, h.eq]
  omega

/-- A slab whose words are in place is regular. -/
theorem Solid.regular (hsol : Solid s.slabs s.live carve s.heap.mem)
    (hlists : ∀ slot x, s.stopped = none → OnList s.heap slot x → ∃ t k, Node s.slabs carve t k x)
    {t : SlabInfo} (ht : t ∈ s.slabs) : s.Regular t := by
  have hf := hsol.carved.fits t ht
  have hm := hsol.carved.marked t ht
  refine ⟨(carve t).top, hf.top_le, fun k hk => ?_, fun x hx hlow hhigh => ?_⟩
  · obtain ⟨flags, hflags, hmem⟩ := hm.region k hk
    have hlen := hf.len_lt hk
    have hindex := hf.index_lt hk
    rw [hmem, regionSlabIndex_pack hlen hindex, regionSize_pack hlen hindex hflags]
    exact ⟨rfl, hf.elt_le_len k, fun hne => if_neg hne, hf.region_end hk⟩
  · have hnode : ∃ u k, Node s.slabs carve u k x := by
      rcases hx with ⟨o, ho, rfl⟩ | ⟨hrun, slot, hon⟩
      · obtain ⟨u, k, hnode, -⟩ := hsol.objects o ho
        exact ⟨u, k, hnode⟩
      · exact hlists slot x hrun hon
    obtain ⟨u, k, hnode⟩ := hnode
    by_cases hut : u = t
    · subst hut
      exact ⟨k, hnode.le, hnode.eq⟩
    · have hend := (hsol.carved.fits u hnode.mem).region_end hnode.le
      have hlen := (hsol.carved.fits u hnode.mem).elt_le_len k
      have hge := (hsol.carved.fits u hnode.mem).elt_ge
      have hblock := u.block_lt k
      have hxe := hnode.eq
      have := hsol.carved.apart u hnode.mem t ht hut
      rw [SlabInfo.Apart] at this
      rw [regionStructSize] at hge
      omega

/-- An object leads back to its slab by the index in its header. -/
theorem Solid.leadsBack (hsol : Solid s.slabs s.live carve s.heap.mem) {o : Obj}
    (ho : o ∈ s.live) : s.LeadsBack o := by
  obtain ⟨t, k, hnode, hlen⟩ := hsol.objects o ho
  have hf := hsol.carved.fits t hnode.mem
  have hm := hsol.carved.marked t hnode.mem
  obtain ⟨flags, hflags, hmem⟩ := hm.region k hnode.le
  have hlt := hf.len_lt hnode.le
  have hindex := hf.index_lt hnode.le
  refine ⟨t, hnode.mem, k, hnode.le.trans hf.top_le, hnode.eq, ?_⟩
  rw [hnode.regionOf_eq, hmem, regionSlabIndex_pack hlt hindex,
    regionSize_pack hlt hindex hflags]
  exact ⟨rfl, hlen, blockHead_region hf hm hnode.le hlen, blockTag_block hf hm⟩

/-- **Every slab object leads back to its own block**, in every run, also when the last call
failed half way. -/
theorem objects_lead_back (hb : b.Exact)
    (hs : (heapMachine b).ReachableWith (Allowed b False) s) :
    (∀ t ∈ s.slabs, s.Regular t) ∧ ∀ o ∈ s.live, s.LeadsBack o := by
  have hsound := sound_of_reachable hb hs
  by_cases hrun : s.stopped = none
  · obtain ⟨carve, lists, hi⟩ := hsound.running hrun
    exact ⟨fun t ht => hi.solid.regular (fun _ _ _ hon => hi.node_of_mem (hi.onList_iff.1 hon)) ht,
      fun o ho => hi.solid.leadsBack ho⟩
  · obtain ⟨carve, hsol⟩ := hsound.solid
    exact ⟨fun t ht => hsol.regular (fun _ _ h => absurd h hrun) ht, fun o ho => hsol.leadsBack ho⟩

end

/-- A thread with a mapping of 256 pages. -/
def mapped : State := State.start (fun _ => 0) [.add ⟨0x10000, 0, 0x100000⟩ true]

/-- Two objects of a slab, a write to the second one, and the first one is freed. -/
def shortRun : List Op :=
  [.malloc 0x10000 0 100 (.ok (grant 0x10000 20480)) 100, .malloc 0x10000 0 99 (.error .enomem) 100,
    .store 0x100f0 7, .free 0x10080 (.error .einval) 100]

theorem shortRun_ends : ∃ s,
    (heapMachine exactBins).run (fun s op => decide (Allowed exactBins True s op)) mapped shortRun =
      some s ∧ s.live = [⟨0x100f0, 99, ⟨0, 18⟩⟩] ∧ s.stopped = none := by
  have h : (((heapMachine exactBins).run (fun s op => decide (Allowed exactBins True s op)) mapped
      shortRun).map fun s => (s.live, s.stopped)) = some ([⟨0x100f0, 99, ⟨0, 18⟩⟩], none) := by
    decide +kernel
  obtain ⟨s, hs, hlook⟩ := Option.map_eq_some_iff.1 h
  exact ⟨s, hs, (Prod.mk.inj hlook).1, (Prod.mk.inj hlook).2⟩

/-- The object of a short run leads back to its block. -/
theorem objects_lead_back_shortRun : ∃ s : State,
    s.live = [⟨0x100f0, 99, ⟨0, 18⟩⟩] ∧ s.LeadsBack ⟨0x100f0, 99, ⟨0, 18⟩⟩ := by
  obtain ⟨s, hrun, hlive, -⟩ := shortRun_ends
  have hs : (heapMachine exactBins).ReachableWith (Allowed exactBins False) s := by
    have hinit : (heapMachine exactBins).ReachableWith (Allowed exactBins False) mapped :=
      .init ⟨_, _, rfl⟩
    exact hinit.run (fun s op hop => (of_decide_eq_true hop).weaken False.elim) hrun
  exact ⟨s, hlive, (objects_lead_back exactBins_exact hs).2 _ (by simp [hlive])⟩

end Slab
end Sivfs
