/-
# Safety of the slab heap

`SlabSafe` is what a program relies on: its objects do not meet each other, nor any header,
footer or list node; the lists hold free regions of the size of their bins; and an object that
is freed goes to the list it came from.

A request from `2^64 - 15` to `2^64 - 8` bytes is rounded to `2^64 - 8`, its size with a header
wraps to `0`, and it gets a region for three words (`not_slabSafe_wrap`).  Without such a
request, and with blocks that lie in their mappings and go into a header word, the heap is safe
in every state of every run (`slab_heap_safe`).
-/

import Sivfs.Slab.Runs

namespace Sivfs
namespace Slab

open Call

/-- The words that are not the program's: headers and footers of blocks, headers of regions,
and list nodes. -/
inductive State.Reserved (s : State) (a : ℕ) : Prop where
  | header (t : SlabInfo) (ht : t ∈ s.slabs) (h : a = t.block)
  | footer (t : SlabInfo) (ht : t ∈ s.slabs) (h : a = t.footer ∨ a = t.footer + wordBytes)
  | object (o : Obj) (ho : o ∈ s.live) (h : a = regionOf o.ptr)
  | node (slot : Slot) (x : ℕ) (hx : OnList s.heap slot x)
      (h : a = regionOf x ∨ a = x ∨ a = x + wordBytes)

/-- What is to hold of the heap of a thread. -/
structure SlabSafe (b : Bins) (s : State) : Prop where
  disjoint : s.live.Pairwise fun o p => o.ptr + o.size ≤ p.ptr ∨ p.ptr + p.size ≤ o.ptr
  clear : ∀ o ∈ s.live, ∀ a, s.Reserved a → a + wordBytes ≤ o.ptr ∨ o.ptr + o.size ≤ a
  free : ∀ slot x, OnList s.heap slot x → isFreed (s.heap.mem (regionOf x)) ∧
    b.maxsize slot.bin ≤ regionSize (s.heap.mem (regionOf x))
  linked : ∀ slot x, OnList s.heap slot x → lhPrev s.heap.mem (lhNext s.heap.mem x) = x
  circular : ∀ slot, s.heap.freeLists slot ≠ 0 →
    ∃ n, (lhNext s.heap.mem)^[n + 1] (s.heap.freeLists slot) = s.heap.freeLists slot
  returns : ∀ o ∈ s.live, ∀ answer room, (freeWs b answer o.ptr).wp
    (fun _ h => OnList h o.slot o.ptr) (fun e _ => e = .fatal .enomem)
    { s.heap with room := room }

/-- A request is a `size_t` that does not wrap when a header is added to it, or one that is
rounded to `0`. -/
def Op.Fits : Op → Prop
  | .malloc _ _ size _ _ => size < 2 ^ 64 ∧ (size ≤ 2 ^ 64 - 16 ∨ 2 ^ 64 - 8 < size)
  | _ => True

/-- What a run may do: blocks are in their mappings and requests fit. -/
def Bounded (b : Bins) (s : State) (op : Op) : Prop := Allowed b True s op ∧ op.Fits

instance : (op : Op) → Decidable op.Fits
  | .malloc _ _ _ _ _ => inferInstanceAs (Decidable (_ ∧ _))
  | .free _ _ _ => isTrue trivial
  | .store _ _ => isTrue trivial

instance (b : Bins) (s : State) (op : Op) : Decidable (Bounded b s op) :=
  inferInstanceAs (Decidable (_ ∧ _))

section

variable {b : Bins} {s s' : State} {carve : SlabInfo → Carve} {lists : Slot → List ℕ}

/-- The bytes of an object are in its region, behind the header. -/
theorem HeapInv.object_span {placed : Prop} {slabs : List SlabInfo} {live : List Obj} {h : Heap}
    (hi : HeapInv b placed slabs live carve lists h) {o : Obj} (ho : o ∈ live)
    (hsize : o.size ≤ 2 ^ 64 - 16) : ∃ t k, Node slabs carve t k o.ptr ∧
      t.len (carve t) k % 8 = 0 ∧ o.ptr + o.size ≤ t.region k + t.len (carve t) k := by
  obtain ⟨t, k, hnode, -, hlen, -, hfit⟩ := hi.objects o ho
  have hmod := (hi.carved.fits t hnode.mem).elt_mod
  have hfit := hfit hsize
  have hxe := hnode.eq
  rw [regionHeaderSize] at hfit
  exact ⟨t, k, hnode, hlen ▸ hmod, by omega⟩

theorem HeapInv.slabSafe (hi : HeapInv b True s.slabs s.live carve lists s.heap)
    (hsize : ∀ o ∈ s.live, o.size ≤ 2 ^ 64 - 16) : SlabSafe b s := by
  refine ⟨?_, fun o ho a ha => ?_, fun slot x hx => ?_, fun slot x hx => ?_, fun slot hne => ?_,
    fun o ho answer room => ?_⟩
  · refine List.Pairwise.imp_of_mem (fun {o p} ho hp hne => ?_) (List.pairwise_map.1 hi.live_nodup)
    obtain ⟨t, j, ht, -, hot⟩ := hi.object_span ho (hsize o ho)
    obtain ⟨u, k, hu, -, hpu⟩ := hi.object_span hp (hsize p hp)
    have hte := ht.eq
    have hue := hu.eq
    have := hi.carved.region_apart ht.mem hu.mem ht.le hu.le (by omega)
    omega
  · obtain ⟨t, k, ht, hmod, hot⟩ := hi.object_span ho (hsize o ho)
    have hte := ht.eq
    have hrmod := (hi.carved.fits t ht.mem).region_mod k
    have hfixed : ∀ u ∈ s.slabs, u.Fixed (carve u) a → a % 8 = 0 →
        a + wordBytes ≤ o.ptr ∨ o.ptr + o.size ≤ a := by
      intro u hu hfix hamod
      by_contra hmeet
      rw [wordBytes] at hmeet
      exact hi.carved.not_fixed ht.mem ht.le (a := a) (by omega) (by omega) u hu hfix
    cases ha with
    | header u hu h =>
      exact hfixed u hu (.header h) (h ▸ (hi.carved.fits u hu).block_mod)
    | footer u hu h =>
      have hfoot := (hi.carved.fits u hu).footer_eq
      have hbmod := (hi.carved.fits u hu).block_mod
      have hsmod := (hi.carved.fits u hu).size_mod
      rw [wordBytes] at h hbmod hsmod
      rcases h with h | h
      · exact hfixed u hu (.footerTag h) (by omega)
      · exact hfixed u hu (.footerSize h) (by omega)
    | object p hp h =>
      obtain ⟨u, j, hu, -⟩ := hi.object_span hp (hsize p hp)
      rw [hu.regionOf_eq] at h
      exact hfixed u hu.mem (.region j hu.le h) (h ▸ (hi.carved.fits u hu.mem).region_mod j)
    | node slot x hx h =>
      obtain ⟨u, j, hu⟩ := hi.node_of_mem (hi.onList_iff.1 hx)
      have hue := hu.eq
      have hne : o.ptr ≠ x := fun e => hi.object_not_mem ho slot (e ▸ hi.onList_iff.1 hx)
      have hapart := hi.carved.region_apart ht.mem hu.mem ht.le hu.le (by omega)
      have hlen := (hi.carved.fits u hu.mem).elt_le_len j
      have hge := (hi.carved.fits u hu.mem).elt_ge
      rw [hu.regionOf_eq, wordBytes] at h
      rw [regionStructSize] at hge
      rw [wordBytes]
      omega
  · obtain ⟨t, k, hnode, hhome, f, hmem⟩ := hi.listed slot x (hi.onList_iff.1 hx)
    have hf := hi.carved.fits t hnode.mem
    have hlen := hf.len_lt hnode.le
    have hindex := hf.index_lt hnode.le
    rw [hnode.regionOf_eq, hmem, regionSize_pack hlen hindex (freeFlags_lt f),
      ← hi.elt_eq hnode.mem hhome]
    exact ⟨(isFreed_pack hlen hindex).2 (freeFlags_mod f), hf.elt_le_len k⟩
  · exact (hi.threaded.rings slot).prev_next (hi.onList_iff.1 hx)
  · obtain ⟨l, hl⟩ := hi.lists_eq_cons hne
    have hring := hi.threaded.rings slot
    rw [hl] at hring
    exact hring.cycle
  · have hroom : HeapInv b True s.slabs s.live carve lists { s.heap with room := room } :=
      hi.congr rfl rfl rfl
    refine wp_mono (wp_freeWs hroom ho answer) ?_ fun e h he => he.2 trivial
    rintro - h ⟨lists', hi', hon⟩
    exact hi'.onList_iff.2 (hon trivial)

/-- What is served is not rounded to `0`. -/
theorem sized_step (hb : b.Exact) (hs : Sound b True s) (hsize : ∀ o ∈ s.live, o.size ≤ 2 ^ 64 - 16)
    {op : Op} (hop : Bounded b s op) (hstep : (heapMachine b).step s op = some s') :
    ∀ o ∈ s'.live, o.size ≤ 2 ^ 64 - 16 := by
  cases op with
  | malloc zone tag size answer room =>
    obtain ⟨⟨⟨⟨i, elt⟩, hbin⟩, hg⟩, hlt, hfits⟩ := hop
    simp only [heapMachine, State.step] at hstep
    split_ifs at hstep with hrun
    obtain rfl := Option.some.inj hstep
    obtain ⟨carve, lists, hi⟩ := (hs.running hrun).room room
    refine run_of_wp (P := fun s : State => ∀ o ∈ s.live, o.size ≤ 2 ^ 64 - 16)
      (wp_mallocWs hi hb hbin hg) ?_ fun _ _ _ => hsize
    rintro p h ⟨m, hserved, hround, -⟩
    rw [hserved]
    intro o ho
    rcases List.mem_cons.1 ho with rfl | ho
    · exact hfits.resolve_right fun hwrap => hround (roundUp_wrap hwrap hlt)
    · exact hsize o ho
  | free ptr answer room =>
    simp only [heapMachine, State.step] at hstep
    split_ifs at hstep with hrun
    obtain rfl := Option.some.inj hstep
    obtain ⟨hrun, o, ho, rfl⟩ := hrun
    obtain ⟨carve, lists, hi⟩ := (hs.running hrun).room room
    exact run_of_wp (P := fun s : State => ∀ o ∈ s.live, o.size ≤ 2 ^ 64 - 16)
      (wp_freeWs hi ho answer) (fun _ _ _ p hp => hsize p (List.mem_of_mem_filter hp))
      fun _ _ _ => hsize
  | store address value =>
    simp only [heapMachine, State.step] at hstep
    split_ifs at hstep with hrun
    obtain rfl := Option.some.inj hstep
    exact hsize

/-- **The slab heap is safe** in every state of every run that stays within bounds. -/
theorem slab_heap_safe (hb : b.Exact) (hs : (heapMachine b).ReachableWith (Bounded b) s)
    (hrun : s.stopped = none) : SlabSafe b s := by
  have hsized : ∀ o ∈ s.live, o.size ≤ 2 ^ 64 - 16 := by
    refine hs.invariant (I := fun s => ∀ o ∈ s.live, o.size ≤ 2 ^ 64 - 16) ?_ ?_
    · rintro _ ⟨mem, ops, rfl⟩
      simp [State.start]
    · intro s₁ op s₂ hreach hsize hop hstep
      exact sized_step hb (sound_of_reachable hb (hreach.mono fun _ _ h => h.1)) hsize hop hstep
  obtain ⟨carve, lists, hi⟩ := (sound_of_reachable hb (hs.mono fun _ _ h => h.1)).running hrun
  exact hi.slabSafe hsized

end

/-- The heap after two requests, a write and a free. -/
theorem slab_heap_safe_shortRun : ∃ s : State, s.live = [⟨0x100f0, 99, ⟨0, 18⟩⟩] ∧
    SlabSafe exactBins s := by
  have h : (((heapMachine exactBins).run (fun s op => decide (Bounded exactBins s op)) mapped
      shortRun).map fun s => (s.live, s.stopped)) = some ([⟨0x100f0, 99, ⟨0, 18⟩⟩], none) := by
    decide +kernel
  obtain ⟨s, hrun, hlook⟩ := Option.map_eq_some_iff.1 h
  obtain ⟨hlive, hstopped⟩ := Prod.mk.inj hlook
  have hinit : (heapMachine exactBins).ReachableWith (Bounded exactBins) mapped := .init ⟨_, _, rfl⟩
  have hs := hinit.run (fun s op hop => of_decide_eq_true hop) hrun
  exact ⟨s, hlive, slab_heap_safe exactBins_exact hs hstopped⟩

/-- A request for `2 ^ 64 - 8` bytes gets a region for three words: the object meets the footer
of its block. -/
theorem not_slabSafe_wrap : ¬∀ s, (heapMachine exactBins).ReachableWith (Allowed exactBins True) s →
    s.stopped = none → SlabSafe exactBins s := by
  intro hall
  have h : (((heapMachine exactBins).run (fun s op => decide (Allowed exactBins True s op)) mapped
      [.malloc 0x10000 0 (2 ^ 64 - 8) (.ok (grant 0x10000 20480)) 100]).map fun s =>
        (s.live, s.slabs, s.stopped)) =
      some ([⟨0x10028, 2 ^ 64 - 8, ⟨0, 7⟩⟩], [⟨0x10000, 20480, 0, 24, ⟨0, 7⟩⟩], none) := by
    decide +kernel
  obtain ⟨s, hrun, hlook⟩ := Option.map_eq_some_iff.1 h
  simp only [Prod.mk.injEq] at hlook
  obtain ⟨hlive, hslabs, hstopped⟩ := hlook
  have hinit : (heapMachine exactBins).ReachableWith (Allowed exactBins True) mapped :=
    .init ⟨_, _, rfl⟩
  have hs := hinit.run (fun s op hop => of_decide_eq_true hop) hrun
  have hclear := (hall s hs hstopped).clear ⟨0x10028, 2 ^ 64 - 8, ⟨0, 7⟩⟩ (by simp [hlive]) 0x14ff0
    (.footer ⟨0x10000, 20480, 0, 24, ⟨0, 7⟩⟩ (by simp [hslabs]) (.inl (by decide)))
  exact absurd hclear (by decide)

end Slab
end Sivfs
