/-
# A chunk is split

`sivfs_alloc_block` keeps the first bytes of a chunk and makes a new chunk of the rest, which
it puts on `bestfit_list`.  The `pginfo` of two pages change: the one that the new chunk starts
in, and the one of the chunk behind it.

`SplitOff` says what has changed.  The list of the chunks gets the new one behind the old
(`Tiled.split`): the chain (`Tiled.split_follows`), the sizes (`Tiled.split_sizes`) and what
the pages know (`Tiled.split_starts`) are looked at one by one.
-/

import Sivfs.Alloc.Tiles

namespace Sivfs
namespace Alloc

variable {ι : Type*}

/-- Chunk `c` keeps its first `size` bytes and the new chunk `r` gets the other `remain`; `m`
are the chunks behind `c`. -/
structure SplitOff (a a' : Ainfo ι) (m : List ℕ) (c r size remain : ℕ) : Prop where
  chunk : a'.chunk = Function.update (Function.update a.chunk r
    ⟨(a.chunk c).lastFreed, (a.chunk c).start + size, remain⟩) c { a.chunk c with size := size }
  page : a'.pginfo (((a.chunk c).start + size) / pageSize) =
    some ⟨((a.chunk c).start + size) % pageSize, some c, some r⟩
  nextPage : ∀ e ∈ m.head?, a'.pginfo ((a.chunk e).start / pageSize) =
    some ⟨(a.chunk e).start % pageSize, some r, some e⟩
  pages : ∀ p, p ≠ ((a.chunk c).start + size) / pageSize →
    (∀ e ∈ m.head?, p ≠ (a.chunk e).start / pageSize) → a'.pginfo p = a.pginfo p
  live : a'.live = Function.update a.live r true
  nextChunk : a'.nextChunk = r + 1

namespace SplitOff

variable {a a' : Ainfo ι} {m : List ℕ} {c r size remain x : ℕ}

/-- The other chunks are what they were. -/
theorem chunk_of_ne (h : SplitOff a a' m c r size remain) (hc : x ≠ c) (hr : x ≠ r) :
    a'.chunk x = a.chunk x := by
  rw [h.chunk, Function.update_of_ne hc, Function.update_of_ne hr]

/-- The chunk is cut to the size that is wanted. -/
theorem chunk_self (h : SplitOff a a' m c r size remain) :
    a'.chunk c = { a.chunk c with size := size } := by
  rw [h.chunk, Function.update_self]

/-- What remains is a chunk behind it, freed when the whole was. -/
theorem chunk_new (h : SplitOff a a' m c r size remain) (hrc : r ≠ c) :
    a'.chunk r = ⟨(a.chunk c).lastFreed, (a.chunk c).start + size, remain⟩ := by
  rw [h.chunk, Function.update_of_ne hrc, Function.update_self]

/-- No chunk that was there moves. -/
theorem start_of_ne (h : SplitOff a a' m c r size remain) (hr : x ≠ r) :
    (a'.chunk x).start = (a.chunk x).start := by
  by_cases hc : x = c
  · rw [hc, h.chunk_self]
  · rw [h.chunk_of_ne hc hr]

/-- None becomes free or allocated. -/
theorem busy_of_ne (h : SplitOff a a' m c r size remain) (hr : x ≠ r) :
    (a'.chunk x).busy = (a.chunk x).busy := by
  by_cases hc : x = c
  · rw [hc, h.chunk_self]
    rfl
  · rw [h.chunk_of_ne hc hr]

end SplitOff

namespace Tiled

variable {a a' : Ainfo ι} {cs l₁ l₂ : List ℕ} {c d e w : ℕ}

/-- No chunk starts in the page in which a chunk is split. -/
theorem page_ne (h : Tiled a cs w) {size : ℕ} (hc : c ∈ cs ++ [w]) (hsize : pageSize ≤ size)
    (hlt : size + pageSize < (a.chunk c).size) {x : ℕ} (hx : x ∈ cs ++ [w]) :
    (a.chunk x).start / pageSize ≠ ((a.chunk c).start + size) / pageSize := by
  rw [pageSize] at *
  by_cases hxc : x = c
  · subst hxc
    omega
  · have := h.apart hx hc hxc
    omega

section Split

variable {m cs' : List ℕ} {r w' size remain : ℕ}

/-- The pages of the other chunks stay as they are. -/
theorem split_pginfo (h : Tiled a cs w) (hs : SplitOff a a' m c r size remain)
    (hall : cs ++ [w] = l₁ ++ c :: m) (hsize : pageSize ≤ size)
    (hlt : size + pageSize < (a.chunk c).size) {x : ℕ} (hx : x ∈ l₁ ++ c :: m) (hxm : x ∉ m.head?) :
    a'.pginfo ((a.chunk x).start / pageSize) = a.pginfo ((a.chunk x).start / pageSize) := by
  refine hs.pages _ (h.page_ne (by simp [hall]) hsize hlt (hall ▸ hx)) fun e he hp => hxm ?_
  rwa [h.page_inj (hall ▸ hx) (hall ▸ by simp [List.mem_of_mem_head? he]) hp]

/-- **The chain** has the new chunk behind the old one. -/
theorem split_follows (h : Tiled a cs w) (hs : SplitOff a a' m c r size remain)
    (hall : cs ++ [w] = l₁ ++ c :: m) (hall' : cs' ++ [w'] = l₁ ++ c :: r :: m)
    (hfresh : r ∉ l₁ ++ c :: m) (hsize : pageSize ≤ size)
    (hlt : size + pageSize < (a.chunk c).size)
    (hremain : m ≠ [] → remain = (a.chunk c).size - size) :
    (cs' ++ [w']).IsChain a'.Follows ∧ ∀ c ∈ (cs' ++ [w']).head?,
      (a'.chunk c).start = 0 ∧ a'.pginfo 0 = some ⟨0, none, some c⟩ := by
  have hnd := h.nodup
  rw [hall] at hnd
  have hrc : r ≠ c := by grind
  have hsame := fun {x} => h.split_pginfo hs hall hsize hlt (x := x)
  have hcr : a'.Follows c r := by
    constructor
    · rw [hs.chunk_new hrc, hs.chunk_self]
    · rw [hs.chunk_new hrc, hs.page]
  cases m with
  | nil =>
    exact splice (m := [c]) (n := [c, r]) (k := []) h hall hall' (by simp) (by simp)
      (by simpa using hcr) (fun x hx => hs.chunk_of_ne (by grind) (by grind))
      (fun x hx => hsame (by grind) (by simp)) rfl (hs.start_of_ne hrc.symm)
      (hsame (by simp) (by simp)) (.inl rfl)
  | cons e m =>
    have hre : a'.Follows r e := by
      have hce := h.start_eq hall
      have her : e ≠ r := by grind
      constructor
      · rw [hs.start_of_ne her, hs.chunk_new hrc, hce, hremain (by simp)]
        change _ = (a.chunk c).start + size + ((a.chunk c).size - size)
        omega
      · rw [hs.start_of_ne her, hs.nextPage e (by simp)]
    exact splice (m := [c, e]) (n := [c, r, e]) h hall hall' (by simp) (by simp)
      (by simpa using ⟨hcr, hre⟩) (fun x hx => hs.chunk_of_ne (by grind) (by grind))
      (fun x hx => hsame (by grind) (by simp; grind)) rfl (hs.start_of_ne hrc.symm)
      (hsame (by simp) (by simp; grind)) (.inr ⟨rfl, hs.chunk_of_ne (by grind) (by grind)⟩)

/-- **The sizes**: the rest is the wilderness if the old chunk was. -/
theorem split_sizes (h : Tiled a cs w) (hs : SplitOff a a' m c r size remain)
    (hall : cs ++ [w] = l₁ ++ c :: m) (hall' : cs' ++ [w'] = l₁ ++ c :: r :: m)
    (hfresh : r ∉ l₁ ++ c :: m) (hsize : pageSize ≤ size) (hword : size % wordBytes = 0)
    (hlt : size + pageSize < (a.chunk c).size)
    (hremain : m ≠ [] → remain = (a.chunk c).size - size)
    (hwild : m = [] → remain = sizeMax ∧ (a.chunk c).start + size < u64Size) :
    (∀ x ∈ cs', pageSize ≤ (a'.chunk x).size ∧ (a'.chunk x).size % wordBytes = 0) ∧
      (a'.chunk w').size = sizeMax ∧ (a'.chunk w').start < u64Size := by
  have hnd := h.nodup
  rw [hall] at hnd
  have hrc : r ≠ c := by grind
  have hcsize : pageSize ≤ (a'.chunk c).size ∧ (a'.chunk c).size % wordBytes = 0 := by
    rw [hs.chunk_self]
    exact ⟨hsize, hword⟩
  rcases List.eq_nil_or_concat m with rfl | ⟨m, z, rfl⟩
  · obtain ⟨rfl, hw⟩ := List.append_inj' hall rfl
    obtain ⟨rfl, hw'⟩ := List.append_inj' (hall'.trans (by simp : _ = (cs ++ [c]) ++ [r])) rfl
    obtain rfl : w = c := by simpa using hw
    obtain rfl : w' = r := by simpa using hw'
    obtain ⟨hremain, hfits⟩ := hwild rfl
    rw [hs.chunk_new hrc]
    refine ⟨fun x hx => ?_, hremain, hfits⟩
    by_cases hxw : x = w
    · exact hxw ▸ hcsize
    · rw [hs.chunk_of_ne hxw (by grind)]
      exact h.size x (by grind)
  · rw [List.concat_eq_append] at hall hall'
    obtain ⟨rfl, hw⟩ := List.append_inj' (hall.trans (by simp : _ = (l₁ ++ c :: m) ++ [z])) rfl
    obtain ⟨rfl, hw'⟩ := List.append_inj'
      (hall'.trans (by simp : _ = (l₁ ++ c :: r :: m) ++ [z])) rfl
    obtain rfl : w = z := by simpa using hw
    obtain rfl : w' = w := by simpa using hw'
    rw [hs.chunk_of_ne (show w' ≠ c by grind) (show w' ≠ r by grind)]
    refine ⟨fun x hx => ?_, h.wildSize, h.fits⟩
    by_cases hxc : x = c
    · exact hxc ▸ hcsize
    by_cases hxr : x = r
    · have hc := (h.size c (by simp)).2
      rw [hxr, hs.chunk_new hrc, hremain (by simp)]
      change pageSize ≤ (a.chunk c).size - size ∧ ((a.chunk c).size - size) % wordBytes = 0
      rw [pageSize] at *
      rw [wordBytes] at *
      omega
    · rw [hs.chunk_of_ne hxc hxr]
      exact h.size x (by grind)

/-- **What the pages know**: a chunk that a page has starts there. -/
theorem split_starts (h : Tiled a cs w) (hs : SplitOff a a' m c r size remain)
    (hall : cs ++ [w] = l₁ ++ c :: m) (hfresh : r ∉ l₁ ++ c :: m) {p x : ℕ} {info : Pginfo}
    (hp : a'.pginfo p = some info) (hx : info.startsChunk = some x) :
    (x = r ∨ x ∈ l₁ ++ c :: m) ∧ (a'.chunk x).start / pageSize = p := by
  have hrc : r ≠ c := by grind
  by_cases hpr : p = ((a.chunk c).start + size) / pageSize
  · subst hpr
    obtain rfl := Option.some.inj (hs.page.symm.trans hp)
    obtain rfl : r = x := Option.some.inj hx
    exact ⟨.inl rfl, by rw [hs.chunk_new hrc]⟩
  by_cases hpe : ∀ e ∈ m.head?, p ≠ (a.chunk e).start / pageSize
  · rw [hs.pages p hpr hpe] at hp
    obtain ⟨hm, hxp⟩ := h.starts p info x hp hx
    rw [hall] at hm
    exact ⟨.inr hm, by rw [hs.start_of_ne (by grind), hxp]⟩
  · push Not at hpe
    obtain ⟨e, he, rfl⟩ := hpe
    obtain rfl := Option.some.inj ((hs.nextPage e he).symm.trans hp)
    obtain rfl : e = x := Option.some.inj hx
    have hem : e ∈ m := List.mem_of_mem_head? he
    exact ⟨.inr (by simp [hem]), by rw [hs.start_of_ne (by grind)]⟩

/-- **A split puts a chunk into the list.** -/
theorem split (h : Tiled a cs w) (hs : SplitOff a a' m c r size remain)
    (hall : cs ++ [w] = l₁ ++ c :: m) (hall' : cs' ++ [w'] = l₁ ++ c :: r :: m)
    (hr : r = a.nextChunk) (hsize : pageSize ≤ size) (hword : size % wordBytes = 0)
    (hlt : size + pageSize < (a.chunk c).size)
    (hremain : m ≠ [] → remain = (a.chunk c).size - size)
    (hwild : m = [] → remain = sizeMax ∧ (a.chunk c).start + size < u64Size) :
    Tiled a' cs' w' := by
  have hfresh : r ∉ l₁ ++ c :: m := fun hm => (hr ▸ h.fresh r (hall ▸ hm)).false
  have hmem : ∀ x, x ∈ l₁ ++ c :: r :: m ↔ x = r ∨ x ∈ l₁ ++ c :: m := by
    intro x
    simp only [List.mem_append, List.mem_cons]
    tauto
  obtain ⟨hfollows, hfirst⟩ := h.split_follows hs hall hall' hfresh hsize hlt hremain
  obtain ⟨hsizes, hwildSize, hfits⟩ :=
    h.split_sizes hs hall hall' hfresh hsize hword hlt hremain hwild
  refine ⟨hfollows, hfirst, hsizes, hwildSize, hfits, fun x => ?_, fun x hx => ?_,
    fun p info x hp hx => ?_⟩
  · rw [hall', hs.live, hmem]
    by_cases hx : x = r
    · simp [hx]
    · rw [Function.update_of_ne hx, h.live, hall]
      simp [hx]
  · rw [hall', hmem] at hx
    rw [hs.nextChunk]
    rcases hx with rfl | hx
    · omega
    · have := h.fresh x (hall ▸ hx)
      omega
  · rw [hall', hmem]
    exact h.split_starts hs hall hfresh hp hx

end Split

end Tiled

namespace Rep

variable {a a' : Ainfo ι} {cs l₁ l₂ : List ℕ} {c d e w : ℕ} {R : Head ι → List ℕ}

variable [DecidableEq ι]

/-- The state after `sivfs_alloc_block` split chunk `c`. -/
theorem splitRep (h : Rep a cs w R) {m : List ℕ} {size remain : ℕ} (hall : cs ++ [w] = l₁ ++ c :: m)
    (hfree : (a.chunk c).busy = false) (hsize : pageSize ≤ size) (hword : size % wordBytes = 0)
    (hlt : size + pageSize < (a.chunk c).size)
    (hremain : m ≠ [] → remain = (a.chunk c).size - size)
    (hwild : m = [] → remain = sizeMax ∧ (a.chunk c).start + size < u64Size)
    (hs : SplitOff a a' m c a.nextChunk size remain)
    (hL : a'.links.Lists (Function.update R .bestfit (a.nextChunk :: R .bestfit))) :
    ∃ cs' w', cs' ++ [w'] = l₁ ++ c :: a.nextChunk :: m ∧ c ∈ cs' ∧ (∀ x ∈ cs, x ∈ cs') ∧
      (a.chunk w).start ≤ (a'.chunk w').start ∧
      Rep a' cs' w' (Function.update R .bestfit (a.nextChunk :: R .bestfit)) := by
  have hfresh : a.nextChunk ∉ l₁ ++ c :: m := fun hm => (h.tiled.fresh _ (hall ▸ hm)).false
  have hne : a.nextChunk ≠ c := by grind
  obtain ⟨cs', w', hall', hcs', hw'⟩ : ∃ cs' w', cs' ++ [w'] = l₁ ++ c :: a.nextChunk :: m ∧
      (∀ x ∈ cs, x ∈ cs') ∧ (w' = a.nextChunk ∧ w = c ∨ w' = w ∧ w ≠ c) := by
    rcases List.eq_nil_or_concat m with rfl | ⟨m, z, rfl⟩
    · obtain ⟨rfl, hw⟩ := List.append_inj' hall rfl
      exact ⟨cs ++ [c], a.nextChunk, by simp, fun x hx => by simp [hx],
        .inl ⟨rfl, by simpa using hw⟩⟩
    · rw [List.concat_eq_append] at hall
      obtain ⟨rfl, hw⟩ := List.append_inj' (hall.trans (by simp : _ = (l₁ ++ c :: m) ++ [z])) rfl
      obtain rfl : w = z := by simpa using hw
      refine ⟨l₁ ++ c :: a.nextChunk :: m, w, by simp, fun x hx => ?_, .inr ⟨rfl, ?_⟩⟩
      · grind
      · exact (h.tiled.ne_wild (by simp)).symm
  have hcw' : c ≠ w' := by
    rcases hw' with ⟨rfl, -⟩ | ⟨rfl, hw⟩
    · exact hne.symm
    · exact hw.symm
  have hkeep := fun {x} => hs.busy_of_ne (x := x)
  have hfree' : (a'.chunk a.nextChunk).busy = false := by
    rw [hs.chunk_new hne]
    exact hfree
  refine ⟨cs', w', hall', ?_, hcs', ?_, ?_, ?_, hL, fun x => ?_, fun t x hx => ?_⟩
  · have hc : c ∈ cs' ++ [w'] := by simp [hall']
    simpa [hcw'] using hc
  · rcases hw' with ⟨rfl, rfl⟩ | ⟨rfl, hw⟩
    · rw [hs.chunk_new hne]
      exact Nat.le_add_right _ _
    · exact (hs.start_of_ne fun e => hfresh (hall ▸ e ▸ by simp)).ge
  · exact h.tiled.split hs hall hall' rfl hsize hword hlt hremain hwild
  · rcases hw' with ⟨rfl, -⟩ | ⟨rfl, -⟩
    · exact hfree'
    · exact (hkeep fun e => hfresh (hall ▸ e ▸ by simp)).trans h.wildFree
  · rw [Function.update_self, hall']
    by_cases hx : x = a.nextChunk
    · subst hx
      simp [hfree']
    · have hx' : x ∈ l₁ ++ c :: a.nextChunk :: m ↔ x ∈ l₁ ++ c :: m := by
        simp [hx]
      rw [List.mem_cons, or_iff_right hx, h.bestfit, hx', ← hall, hkeep hx]
  · rw [Function.update_of_ne (by simp)] at hx
    obtain ⟨hxcs, hxb⟩ := h.held t x hx
    exact ⟨hcs' x hxcs, (hkeep fun e => hfresh (hall ▸ e ▸ by simp [hxcs])).trans hxb⟩

/-- **A split**, or no memory for one. -/
theorem splitChunk (h : Rep a cs w R) (mem : Memory) {m : List ℕ} {size : ℕ}
    (hall : cs ++ [w] = l₁ ++ c :: m) (hfree : (a.chunk c).busy = false)
    (hsize : pageSize ≤ size) (hword : size % wordBytes = 0)
    (hlt : size + pageSize < (a.chunk c).size) (hfits : (a.chunk c).start + size < u64Size) :
    ∃ a' e, Alloc.splitChunk mem c size a = some (a', e) ∧
      (e = some .enomem ∧ Rep a' cs w R ∧ a'.chunk = a.chunk ∨
        e = none ∧ ∃ cs' w' R', cs' ++ [w'] = l₁ ++ c :: a.nextChunk :: m ∧ c ∈ cs' ∧
          (∀ x ∈ cs, x ∈ cs') ∧ (a.chunk w).start ≤ (a'.chunk w').start ∧ Rep a' cs' w' R' ∧
          a'.chunk = Function.update (Function.update a.chunk a.nextChunk
            ⟨(a.chunk c).lastFreed, (a.chunk c).start + size,
              if (a.chunk c).size = sizeMax then sizeMax else (a.chunk c).size - size⟩) c
            { a.chunk c with size := size } ∧
          ∀ t, R' (.allocated t) = R (.allocated t)) := by
  have hcm : c ∈ cs ++ [w] := by simp [hall]
  have hfresh : a.nextChunk ∉ cs ++ [w] := fun hm => (h.tiled.fresh _ hm).false
  have hR : ∀ g, a.nextChunk ∉ R g := by
    intro g hg
    cases g with
    | bestfit => exact hfresh ((h.bestfit _).1 hg).1
    | allocated t => exact hfresh (by simp [(h.held t _ hg).1])
  obtain ⟨L, hadd, hL⟩ := h.lists.add hR .bestfit
  have hb : ((a.chunk c).start + size) % u64Size = (a.chunk c).start + size :=
    Nat.mod_eq_of_lt hfits
  have hp := h.getPginfo ((a.chunk c).start + size)
  have hf : ∀ p, p ≠ ((a.chunk c).start + size) / pageSize →
      (a.getPginfo ((a.chunk c).start + size)).pginfo p = a.pginfo p :=
    fun p hp => a.getPginfo_of_ne hp
  have hsz : (a.chunk c).size = sizeMax ↔ m = [] := by
    rw [h.tiled.size_eq_sizeMax hcm]
    constructor
    · rintro rfl
      by_contra hm
      obtain ⟨m, z, rfl⟩ := (List.eq_nil_or_concat m).resolve_left hm
      rw [List.concat_eq_append] at hall
      obtain ⟨rfl, -⟩ := List.append_inj' (hall.trans (by simp : _ = (l₁ ++ c :: m) ++ [z])) rfl
      exact h.tiled.ne_wild (by simp) rfl
    · rintro rfl
      simpa [eq_comm] using (List.append_inj' hall rfl).2
  have hdone : ∀ A : Ainfo ι, A.links = L →
      SplitOff a A m c a.nextChunk size
        (if (a.chunk c).size = sizeMax then sizeMax else (a.chunk c).size - size) →
      ∃ cs' w' R', cs' ++ [w'] = l₁ ++ c :: a.nextChunk :: m ∧ c ∈ cs' ∧ (∀ x ∈ cs, x ∈ cs') ∧
        (a.chunk w).start ≤ (A.chunk w').start ∧ Rep A cs' w' R' ∧
        A.chunk = Function.update (Function.update a.chunk a.nextChunk
          ⟨(a.chunk c).lastFreed, (a.chunk c).start + size,
            if (a.chunk c).size = sizeMax then sizeMax else (a.chunk c).size - size⟩) c
          { a.chunk c with size := size } ∧
        ∀ t, R' (.allocated t) = R (.allocated t) := by
    intro A hlinks hs
    obtain ⟨cs', w', hall', hc', hcs', hwild, hrep⟩ := h.splitRep hall hfree hsize hword hlt
      (fun hm => if_neg (mt hsz.1 hm)) (fun hm => ⟨if_pos (hsz.2 hm), hfits⟩) hs (hlinks ▸ hL)
    exact ⟨cs', w', _, hall', hc', hcs', hwild, hrep, hs.chunk, by simp⟩
  obtain ⟨r, hr⟩ : ∃ r, Alloc.splitChunk mem c size a = r := ⟨_, rfl⟩
  rw [hr]
  rw [Alloc.splitChunk] at hr
  cases m with
  | nil =>
    have hw := hsz.2 rfl
    simp only [hb, hw, ne_eq, not_true_eq_false, decide_false, Bool.false_eq_true, if_false,
      Bool.false_and, Ainfo.getPginfo_links, Ainfo.getPginfo_nextChunk, Ainfo.setPginfo_links,
      Ainfo.setChunk_links, hadd, Option.map_some] at hr
    split_ifs at hr with hbound hmem
    · exact hr ▸ ⟨_, _, rfl, .inl ⟨rfl, h, rfl⟩⟩
    · exact hr ▸ ⟨_, _, rfl, .inl ⟨rfl, hp, by simp⟩⟩
    · refine hr ▸ ⟨_, _, rfl, .inr ⟨rfl, hdone _ rfl ⟨?_, ?_, by simp, ?_, ?_, rfl⟩⟩⟩
      · simp [Ainfo.setPginfo, Ainfo.setChunk, hw]
      · simp [Ainfo.setPginfo]
      · intro p hpb _
        simp [Ainfo.setPginfo, Ainfo.setChunk, hpb, hf]
      · simp [Ainfo.setPginfo, Ainfo.setChunk]
  | cons e m =>
    have hw : (a.chunk c).size ≠ sizeMax := by simp [hsz]
    have hem : e ∈ cs ++ [w] := by simp [hall]
    have hstop : ((a.chunk c).start + (a.chunk c).size) % u64Size = (a.chunk e).start := by
      rw [← h.tiled.start_eq hall, Nat.mod_eq_of_lt (h.tiled.start_lt hem)]
    have hpe := h.tiled.page_ne hcm hsize hlt hem
    have hge : (a.getPginfo ((a.chunk c).start + size)).getPginfo (a.chunk e).start =
        a.getPginfo ((a.chunk c).start + size) := by
      simpa using Rep.getPginfo_eq hp.tiled (c := e) hem
    have hpge := h.tiled.pginfo_eq (show _ = (l₁ ++ [c]) ++ e :: m by simp [hall])
    have hlack : (a.getPginfo ((a.chunk c).start + size)).lacksPginfo mem.stop
        (a.chunk e).start = false := by
      rw [Ainfo.lacksPginfo, hf _ hpe, hpge]
      simp
    simp only [hb, hw, ne_eq, not_false_eq_true, decide_true, if_true, Bool.true_and, hstop, hge,
      hlack, Bool.false_eq_true, if_false, Ainfo.getPginfo_links, Ainfo.getPginfo_nextChunk,
      Ainfo.setPginfo_links, Ainfo.setChunk_links, hadd, Option.map_some] at hr
    split_ifs at hr with hbound hmem
    · exact hr ▸ ⟨_, _, rfl, .inl ⟨rfl, h, rfl⟩⟩
    · exact hr ▸ ⟨_, _, rfl, .inl ⟨rfl, hp, by simp⟩⟩
    · refine hr ▸ ⟨_, _, rfl, .inr ⟨rfl, hdone _ rfl ⟨?_, ?_, ?_, ?_, ?_, rfl⟩⟩⟩
      · simp [Ainfo.setPginfo, Ainfo.setChunk, hw]
      · simp [Ainfo.setPginfo, hpe.symm]
      · intro x hx
        obtain rfl : e = x := by simpa using hx
        simp [Ainfo.setPginfo, Ainfo.setChunk, Ainfo.pg, hpe, hf, hpge]
      · intro p hpb hpe
        simp [Ainfo.setPginfo, Ainfo.setChunk, hpb, hf, hpe e (by simp)]
      · simp [Ainfo.setPginfo, Ainfo.setChunk]

end Rep

end Alloc
end Sivfs
