/-
# The chunks tile the file

`Tiled a cs w` reads the chunks of a file off the allocator: the list `cs` in the order of
their offsets and the wilderness `w` behind them, each found through the `pginfo` of the
page it starts in.  Chunks are at least a page long, so two of them start in different
pages and an update of one `pginfo` is seen by one chunk.

A merge takes a chunk out of the list (`Tiled.absorb`), and what changes flags only leaves
it alone (`Tiled.congr`).
-/

import Sivfs.Alloc.Chunks
import Mathlib.Data.List.Chain
import Mathlib.Data.Finset.Card
import Mathlib.Data.Finset.Range

namespace Sivfs
namespace Alloc

variable {ι : Type*}

/-- Chunk `d` starts where chunk `c` ends, and the `pginfo` of that page says so. -/
def Ainfo.Follows (a : Ainfo ι) (c d : ℕ) : Prop :=
  (a.chunk d).start = (a.chunk c).start + (a.chunk c).size ∧
    a.pginfo ((a.chunk d).start / pageSize) =
      some ⟨(a.chunk d).start % pageSize, some c, some d⟩

/-- The chunks `cs` and the wilderness `w` are the chunks of the file, in this order. -/
structure Tiled (a : Ainfo ι) (cs : List ℕ) (w : ℕ) : Prop where
  follows : (cs ++ [w]).IsChain a.Follows
  first : ∀ c ∈ (cs ++ [w]).head?, (a.chunk c).start = 0 ∧ a.pginfo 0 = some ⟨0, none, some c⟩
  size : ∀ c ∈ cs, pageSize ≤ (a.chunk c).size ∧ (a.chunk c).size % wordBytes = 0
  wildSize : (a.chunk w).size = sizeMax
  fits : (a.chunk w).start < u64Size
  live : ∀ c, a.live c = true ↔ c ∈ cs ++ [w]
  fresh : ∀ c ∈ cs ++ [w], c < a.nextChunk
  starts : ∀ p info c, a.pginfo p = some info → info.startsChunk = some c →
    c ∈ cs ++ [w] ∧ (a.chunk c).start / pageSize = p

namespace Tiled

variable {a a' : Ainfo ι} {cs l₁ l₂ : List ℕ} {c d e w : ℕ}

/-- The pages that chunks start in increase. -/
theorem pages (h : Tiled a cs w) :
    (cs ++ [w]).Pairwise fun x y =>
      (a.chunk x).start + (a.chunk x).size ≤ (a.chunk y).start ∧
        (a.chunk x).start / pageSize < (a.chunk y).start / pageSize := by
  have hf := h.follows
  have hs := fun c hc => (h.size c hc).1
  clear h
  induction cs with
  | nil => simp
  | cons x cs ih =>
    rw [List.cons_append] at hf ⊢
    obtain ⟨hhead, hf⟩ := List.isChain_cons.1 hf
    have hp := ih hf fun c hc => hs c (List.mem_cons_of_mem _ hc)
    refine List.pairwise_cons.2 ⟨fun y hy => ?_, hp⟩
    have hx := hs x (List.mem_cons_self ..)
    obtain ⟨z, l, hl⟩ : ∃ z l, cs ++ [w] = z :: l := List.exists_cons_of_ne_nil (by simp)
    rw [hl] at hhead hp hy
    have hz := (hhead z (by simp)).1
    have hpage : (a.chunk x).start / pageSize < (a.chunk z).start / pageSize := by
      rw [pageSize] at *
      omega
    rcases List.mem_cons.1 hy with rfl | hy
    · exact ⟨hz.ge, hpage⟩
    · obtain ⟨hzy, hpzy⟩ := (List.pairwise_cons.1 hp).1 y hy
      exact ⟨by omega, hpage.trans hpzy⟩

/-- A chunk has one place. -/
theorem nodup (h : Tiled a cs w) : (cs ++ [w]).Nodup :=
  h.pages.imp fun hxy e => (e ▸ hxy.2).false

/-- Two chunks start in different pages. -/
theorem page_inj (h : Tiled a cs w) (hc : c ∈ cs ++ [w]) (hd : d ∈ cs ++ [w])
    (hp : (a.chunk c).start / pageSize = (a.chunk d).start / pageSize) : c = d := by
  refine List.inj_on_of_nodup_map (f := fun c => (a.chunk c).start / pageSize) ?_ hc hd hp
  exact List.pairwise_map.2 (h.pages.imp fun hxy => hxy.2.ne)

/-- Two chunks do not overlap. -/
theorem apart (h : Tiled a cs w) (hc : c ∈ cs ++ [w]) (hd : d ∈ cs ++ [w]) (hne : c ≠ d) :
    (a.chunk c).start + (a.chunk c).size ≤ (a.chunk d).start ∨
      (a.chunk d).start + (a.chunk d).size ≤ (a.chunk c).start := by
  let R x y := (a.chunk x).start + (a.chunk x).size ≤ (a.chunk y).start ∨
    (a.chunk y).start + (a.chunk y).size ≤ (a.chunk x).start
  have hsymm : Std.Symm R := ⟨fun _ _ => Or.symm⟩
  have hp : (cs ++ [w]).Pairwise R := h.pages.imp fun hxy => Or.inl hxy.1
  exact hp.forall hc hd hne

/-- A chunk ends where the wilderness starts, or before. -/
theorem end_le (h : Tiled a cs w) (hc : c ∈ cs) :
    (a.chunk c).start + (a.chunk c).size ≤ (a.chunk w).start :=
  ((List.pairwise_append.1 h.pages).2.2 c hc w (by simp)).1

/-- Chunks begin within the space of addresses. -/
theorem start_lt (h : Tiled a cs w) (hc : c ∈ cs ++ [w]) : (a.chunk c).start < u64Size := by
  have hfits := h.fits
  rcases List.mem_append.1 hc with hc | hc
  · have := h.end_le hc
    omega
  · obtain rfl : c = w := by simpa using hc
    exact hfits

/-- The wilderness is none of the chunks before it. -/
theorem ne_wild (h : Tiled a cs w) (hc : c ∈ cs) : c ≠ w := by
  rintro rfl
  exact (List.disjoint_of_nodup_append h.nodup) hc (by simp)

/-- Only the wilderness has size `(size_t)-1`. -/
theorem size_eq_sizeMax (h : Tiled a cs w) (hc : c ∈ cs ++ [w]) :
    (a.chunk c).size = sizeMax ↔ c = w := by
  refine ⟨fun hs => ?_, fun e => e ▸ h.wildSize⟩
  rcases List.mem_append.1 hc with hc | hc
  · have := (h.size c hc).2
    rw [hs] at this
    exact absurd this (by decide)
  · simpa using hc

/-- The `pginfo` of the page a chunk starts in. -/
theorem pginfo_eq {l m : List ℕ} (h : Tiled a cs w) (hl : cs ++ [w] = l ++ c :: m) :
    a.pginfo ((a.chunk c).start / pageSize) =
      some ⟨(a.chunk c).start % pageSize, l.getLast?, some c⟩ := by
  rcases List.eq_nil_or_concat l with rfl | ⟨l, p, rfl⟩
  · obtain ⟨hz, hp⟩ := h.first c (by simp [hl])
    simpa [hz] using hp
  · have hf := h.follows
    rw [hl, List.concat_eq_append, List.append_assoc, List.singleton_append,
      List.isChain_append_cons_cons] at hf
    simpa using hf.2.1.2

/-- The chunk behind another one. -/
theorem start_eq {l m : List ℕ} (h : Tiled a cs w) (hl : cs ++ [w] = l ++ c :: d :: m) :
    (a.chunk d).start = (a.chunk c).start + (a.chunk c).size := by
  have hf := h.follows
  rw [hl, List.isChain_append_cons_cons] at hf
  exact hf.2.1.1

/-- A change of flags and of other fields. -/
theorem congr (h : Tiled a cs w) (hstart : ∀ c, (a'.chunk c).start = (a.chunk c).start)
    (hsize : ∀ c, (a'.chunk c).size = (a.chunk c).size) (hlive : a'.live = a.live)
    (hnext : a'.nextChunk = a.nextChunk) (hpg : a'.pginfo = a.pginfo) : Tiled a' cs w where
  follows :=
    h.follows.imp fun c d hcd => by simpa only [Ainfo.Follows, hstart, hsize, hpg] using hcd
  first := by simpa only [hstart, hpg] using h.first
  size := by simpa only [hsize] using h.size
  wildSize := by rw [hsize, h.wildSize]
  fits := by rw [hstart]; exact h.fits
  live := by simpa only [hlive] using h.live
  fresh := by simpa only [hnext] using h.fresh
  starts := by simpa only [hpg, hstart] using h.starts

/-- The `pginfo` of pages without a chunk may change as long as they start none. -/
theorem congr_pginfo (h : Tiled a cs w) {f : ℕ → Option Pginfo}
    (hsame : ∀ p, (∃ c ∈ cs ++ [w], (a.chunk c).start / pageSize = p) → f p = a.pginfo p)
    (hnone : ∀ p info, f p = some info → f p ≠ a.pginfo p → info.startsChunk = none) :
    Tiled { a with pginfo := f } cs w where
  follows := h.follows.imp_of_mem_imp fun c d _ hd hcd =>
    ⟨hcd.1, (hsame _ ⟨d, hd, rfl⟩).trans hcd.2⟩
  first := fun c hc => by
    obtain ⟨hz, hp⟩ := h.first c hc
    exact ⟨hz, (hsame 0 ⟨c, List.mem_of_mem_head? hc, by simp [hz]⟩).trans hp⟩
  size := h.size
  wildSize := h.wildSize
  fits := h.fits
  live := h.live
  fresh := h.fresh
  starts := fun p info c hp hc => by
    by_cases hf : f p = a.pginfo p
    · exact h.starts p info c (hf ▸ hp) hc
    · simp [hnone p info hp hf] at hc

/-- A segment of the chain may be replaced by one with the same first chunk and the same
end. -/
theorem splice {k m n : List ℕ} {w' : ℕ} (h : Tiled a cs w) (hall : cs ++ [w] = l₁ ++ (m ++ k))
    (hall' : l₂ ++ [w'] = l₁ ++ (n ++ k)) (hm : m ≠ []) (hn : n ≠ [])
    (hchain : n.IsChain a'.Follows)
    (hkeep : ∀ x ∈ l₁ ++ k, a'.chunk x = a.chunk x)
    (hpg : ∀ x ∈ l₁ ++ k,
      a'.pginfo ((a.chunk x).start / pageSize) = a.pginfo ((a.chunk x).start / pageSize))
    (hhead : n.head hn = m.head hm)
    (hstart : (a'.chunk (m.head hm)).start = (a.chunk (m.head hm)).start)
    (hheadpg : a'.pginfo ((a.chunk (m.head hm)).start / pageSize) =
      a.pginfo ((a.chunk (m.head hm)).start / pageSize))
    (hlast : k = [] ∨ n.getLast hn = m.getLast hm ∧
      a'.chunk (m.getLast hm) = a.chunk (m.getLast hm)) :
    (l₂ ++ [w']).IsChain a'.Follows ∧
      ∀ c ∈ (l₂ ++ [w']).head?, (a'.chunk c).start = 0 ∧ a'.pginfo 0 = some ⟨0, none, some c⟩ := by
  have hf := h.follows
  rw [hall, List.isChain_append, List.isChain_append] at hf
  obtain ⟨hl₁, ⟨-, hk, hmk⟩, hl₁m⟩ := hf
  have hfol : ∀ x y, a'.chunk x = a.chunk x → (a'.chunk y).start = (a.chunk y).start →
      a'.pginfo ((a.chunk y).start / pageSize) = a.pginfo ((a.chunk y).start / pageSize) →
      a.Follows x y → a'.Follows x y := by
    intro x y hx hy hp hxy
    exact ⟨by rw [hx, hy, hxy.1], by rw [hy, hp, hxy.2]⟩
  have hin : ∀ l, l ⊆ l₁ ++ k → l.IsChain a.Follows → l.IsChain a'.Follows := by
    intro l hl
    refine List.IsChain.imp_of_mem_imp fun x y hx hy => hfol x y (hkeep x (hl hx)) ?_
      (hpg y (hl hy))
    rw [hkeep y (hl hy)]
  rw [hall', List.isChain_append, List.isChain_append]
  refine ⟨⟨hin l₁ (by simp) hl₁, ⟨hchain, hin k (by simp) hk, ?_⟩, ?_⟩, ?_⟩
  · intro x hx y hy
    have hy' := hkeep y (List.mem_append_right _ (List.mem_of_mem_head? hy))
    rcases hlast with rfl | ⟨he, hlast⟩
    · simp at hy
    · obtain rfl : n.getLast hn = x := by
        simpa [List.getLast?_eq_some_getLast hn] using hx
      refine hfol _ y (he ▸ hlast) (by rw [hy']) (hpg y ?_) (hmk _ ?_ y hy)
      · exact List.mem_append_right _ (List.mem_of_mem_head? hy)
      · simp [he, List.getLast?_eq_some_getLast hm]
  · intro x hx y hy
    obtain rfl : n.head hn = y := by
      simpa [List.head?_append, List.head?_eq_some_head hn] using hy
    refine hfol x _ (hkeep x ?_) (hhead ▸ hstart) (hhead ▸ hheadpg) (hl₁m x hx _ ?_)
    · exact List.mem_append_left _ (List.mem_of_mem_getLast? hx)
    · simp [List.head?_append, hhead, List.head?_eq_some_head hm]
  · intro x hx
    cases l₁ with
    | nil =>
      obtain rfl : n.head hn = x := by
        simpa [List.head?_append, List.head?_eq_some_head hn] using hx
      obtain ⟨hz, hp⟩ := h.first (m.head hm)
        (by simp [hall, List.head?_append, List.head?_eq_some_head hm])
      rw [hz, Nat.zero_div] at hheadpg
      exact ⟨hhead ▸ hstart.trans hz, hheadpg.trans (hhead ▸ hp)⟩
    | cons y l₁ =>
      obtain rfl : y = x := by simpa using hx
      obtain ⟨hz, hp⟩ := h.first y (by simp [hall])
      have hy := hpg y (by simp)
      rw [hz, Nat.zero_div] at hy
      exact ⟨by rw [hkeep y (by simp), hz], hy.trans hp⟩

/-- Chunk `c` takes the chunk `d` behind it, `e` being the next one. -/
theorem absorb {l₃ : List ℕ} (h : Tiled a (l₁ ++ c :: d :: l₂) w) (he : l₂ ++ [w] = e :: l₃)
    (hchunk : a'.chunk = Function.update a.chunk c
      { a.chunk c with size := (a.chunk c).size + (a.chunk d).size })
    (hpg : a'.pginfo = Function.update
      (Function.update a.pginfo ((a.chunk d).start / pageSize) (some ⟨sizeMax, none, none⟩))
      ((a.chunk e).start / pageSize) (some ⟨(a.chunk e).start % pageSize, some c, some e⟩))
    (hlive : a'.live = Function.update a.live d false) (hnext : a'.nextChunk = a.nextChunk) :
    Tiled a' (l₁ ++ c :: l₂) w := by
  have hall : l₁ ++ c :: d :: l₂ ++ [w] = l₁ ++ c :: d :: e :: l₃ := by simp [he]
  have hall' : l₁ ++ c :: l₂ ++ [w] = l₁ ++ c :: e :: l₃ := by simp [he]
  have hnd := h.nodup
  rw [hall] at hnd
  have hmem : ∀ x, x ∈ l₁ ++ c :: d :: e :: l₃ ↔ x = d ∨ x ∈ l₁ ++ c :: e :: l₃ := by
    intro x
    simp only [List.mem_append, List.mem_cons]
    tauto
  have hd : d ∉ l₁ ++ c :: e :: l₃ := by grind
  have hstart : ∀ x, (a'.chunk x).start = (a.chunk x).start := by
    intro x
    by_cases hx : x = c
    · simp [hchunk, hx]
    · simp [hchunk, hx]
  have hkeep : ∀ x, x ≠ c → a'.chunk x = a.chunk x := by
    intro x hx
    simp [hchunk, hx]
  have hsame : ∀ x ∈ l₁ ++ c :: e :: l₃, x ≠ e →
      a'.pginfo ((a.chunk x).start / pageSize) = a.pginfo ((a.chunk x).start / pageSize) := by
    intro x hx hxe
    have hx' : x ∈ l₁ ++ c :: d :: l₂ ++ [w] := hall ▸ (hmem x).2 (.inr hx)
    have hpe : (a.chunk x).start / pageSize ≠ (a.chunk e).start / pageSize :=
      fun hp => hxe (h.page_inj hx' (by simp [he]) hp)
    have hpd : (a.chunk x).start / pageSize ≠ (a.chunk d).start / pageSize :=
      fun hp => hd ((h.page_inj hx' (by simp) hp) ▸ hx)
    rw [hpg, Function.update_of_ne hpe, Function.update_of_ne hpd]
  have hce : a'.Follows c e := by
    have hcd := h.start_eq hall
    have hde : (a.chunk e).start = (a.chunk d).start + (a.chunk d).size :=
      h.start_eq (show _ = (l₁ ++ [c]) ++ d :: e :: l₃ by simp [he])
    constructor
    · rw [hstart, hstart, hchunk, Function.update_self]
      change (a.chunk e).start = (a.chunk c).start + ((a.chunk c).size + (a.chunk d).size)
      omega
    · rw [hstart, hpg, Function.update_self]
  obtain ⟨hfollows, hfirst⟩ := splice (m := [c, d, e]) (n := [c, e]) h hall hall' (by simp)
    (by simp) (by simpa using hce) (fun x hx => hkeep x (by grind))
    (fun x hx => hsame x (by grind) (by grind)) rfl (hstart c) (hsame c (by simp) (by grind))
    (.inr ⟨rfl, hkeep e (by grind)⟩)
  refine ⟨hfollows, hfirst, fun x hx => ?_, ?_, ?_, fun x => ?_, fun x hx => ?_,
    fun p info x hp hx => ?_⟩
  · have hx' := h.size x (by grind)
    by_cases hxc : x = c
    · subst hxc
      have hd' := h.size d (by simp)
      rw [hchunk, Function.update_self]
      refine ⟨hx'.1.trans (Nat.le_add_right _ _), ?_⟩
      change ((a.chunk x).size + (a.chunk d).size) % wordBytes = 0
      rw [Nat.add_mod, hx'.2, hd'.2, Nat.zero_mod]
    · rwa [hkeep x hxc]
  · rw [hkeep w (h.ne_wild (by simp)).symm, h.wildSize]
  · rw [hstart]
    exact h.fits
  · rw [hall', hlive]
    by_cases hx : x = d
    · simp [hx, hd]
    · rw [Function.update_of_ne hx, h.live, hall, hmem]
      simp [hx]
  · rw [hnext]
    exact h.fresh x (by rw [hall, hmem, ← hall']; exact .inr hx)
  · rw [hpg] at hp
    rw [hall', hstart]
    by_cases hpe : p = (a.chunk e).start / pageSize
    · subst hpe
      rw [Function.update_self] at hp
      obtain rfl := Option.some.inj hp
      obtain rfl : e = x := Option.some.inj hx
      exact ⟨by simp, rfl⟩
    · rw [Function.update_of_ne hpe] at hp
      by_cases hpd : p = (a.chunk d).start / pageSize
      · subst hpd
        rw [Function.update_self] at hp
        obtain rfl := Option.some.inj hp
        simp at hx
      · rw [Function.update_of_ne hpd] at hp
        obtain ⟨hm, hxp⟩ := h.starts p info x hp hx
        rw [hall, hmem] at hm
        exact ⟨hm.resolve_left fun e => hpd (e ▸ hxp.symm), hxp⟩

/-- A fresh file is all wilderness. -/
theorem recover [DecidableEq ι] : Tiled (Ainfo.recover (ι := ι)) [] 0 where
  follows := by simp
  first := fun c hc => by
    obtain rfl : c = 0 := by simpa [eq_comm] using hc
    exact ⟨rfl, rfl⟩
  size := by simp
  wildSize := rfl
  fits := Nat.two_pow_pos 64
  live := by simp [Ainfo.recover]
  fresh := by simp [Ainfo.recover]
  starts := fun p info c hp hc => by
    simp only [Ainfo.recover] at hp
    split_ifs at hp with h
    obtain rfl := Option.some.inj hp
    obtain rfl : 0 = c := Option.some.inj hc
    exact ⟨by simp, by simp [Ainfo.recover, h]⟩

end Tiled

/-! ### The lists -/

/-- The chunks tile the file, the free ones are on `bestfit_list` and `R (.allocated t)`
is the list `allocated_chunks` of thread `t`. -/
structure Rep (a : Ainfo ι) (cs : List ℕ) (w : ℕ) (R : Head ι → List ℕ) : Prop where
  tiled : Tiled a cs w
  wildFree : (a.chunk w).busy = false
  lists : a.links.Lists R
  bestfit : ∀ c, c ∈ R .bestfit ↔ c ∈ cs ++ [w] ∧ (a.chunk c).busy = false
  held : ∀ t, ∀ c ∈ R (.allocated t), c ∈ cs ∧ (a.chunk c).busy = true

namespace Rep

variable {a a' : Ainfo ι} {cs l₁ l₂ : List ℕ} {c d e w : ℕ} {R : Head ι → List ℕ}

/-- There are no more chunks than were ever allocated. -/
theorem length_le (h : Tiled a cs w) {l : List ℕ} (hl : l.Nodup) (hsub : l ⊆ cs ++ [w]) :
    l.length ≤ a.nextChunk := by
  have hcard := Finset.card_le_card (s := l.toFinset) (t := Finset.range a.nextChunk)
    fun x hx => Finset.mem_range.2 (h.fresh x (hsub (List.mem_toFinset.1 hx)))
  rwa [List.toFinset_card_of_nodup hl, Finset.card_range] at hcard

/-- The list of chunks that are free, as the code walks it. -/
theorem bestfitList [DecidableEq ι] (h : Rep a cs w R) : a.bestfitList = some (R .bestfit) :=
  h.lists.toList (Nat.lt_succ_of_le
    (length_le h.tiled (h.lists.nodup _) fun c hc => ((h.bestfit c).1 hc).1))

/-- The `pginfo` of a page with a chunk is there. -/
theorem getPginfo_eq (h : Tiled a cs w) (hc : c ∈ cs ++ [w]) :
    a.getPginfo (a.chunk c).start = a := by
  obtain ⟨l₁, l₂, hl⟩ := List.append_of_mem hc
  rw [Ainfo.getPginfo, if_pos (by rw [h.pginfo_eq hl]; rfl)]

/-- What is recorded for the page that a chunk begins in. -/
theorem pg_eq {l m : List ℕ} (h : Tiled a cs w) (hl : cs ++ [w] = l ++ c :: m) :
    a.pg (a.chunk c).start = ⟨(a.chunk c).start % pageSize, l.getLast?, some c⟩ := by
  rw [Ainfo.pg, h.pginfo_eq hl, Option.getD_some]

/-- A change of flags that leaves the lists alone. -/
theorem congr (h : Rep a cs w R) (hstart : ∀ c, (a'.chunk c).start = (a.chunk c).start)
    (hsize : ∀ c, (a'.chunk c).size = (a.chunk c).size)
    (hbusy : ∀ c, (a'.chunk c).busy = (a.chunk c).busy) (hlive : a'.live = a.live)
    (hnext : a'.nextChunk = a.nextChunk) (hpg : a'.pginfo = a.pginfo)
    (hlinks : a'.links = a.links) :
    Rep a' cs w R where
  tiled := h.tiled.congr hstart hsize hlive hnext hpg
  wildFree := by rw [hbusy, h.wildFree]
  lists := hlinks ▸ h.lists
  bestfit := by simpa only [hbusy] using h.bestfit
  held := by simpa only [hbusy] using h.held

variable [DecidableEq ι]

/-- **A fresh file.** -/
theorem recover : Rep (Ainfo.recover (ι := ι)) [] 0
    (fun | .bestfit => [0] | .allocated _ => []) where
  tiled := Tiled.recover
  wildFree := rfl
  lists := by
    refine ⟨fun g => ?_, fun g => ?_, fun {g g' x} hx hx' => ?_⟩
    · cases g with
      | bestfit => exact ⟨⟨rfl, rfl⟩, rfl, rfl⟩
      | allocated t => exact ⟨rfl, rfl⟩
    · cases g <;> simp
    · cases g <;> cases g' <;> simp_all
  bestfit := fun c => by
    simp only [List.mem_singleton, List.nil_append]
    exact ⟨fun e => ⟨e, e ▸ rfl⟩, And.left⟩
  held := by simp

omit [DecidableEq ι] in
/-- A `pginfo` may be inserted where there is none. -/
theorem getPginfo (h : Rep a cs w R) (offset : ℕ) : Rep (a.getPginfo offset) cs w R := by
  rw [Ainfo.getPginfo]
  split_ifs with hp
  · exact h
  · refine ⟨h.tiled.congr_pginfo ?_ ?_, h.wildFree, h.lists, h.bestfit, h.held⟩
    · rintro p ⟨c, hc, rfl⟩
      obtain ⟨l₁, l₂, hl⟩ := List.append_of_mem hc
      refine Function.update_of_ne (fun e => hp ?_) _ _
      rw [← e, h.tiled.pginfo_eq hl]
      rfl
    · intro p info hf hne
      by_cases hpo : p = offset / pageSize
      · subst hpo
        rw [Function.update_self] at hf
        obtain rfl := Option.some.inj hf
        rfl
      · exact absurd (Function.update_of_ne hpo _ _) hne

omit [DecidableEq ι] in
/-- The flags of one chunk change and its list with them. -/
theorem setFlags (h : Rep a cs w R) {x : Chunk} {L : Links (ListNode (Head ι) ℕ)}
    {R' : Head ι → List ℕ} (hc : c ∈ cs) (hstart : x.start = (a.chunk c).start)
    (hsize : x.size = (a.chunk c).size) (hL : L.Lists R')
    (hother : ∀ g y, y ≠ c → (y ∈ R' g ↔ y ∈ R g))
    (hbest : c ∈ R' .bestfit ↔ x.busy = false)
    (hheld : ∀ t, c ∈ R' (.allocated t) → x.busy = true) :
    Rep { a.setChunk c x with links := L } cs w R' := by
  have hcw := h.tiled.ne_wild hc
  have hkeep : ∀ y, y ≠ c → (Function.update a.chunk c x) y = a.chunk y :=
    fun y hy => Function.update_of_ne hy _ _
  refine ⟨h.tiled.congr (fun y => ?_) (fun y => ?_) rfl rfl rfl, ?_, hL, fun y => ?_,
    fun t y hy => ?_⟩
  · by_cases hy : y = c
    · simp [Ainfo.setChunk, hy, hstart]
    · simp [Ainfo.setChunk, hy]
  · by_cases hy : y = c
    · simp [Ainfo.setChunk, hy, hsize]
    · simp [Ainfo.setChunk, hy]
  · simp only [Ainfo.setChunk, hkeep w hcw.symm, h.wildFree]
  · by_cases hy : y = c
    · subst hy
      simp [Ainfo.setChunk, hbest, hc]
    · simp only [Ainfo.setChunk, hkeep y hy, hother _ y hy, h.bestfit]
  · by_cases hyc : y = c
    · subst hyc
      exact ⟨hc, by simpa [Ainfo.setChunk] using hheld t hy⟩
    · obtain ⟨hycs, hyb⟩ := h.held t y ((hother _ y hyc).1 hy)
      exact ⟨hycs, by simpa only [Ainfo.setChunk, hkeep y hyc] using hyb⟩

/-- A free chunk that is not the wilderness is moved to the list of thread `t`. -/
theorem takeChunk (h : Rep a cs w R) (t : ι) (hc : c ∈ cs) (hfree : (a.chunk c).busy = false) :
    ∃ a' R', Alloc.takeChunk t c a = some a' ∧ Rep a' cs w R' ∧
      a'.chunk = Function.update a.chunk c (a.chunk c).allocate ∧
      ∀ u, R' (.allocated u) = if u = t then c :: R (.allocated u) else R (.allocated u) := by
  have hb : c ∈ R .bestfit := (h.bestfit c).2 ⟨by simp [hc], hfree⟩
  obtain ⟨L, hdel, hL, -⟩ := h.lists.del hb
  have hout : ∀ g, c ∉ Function.update R .bestfit ((R .bestfit).erase c) g := by
    intro g hg
    cases g with
    | bestfit =>
      rw [Function.update_self] at hg
      exact (h.lists.nodup _).not_mem_erase hg
    | allocated u =>
      rw [Function.update_of_ne (by simp)] at hg
      exact absurd (h.lists.disjoint hb hg) (by simp)
  obtain ⟨L', hadd, hL'⟩ := hL.add hout (.allocated t)
  have hmove : a.links.move (.item c) (.head (.allocated t)) = some L' := by
    rw [Links.move, hdel, Option.bind_some, hadd]
  refine ⟨{ a.setChunk c (a.chunk c).allocate with links := L' }, _,
    by rw [Alloc.takeChunk, hmove, Option.map_some], h.setFlags hc rfl rfl hL' ?_ ?_ ?_, rfl,
    fun u => ?_⟩
  · intro g y hy
    cases g with
    | bestfit => simp [(h.lists.nodup _).mem_erase_iff, hy]
    | allocated u =>
      by_cases hu : u = t
      · simp [hu, hy]
      · simp [hu]
  · simpa using hout .bestfit
  · simp
  · by_cases hu : u = t
    · simp [hu]
    · simp [hu]

/-- A chunk on no list is released to `bestfit_list`. -/
theorem putChunk (h : Rep a cs w R) (hc : c ∈ cs) (hR : ∀ g, c ∉ R g) (ts : Ts) :
    ∃ L R', a.links.add (.item c) (.head .bestfit) = some L ∧
      Rep { a.setChunk c ((a.chunk c).release ts) with links := L } cs w R' ∧
      ∀ t, R' (.allocated t) = R (.allocated t) := by
  obtain ⟨L, hadd, hL⟩ := h.lists.add hR .bestfit
  refine ⟨L, _, hadd, h.setFlags hc (by simp) (by simp) hL ?_ (by simp) ?_, by simp⟩
  · intro g y hy
    rw [Function.update_apply]
    split_ifs with hg
    · simp [hy, hg]
    · rfl
  · intro t ht
    rw [Function.update_of_ne (by simp)] at ht
    exact absurd ht (hR _)

end Rep

end Alloc
end Sivfs
