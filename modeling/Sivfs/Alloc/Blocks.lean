/-
# What the operations on blocks do

One lemma for each operation of the allocator on chunks that tile the file:
`Rep.allocBlock` grants a free chunk or the first part of one, `Rep.freeBlock` marks an
allocated chunk, and `Rep.releaseBlock` puts a chunk on `bestfit_list` and merges.

What a release merges is read off the state before it: `Ainfo.mergePlan` lists the pairs
of a chunk and the chunk behind it that it takes, in the order of the merges, and
`Merged` performs such a list.
-/

import Sivfs.Alloc.Split

namespace Sivfs
namespace Alloc

variable {ι : Type*} [DecidableEq ι] {a a' : Ainfo ι} {cs cs' l₁ l₂ : List ℕ} {c d e w w' : ℕ}
  {R R' : Head ι → List ℕ}

/-! ### Allocation -/

omit [DecidableEq ι] in
/-- What the search finds is large enough, and visible unless it is the wilderness. -/
theorem firstFit_some {ts : Ts} {size : ℕ} {l : List ℕ} {wild : Option ℕ}
    (h : firstFit a ts size l wild = some c) : wild = some c ∨ c ∈ l ∧ size ≤ (a.chunk c).size ∧
      ((a.chunk c).size = sizeMax ∨ (a.chunk c).isFreeVisible ts = true) := by
  induction l generalizing wild with
  | nil => exact .inl h
  | cons x l ih =>
    rw [firstFit] at h
    split_ifs at h with hlt hmax hvis
    · rcases ih h with h | ⟨hc, h⟩
      · exact .inl h
      · exact .inr ⟨List.mem_cons_of_mem _ hc, h⟩
    · rcases ih h with h | ⟨hc, h⟩
      · obtain rfl := Option.some.inj h
        exact .inr ⟨List.mem_cons_self .., Nat.le_of_not_lt hlt, .inl hmax⟩
      · exact .inr ⟨List.mem_cons_of_mem _ hc, h⟩
    · obtain rfl := Option.some.inj h
      exact .inr ⟨List.mem_cons_self .., Nat.le_of_not_lt hlt, .inr hvis⟩
    · rcases ih h with h | ⟨hc, h⟩
      · exact .inl h
      · exact .inr ⟨List.mem_cons_of_mem _ hc, h⟩

/-- Chunk `c` was granted to thread `t`: all of it, or its first part when it was split. -/
structure Granted (a a' : Ainfo ι) (cs cs' : List ℕ) (w w' : ℕ) (R R' : Head ι → List ℕ) (t : ι)
    (size c : ℕ) : Prop where
  rep : Rep a' cs' w' R'
  mem : c ∈ cs ++ [w]
  free : (a.chunk c).busy = false
  mem' : c ∈ cs'
  sub : ∀ x ∈ cs, x ∈ cs'
  keep : ∀ x ∈ cs ++ [w], x ≠ c → a'.chunk x = a.chunk x
  chunk : ∃ n, size ≤ n ∧ n ≤ (a.chunk c).size ∧
    a'.chunk c = Chunk.allocate { a.chunk c with size := n }
  rest : ∀ x ∈ cs' ++ [w'], x ∉ cs ++ [w] → (a'.chunk x).lastFreed = (a.chunk c).lastFreed ∧
    (a.chunk c).start ≤ (a'.chunk x).start ∧
    (c = w ∨ (a'.chunk x).start + (a'.chunk x).size ≤ (a.chunk c).start + (a.chunk c).size)
  wild : (a.chunk w).start ≤ (a'.chunk w').start
  held : ∀ u, R' (.allocated u) = if u = t then c :: R (.allocated u) else R (.allocated u)

/-- `sivfs_alloc_block` would be served from offsets that `size_t` holds. -/
def FitsAlloc (a : Ainfo ι) (ts : Ts) (size : ℕ) : Prop :=
  ∀ l ∈ a.bestfitList, ∀ c ∈ firstFit a ts size l none, (a.chunk c).start + size < u64Size

instance (a : Ainfo ι) (ts : Ts) (size : ℕ) : Decidable (FitsAlloc a ts size) :=
  inferInstanceAs (Decidable (∀ l ∈ a.bestfitList, ∀ c ∈ firstFit a ts size l none,
    (a.chunk c).start + size < u64Size))

/-- **Allocation** fails and changes no chunk, or grants one. -/
theorem Rep.allocBlock (h : Rep a cs w R) (mem : Memory) (t : ι) (ts : Ts) {size : ℕ}
    (hsize : pageSize ≤ size) (hfits : FitsAlloc a ts size) :
    ∃ a' r, Alloc.allocBlock mem t ts size a = some (a', r) ∧
      ((∃ e, r = .error e ∧ Rep a' cs w R ∧ a'.chunk = a.chunk) ∨
        ∃ c cs' w' R', r = .ok c ∧ Granted a a' cs cs' w w' R R' t size c ∧
          (c = w ∨ (a.chunk c).isFreeVisible ts = true)) := by
  rw [Alloc.allocBlock]
  split_ifs with hmax hword
  · exact ⟨_, _, rfl, .inl ⟨_, rfl, h, rfl⟩⟩
  · exact ⟨_, _, rfl, .inl ⟨_, rfl, h, rfl⟩⟩
  rw [not_ne_iff] at hword
  rw [h.bestfitList, Option.bind_some]
  cases hfit : firstFit a ts size (R .bestfit) none with
  | none => exact ⟨_, _, rfl, .inl ⟨_, rfl, h, rfl⟩⟩
  | some c =>
    obtain ⟨hcR, hle, hvis⟩ := (firstFit_some hfit).resolve_left (by simp)
    obtain ⟨hcm, hfree⟩ := (h.bestfit c).1 hcR
    have hvis' : c = w ∨ (a.chunk c).isFreeVisible ts = true :=
      hvis.imp_left (h.tiled.size_eq_sizeMax hcm).1
    have hend := hfits _ h.bestfitList c hfit
    have hmaxlt : maxBlockAllocSize + pageSize < sizeMax := by decide
    dsimp only
    split_ifs with hlt
    · obtain ⟨l₁, m, hall⟩ := List.append_of_mem hcm
      obtain ⟨a₁, e, hsplit, hres⟩ := h.splitChunk mem hall hfree hsize hword hlt hend
      rw [hsplit, Option.bind_some]
      rcases hres with ⟨rfl, hrep, hchunk⟩ | ⟨rfl, cs', w', R₁, hall', hc', hsub, hwild, hrep,
        hchunk, hheld⟩
      · exact ⟨_, _, rfl, .inl ⟨_, rfl, hrep, hchunk⟩⟩
      · have hfresh : a.nextChunk ∉ cs ++ [w] := fun hm => (h.tiled.fresh _ hm).false
        have hne : a.nextChunk ≠ c := fun e => hfresh (e ▸ hcm)
        have hc₁ : a₁.chunk c = { a.chunk c with size := size } := by
          rw [hchunk, Function.update_self]
        obtain ⟨a', R', htake, hrep', hchunk', hheld'⟩ :=
          hrep.takeChunk t hc' (by rw [hc₁]; exact hfree)
        refine ⟨a', .ok c, by rw [htake]; rfl, .inr ⟨c, cs', w', R', rfl, ⟨hrep', hcm, hfree, hc',
          hsub, fun x hx hxc => ?_, ⟨size, le_rfl, hle, ?_⟩, fun x hx hnew => ?_, ?_, fun u => ?_⟩,
          hvis'⟩⟩
        · have hxr : x ≠ a.nextChunk := fun e => hfresh (e ▸ hx)
          rw [hchunk', Function.update_of_ne hxc, hchunk, Function.update_of_ne hxc,
            Function.update_of_ne hxr]
        · rw [hchunk', Function.update_self, hc₁]
        · obtain rfl : x = a.nextChunk := by
            rw [hall', List.mem_append, List.mem_cons, List.mem_cons] at hx
            rw [hall, List.mem_append, List.mem_cons] at hnew
            tauto
          rw [hchunk', Function.update_of_ne hne, hchunk, Function.update_of_ne hne,
            Function.update_self]
          refine ⟨rfl, Nat.le_add_right _ _, ?_⟩
          rw [← h.tiled.size_eq_sizeMax hcm]
          by_cases hw : (a.chunk c).size = sizeMax
          · exact .inl hw
          · refine .inr ?_
            simp only [if_neg hw]
            omega
        · rwa [hchunk', Function.update_of_ne (hrep.tiled.ne_wild hc').symm]
        · rw [hheld', hheld]
    · have hcw : c ≠ w := by
        rintro rfl
        rw [h.tiled.wildSize] at hlt
        omega
      have hc' : c ∈ cs := by simpa [hcw] using hcm
      obtain ⟨a', R', htake, hrep', hchunk', hheld'⟩ := h.takeChunk t hc' hfree
      refine ⟨a', .ok c, by rw [htake]; rfl, .inr ⟨c, cs, w, R', rfl, ⟨hrep', hcm, hfree, hc',
        fun _ => id, fun x hx hxc => ?_, ⟨(a.chunk c).size, hle, le_rfl, ?_⟩,
        fun x hx hnew => absurd hx hnew, ?_, hheld'⟩, hvis'⟩⟩
      · rw [hchunk', Function.update_of_ne hxc]
      · rw [hchunk', Function.update_self]
      · rw [hchunk', Function.update_of_ne hcw.symm]

/-! ### Freeing -/

omit [DecidableEq ι] in
/-- **A free** dooms the transaction and changes no chunk, or marks the chunk at its
offset. -/
theorem Rep.freeBlock (h : Rep a cs w R) {ts : Ts} {offset : ℕ} {r : Option ℕ}
    (hf : Alloc.freeBlock ts offset a = some (a', r)) :
    Rep a' cs w R ∧ (r = none ∧ a'.chunk = a.chunk ∨
      ∃ c ∈ cs, r = some c ∧ (a.chunk c).start = offset ∧ (a.chunk c).lastFreed.allocated = true ∧
        ((a.chunk c).lastFreed.ts : Ts) ≤ ts ∧
        a'.chunk = Function.update a.chunk c (a.chunk c).setFreeing) := by
  have hp := h.getPginfo offset
  rw [Alloc.freeBlock] at hf
  simp only [Ainfo.getPginfo_pg, Ainfo.getPginfo_chunk] at hf
  split_ifs at hf with hnull hoff
  · obtain ⟨rfl, rfl⟩ := Prod.mk.inj (Option.some.inj hf)
    exact ⟨hp, .inl ⟨rfl, by simp⟩⟩
  · obtain ⟨rfl, rfl⟩ := Prod.mk.inj (Option.some.inj hf)
    exact ⟨hp, .inl ⟨rfl, by simp⟩⟩
  rw [not_ne_iff] at hoff
  cases hstarts : (a.pg offset).startsChunk with
  | none => simp [hstarts] at hf
  | some c =>
    simp only [hstarts] at hf
    split_ifs at hf with hfree hts
    · obtain ⟨rfl, rfl⟩ := Prod.mk.inj (Option.some.inj hf)
      exact ⟨hp, .inl ⟨rfl, by simp⟩⟩
    · obtain ⟨rfl, rfl⟩ := Prod.mk.inj (Option.some.inj hf)
      exact ⟨hp, .inl ⟨rfl, by simp⟩⟩
    · obtain ⟨rfl, rfl⟩ := Prod.mk.inj (Option.some.inj hf)
      have halloc : (a.chunk c).lastFreed.allocated = true := by
        simpa [Chunk.isFree] using hfree
      have hbusy : (a.chunk c).busy = true := by simp [Chunk.busy, halloc]
      obtain ⟨info, hinfo⟩ : ∃ info, a.pginfo (offset / pageSize) = some info := by
        cases hi : a.pginfo (offset / pageSize) with
        | none => simp [Ainfo.pg, hi] at hstarts
        | some info => exact ⟨info, rfl⟩
      have hpg : a.pg offset = info := by rw [Ainfo.pg, hinfo, Option.getD_some]
      obtain ⟨hcm, hpage⟩ := h.tiled.starts _ info c hinfo (hpg ▸ hstarts)
      have hcw : c ≠ w := by
        rintro rfl
        simp [h.wildFree] at hbusy
      obtain ⟨m₁, m₂, hall⟩ := List.append_of_mem hcm
      have hstart : (a.chunk c).start % pageSize = offset % pageSize := by
        rw [← hoff, hpg]
        have := h.tiled.pginfo_eq hall
        rw [hpage, hinfo] at this
        rw [Option.some.inj this]
      refine ⟨?_, .inr ⟨c, by simpa [hcw] using hcm, rfl, ?_, halloc, not_lt.1 hts, ?_⟩⟩
      · refine hp.congr (fun x => ?_) (fun x => ?_) (fun x => ?_) rfl rfl rfl rfl
        all_goals
          by_cases hx : x = c
          · simp [Ainfo.setChunk, hx, hbusy]
          · simp [Ainfo.setChunk, hx]
      · rw [← Nat.div_add_mod (a.chunk c).start pageSize, hpage, hstart, Nat.div_add_mod]
      · simp [Ainfo.setChunk]

/-! ### Merges -/

/-- The chunks `l` behind a chunk that it takes one after the other. -/
def mergesNext (f : ℕ → Chunk) : ℕ → List ℕ → List ℕ
  | _, [] => []
  | budget, d :: l =>
    if (f d).busy ∨ budget < (f d).size then []
    else d :: mergesNext f (budget - (f d).size) l

/-- The merges of a chunk `c` of a size with the chunks before it, the nearest first; a
chunk that is busy is the last one to take the chunk behind it. -/
def mergesPrev (f : ℕ → Chunk) : ℕ → ℕ → ℕ → List ℕ → List (ℕ × ℕ)
  | _, _, _, [] => []
  | budget, size, c, p :: l =>
    if budget < size then []
    else (p, c) ::
      if (f p).busy then [] else mergesPrev f (budget - size) ((f p).size + size) p l

namespace Ainfo

omit [DecidableEq ι]

/-- The chunks behind chunk `c` up to the wilderness, at most `n`. -/
def ahead (a : Ainfo ι) : ℕ → ℕ → List ℕ
  | 0, _ => []
  | n + 1, c =>
    match (a.pg ((a.chunk c).start + (a.chunk c).size)).startsChunk with
    | none => []
    | some d => if (a.chunk d).size = sizeMax then [] else d :: a.ahead n d

/-- The chunks before chunk `c`, the nearest first, at most `n`. -/
def behind (a : Ainfo ι) : ℕ → ℕ → List ℕ
  | 0, _ => []
  | n + 1, c =>
    match (a.pg (a.chunk c).start).endsChunk with
    | none => []
    | some p => p :: a.behind n p

/-- The merges when chunk `c` is released: each pair is a chunk and the one it takes. -/
def mergePlan (a : Ainfo ι) (c : ℕ) : List (ℕ × ℕ) :=
  let budget := (a.chunk c).size * 4 % u64Size
  let taken := mergesNext a.chunk budget (a.ahead a.nextChunk c)
  let gained := (taken.map fun d => (a.chunk d).size).sum
  taken.map (fun d => (c, d)) ++
    mergesPrev a.chunk (budget - gained) ((a.chunk c).size + gained) c (a.behind a.nextChunk c)

/-- The chunks ahead of one, as the merge finds them. -/
theorem ahead_eq (h : Tiled a (l₁ ++ c :: l₂) w) {n : ℕ} (hn : l₂.length ≤ n) :
    a.ahead n c = l₂ := by
  induction l₂ generalizing l₁ c n with
  | nil =>
    cases n with
    | zero => rfl
    | succ n =>
      have hall : l₁ ++ [c] ++ [w] = l₁ ++ c :: w :: [] := by simp
      rw [ahead, ← h.start_eq hall, Rep.pg_eq h (l := l₁ ++ [c]) rfl]
      simp [h.wildSize]
  | cons d l₂ ih =>
    obtain ⟨n, rfl⟩ : ∃ m, n = m + 1 := ⟨n - 1, by simp at hn; omega⟩
    have hall : l₁ ++ c :: d :: l₂ ++ [w] = l₁ ++ c :: d :: (l₂ ++ [w]) := by simp
    have hd : (a.chunk d).size ≠ sizeMax :=
      mt (h.size_eq_sizeMax (by simp)).1 (h.ne_wild (by simp))
    rw [ahead, ← h.start_eq hall, Rep.pg_eq h (l := l₁ ++ [c]) (m := l₂ ++ [w]) (by simp)]
    simp only [hd, if_false]
    rw [ih (show Tiled a ((l₁ ++ [c]) ++ d :: l₂) w by simpa using h) (by simpa using hn)]

/-- And those behind it, the nearest first. -/
theorem behind_eq (h : Tiled a (l₁ ++ c :: l₂) w) {n : ℕ} (hn : l₁.length ≤ n) :
    a.behind n c = l₁.reverse := by
  induction l₁ using List.reverseRecOn generalizing c l₂ n with
  | nil =>
    cases n with
    | zero => rfl
    | succ n =>
      rw [behind, Rep.pg_eq h (l := []) (m := l₂ ++ [w]) (by simp)]
      rfl
  | append_singleton l p ih =>
    obtain ⟨n, rfl⟩ : ∃ m, n = m + 1 := ⟨n - 1, by simp at hn; omega⟩
    rw [behind, Rep.pg_eq h (l := l ++ [p]) (m := l₂ ++ [w]) (by simp)]
    simp only [List.getLast?_concat]
    rw [ih (show Tiled a (l ++ p :: c :: l₂) w by simpa using h) (by simpa using hn)]
    simp

end Ainfo

/-- The chunks after merges: in each of them a chunk takes the free chunk behind it. -/
inductive Merged : (ℕ → Chunk) → List ℕ → List (ℕ × ℕ) → (ℕ → Chunk) → List ℕ → Prop
  | refl (f : ℕ → Chunk) (cs : List ℕ) : Merged f cs [] f cs
  | step {f f' : ℕ → Chunk} {l₁ l₂ cs' : List ℕ} {c d : ℕ} {plan : List (ℕ × ℕ)} :
    (f d).busy = false → (f d).start = (f c).start + (f c).size → 0 < (f d).size →
    Merged (Function.update f c { f c with size := (f c).size + (f d).size }) (l₁ ++ c :: l₂) plan
      f' cs' →
    Merged f (l₁ ++ c :: d :: l₂) ((c, d) :: plan) f' cs'

/-- One merge after the other. -/
theorem Merged.append {f f' f'' : ℕ → Chunk} {cs cs' cs'' : List ℕ} {p q : List (ℕ × ℕ)}
    (h : Merged f cs p f' cs') (h' : Merged f' cs' q f'' cs'') : Merged f cs (p ++ q) f'' cs'' := by
  induction h with
  | refl => exact h'
  | step hd hstart hsize _ ih => exact .step hd hstart hsize (ih h')

/-- A merge changes no flag, no timestamp and no start. -/
theorem Merged.keep {f f' : ℕ → Chunk} {plan : List (ℕ × ℕ)} (h : Merged f cs plan f' cs') (x : ℕ) :
    (f' x).lastFreed = (f x).lastFreed ∧ (f' x).start = (f x).start ∧ (f x).size ≤ (f' x).size := by
  induction h with
  | refl => exact ⟨rfl, rfl, le_rfl⟩
  | @step f _ _ _ _ c d _ _ _ _ _ ih =>
    obtain ⟨hl, hs, hsize⟩ := ih
    by_cases hx : x = c
    · subst hx
      rw [Function.update_self] at hl hs hsize
      exact ⟨hl, hs, (Nat.le_add_right _ _).trans hsize⟩
    · rw [Function.update_of_ne hx] at hl hs hsize
      exact ⟨hl, hs, hsize⟩

/-- No flag changes in a merge. -/
theorem Merged.busy {f f' : ℕ → Chunk} {plan : List (ℕ × ℕ)} (h : Merged f cs plan f' cs') (x : ℕ) :
    (f' x).busy = (f x).busy := by
  rw [Chunk.busy, Chunk.busy, (h.keep x).1]

/-- A chunk that takes none is not changed. -/
theorem Merged.eq {f f' : ℕ → Chunk} {plan : List (ℕ × ℕ)} (h : Merged f cs plan f' cs') {x : ℕ}
    (hx : ∀ m ∈ plan, m.1 ≠ x) : f' x = f x := by
  induction h with
  | refl => rfl
  | @step f _ _ _ _ c d _ _ _ _ _ ih =>
    rw [ih fun m hm => hx m (List.mem_cons_of_mem _ hm),
      Function.update_of_ne (hx _ (List.mem_cons_self ..)).symm]

/-- A chunk that takes one grows. -/
theorem Merged.lt {f f' : ℕ → Chunk} {plan : List (ℕ × ℕ)} (h : Merged f cs plan f' cs')
    {m : ℕ × ℕ} (hm : m ∈ plan) : (f m.1).size < (f' m.1).size := by
  induction h with
  | refl => simp at hm
  | @step f _ _ _ _ c d _ _ _ hsize hmerged ih =>
    have hle := (hmerged.keep m.1).2.2
    by_cases hmc : m.1 = c
    · rw [hmc] at hle ⊢
      rw [Function.update_self] at hle
      exact (Nat.lt_add_of_pos_right hsize).trans_le hle
    · have := ih ((List.mem_cons.1 hm).resolve_left fun e => hmc (e ▸ rfl))
      rwa [Function.update_of_ne hmc] at this

/-- A merge makes no chunk. -/
theorem Merged.subset {f f' : ℕ → Chunk} {plan : List (ℕ × ℕ)} (h : Merged f cs plan f' cs') :
    cs' ⊆ cs := by
  induction h with
  | refl => exact List.Subset.refl _
  | step _ _ _ _ ih => exact fun x hx => by have := ih hx; simp at this ⊢; tauto

/-- A busy chunk stays. -/
theorem Merged.mem_of_busy {f f' : ℕ → Chunk} {plan : List (ℕ × ℕ)} (h : Merged f cs plan f' cs')
    {x : ℕ} (hx : x ∈ cs) (hb : (f x).busy = true) : x ∈ cs' := by
  induction h with
  | refl => exact hx
  | @step f _ l₁ l₂ _ c d _ hd _ _ _ ih =>
    have hxd : x ≠ d := by
      rintro rfl
      simp [hd] at hb
    refine ih (by simpa [hxd] using hx) ?_
    by_cases hxc : x = c
    · subst hxc
      rwa [Function.update_self]
    · rwa [Function.update_of_ne hxc]

/-- The bytes of a chunk end up in one chunk: itself, or one that took another. -/
theorem Merged.covers {f f' : ℕ → Chunk} {plan : List (ℕ × ℕ)} (h : Merged f cs plan f' cs') {x : ℕ}
    (hx : x ∈ cs) : ∃ y ∈ cs', (f' y).start ≤ (f x).start ∧
      (f x).start + (f x).size ≤ (f' y).start + (f' y).size ∧ (y = x ∨ ∃ m ∈ plan, m.1 = y) := by
  induction h generalizing x with
  | refl => exact ⟨x, hx, le_rfl, le_rfl, .inl rfl⟩
  | @step f _ l₁ l₂ _ c d _ _ hstart _ _ ih =>
    by_cases hxd : x = d
    · subst hxd
      obtain ⟨y, hy, hle, hend, hyc⟩ := ih (x := c) (by simp)
      rw [Function.update_self] at hle hend
      simp only at hle hend
      refine ⟨y, hy, by omega, by omega, .inr ?_⟩
      rcases hyc with rfl | ⟨m, hm, rfl⟩
      · exact ⟨_, List.mem_cons_self .., rfl⟩
      · exact ⟨m, List.mem_cons_of_mem _ hm, rfl⟩
    · obtain ⟨y, hy, hle, hend, hyx⟩ := ih (x := x) (by simpa [hxd] using hx)
      refine ⟨y, hy, ?_, ?_, hyx.imp_right fun ⟨m, hm, e⟩ => ⟨m, List.mem_cons_of_mem _ hm, e⟩⟩
      · by_cases hxc : x = c
        · subst hxc
          rwa [Function.update_self] at hle
        · rwa [Function.update_of_ne hxc] at hle
      · by_cases hxc : x = c
        · subst hxc
          rw [Function.update_self] at hend
          simp only at hend
          omega
        · rwa [Function.update_of_ne hxc] at hend

/-- Which chunks are merged is decided by what they are. -/
theorem mergesNext_congr {f f' : ℕ → Chunk} {l : List ℕ} (h : ∀ x ∈ l, f' x = f x) (budget : ℕ) :
    mergesNext f' budget l = mergesNext f budget l := by
  induction l generalizing budget with
  | nil => rfl
  | cons d l ih =>
    rw [mergesNext, mergesNext, h d (by simp), ih fun x hx => h x (by simp [hx])]

/-- The same backwards. -/
theorem mergesPrev_congr {f f' : ℕ → Chunk} {l : List ℕ} (h : ∀ x ∈ l, f' x = f x)
    (budget size c : ℕ) : mergesPrev f' budget size c l = mergesPrev f budget size c l := by
  induction l generalizing budget size c with
  | nil => rfl
  | cons p l ih =>
    rw [mergesPrev, mergesPrev, h p (by simp), ih fun x hx => h x (by simp [hx])]

/-- Only what is ahead is merged. -/
theorem mergesNext_subset {f : ℕ → Chunk} {budget : ℕ} {l : List ℕ} :
    mergesNext f budget l ⊆ l := by
  induction l generalizing budget with
  | nil => simp [mergesNext]
  | cons d l ih =>
    rw [mergesNext]
    split_ifs
    · simp
    · exact List.cons_subset_cons d ih

namespace Rep

/-- **A merge.** -/
theorem absorb (h : Rep a (l₁ ++ c :: d :: l₂) w R) (hd : (a.chunk d).busy = false) :
    ∃ a' R', Alloc.absorb c d (a.chunk d).start a = some a' ∧ Rep a' (l₁ ++ c :: l₂) w R' ∧
      a'.chunk = Function.update a.chunk c
        { a.chunk c with size := (a.chunk c).size + (a.chunk d).size } ∧
      a'.nextChunk = a.nextChunk ∧ ∀ t, R' (.allocated t) = R (.allocated t) := by
  obtain ⟨e, l₃, he⟩ : ∃ e l₃, l₂ ++ [w] = e :: l₃ := List.exists_cons_of_ne_nil (by simp)
  have hall : l₁ ++ c :: d :: l₂ ++ [w] = l₁ ++ c :: d :: e :: l₃ := by simp [he]
  have hde := h.tiled.start_eq (show _ = (l₁ ++ [c]) ++ d :: e :: l₃ by simp [he])
  have hem : e ∈ l₁ ++ c :: d :: l₂ ++ [w] := by simp [he]
  have hnd := h.tiled.nodup
  rw [hall] at hnd
  have hce : c ≠ e := by grind
  have hcd : c ≠ d := by grind
  have hstop : ((a.chunk d).start + (a.chunk d).size) % u64Size = (a.chunk e).start := by
    rw [← hde, Nat.mod_eq_of_lt (h.tiled.start_lt hem)]
  have hsum : ((a.chunk c).size + (a.chunk d).size) % u64Size =
      (a.chunk c).size + (a.chunk d).size := by
    have hcd := h.tiled.start_eq hall
    have := h.tiled.start_lt hem
    exact Nat.mod_eq_of_lt (by omega)
  have hpe := h.tiled.pginfo_eq (show _ = (l₁ ++ [c, d]) ++ e :: l₃ by simp [he])
  have hped : (a.chunk e).start / pageSize ≠ (a.chunk d).start / pageSize := fun hp => by
    have := h.tiled.page_inj hem (by simp) hp
    grind
  have hdR : d ∈ R .bestfit := (h.bestfit d).2 ⟨by simp, hd⟩
  obtain ⟨L, hdel, hL, -⟩ := h.lists.del hdR
  have hpg : (Function.update a.pginfo ((a.chunk d).start / pageSize)
      (some ⟨sizeMax, none, none⟩) ((a.chunk e).start / pageSize)) =
      some ⟨(a.chunk e).start % pageSize, some d, some e⟩ := by
    rw [Function.update_of_ne hped, hpe]
    simp
  obtain ⟨A, hA, hchunk, hpgA, hlive, hnext, hlinks⟩ : ∃ A, Alloc.absorb c d (a.chunk d).start a =
      some A ∧ A.chunk = Function.update a.chunk c
        { a.chunk c with size := (a.chunk c).size + (a.chunk d).size } ∧
      A.pginfo = Function.update
        (Function.update a.pginfo ((a.chunk d).start / pageSize) (some ⟨sizeMax, none, none⟩))
        ((a.chunk e).start / pageSize) (some ⟨(a.chunk e).start % pageSize, some c, some e⟩) ∧
      A.live = Function.update a.live d false ∧ A.nextChunk = a.nextChunk ∧ A.links = L := by
    simp only [Alloc.absorb, hstop, getPginfo_eq h.tiled hem,
      getPginfo_eq h.tiled (show c ∈ l₁ ++ c :: d :: l₂ ++ [w] by simp), hsum,
      Ainfo.setPginfo_links, Ainfo.setChunk_links, hdel, Option.map_some]
    refine ⟨_, rfl, rfl, ?_, rfl, rfl, rfl⟩
    simp only [Ainfo.setPginfo, Ainfo.setChunk, Ainfo.pg, hpg, Option.getD_some]
  refine ⟨A, Function.update R .bestfit ((R .bestfit).erase d), hA, ?_, hchunk, hnext, by simp⟩
  have hmem : ∀ x, x ≠ d → (x ∈ l₁ ++ c :: l₂ ++ [w] ↔ x ∈ l₁ ++ c :: d :: l₂ ++ [w]) := by
    intro x hx
    simp [hx]
  have hbusy : ∀ x, (A.chunk x).busy = (a.chunk x).busy := by
    intro x
    by_cases hx : x = c
    · subst hx
      rw [hchunk, Function.update_self]
      rfl
    · rw [hchunk, Function.update_of_ne hx]
  refine ⟨h.tiled.absorb he hchunk hpgA hlive hnext, (hbusy w).trans h.wildFree, hlinks ▸ hL,
    fun x => ?_, fun t x hx => ?_⟩
  · rw [hbusy, Function.update_self]
    rw [(h.lists.nodup _).mem_erase_iff, h.bestfit]
    by_cases hx : x = d
    · subst hx
      have hx' : x ∉ l₁ ++ c :: l₂ ++ [w] := by
        have : l₁ ++ c :: l₂ ++ [w] = l₁ ++ c :: e :: l₃ := by simp [he]
        grind
      exact ⟨fun hne => absurd rfl hne.1, fun hm => absurd hm.1 hx'⟩
    · rw [hmem x hx]
      simp [hx]
  · rw [Function.update_of_ne (by simp)] at hx
    obtain ⟨hxcs, hxb⟩ := h.held t x hx
    have hxd : x ≠ d := by
      rintro rfl
      simp [hd] at hxb
    exact ⟨by simpa [hxd] using hxcs, (hbusy x).trans hxb⟩

/-- The wilderness is not taken. -/
theorem coalesceWithNext_wild (h : Rep a (l₁ ++ [c]) w R) (budget : ℕ) :
    Alloc.coalesceWithNext budget c a = some (false, budget, a) := by
  have hall : l₁ ++ [c] ++ [w] = l₁ ++ c :: w :: [] := by simp
  have hstart := h.tiled.start_eq hall
  have hw : w ∈ l₁ ++ [c] ++ [w] := by simp
  rw [Alloc.coalesceWithNext]
  simp only [← hstart, Nat.mod_eq_of_lt (h.tiled.start_lt hw), getPginfo_eq h.tiled hw,
    pg_eq h.tiled (l := l₁ ++ [c]) rfl, h.wildFree, h.tiled.wildSize, Bool.false_eq_true, if_false,
    if_true]

/-- The chunk behind is taken if it is free and not larger than the budget. -/
theorem coalesceWithNext (h : Rep a (l₁ ++ c :: d :: l₂) w R) (budget : ℕ) :
    Alloc.coalesceWithNext budget c a =
      if (a.chunk d).busy ∨ budget < (a.chunk d).size then some (false, budget, a)
      else (Alloc.absorb c d (a.chunk d).start a).map fun a' =>
        (true, budget - (a.chunk d).size, a') := by
  have hall : l₁ ++ c :: d :: l₂ ++ [w] = l₁ ++ c :: d :: (l₂ ++ [w]) := by simp
  have hstart := h.tiled.start_eq hall
  have hd : d ∈ l₁ ++ c :: d :: l₂ ++ [w] := by simp
  have hsize : (a.chunk d).size ≠ sizeMax :=
    mt (h.tiled.size_eq_sizeMax hd).1 (h.tiled.ne_wild (by simp))
  rw [Alloc.coalesceWithNext]
  simp only [← hstart, Nat.mod_eq_of_lt (h.tiled.start_lt hd), getPginfo_eq h.tiled hd,
    pg_eq h.tiled (show _ = (l₁ ++ [c]) ++ d :: (l₂ ++ [w]) by simp), hsize, if_false]
  by_cases hb : (a.chunk d).busy = true
  · simp [hb]
  · by_cases hbudget : budget < (a.chunk d).size
    · simp [hb, hbudget]
    · simp [hb, hbudget]

/-- **The loop over the chunks behind.** -/
theorem coalesceNextLoop (h : Rep a (l₁ ++ c :: l₂) w R) {n : ℕ} (hn : l₂.length < n)
    (budget : ℕ) :
    ∃ a' l R', Alloc.coalesceNextLoop n budget c a =
        some (budget - ((mergesNext a.chunk budget l₂).map fun d => (a.chunk d).size).sum, a') ∧
      Rep a' (l₁ ++ c :: l) w R' ∧
      Merged a.chunk (l₁ ++ c :: l₂) ((mergesNext a.chunk budget l₂).map fun d => (c, d)) a'.chunk
        (l₁ ++ c :: l) ∧
      a'.chunk = Function.update a.chunk c { a.chunk c with
        size := (a.chunk c).size +
          ((mergesNext a.chunk budget l₂).map fun d => (a.chunk d).size).sum } ∧
      a'.nextChunk = a.nextChunk ∧ ∀ t, R' (.allocated t) = R (.allocated t) := by
  induction l₂ generalizing a n budget R with
  | nil =>
    obtain ⟨n, rfl⟩ : ∃ m, n = m + 1 := ⟨n - 1, by simp at hn; omega⟩
    refine ⟨a, [], R, ?_, h, .refl _ _, ?_, rfl, fun _ => rfl⟩
    · rw [Alloc.coalesceNextLoop, h.coalesceWithNext_wild]
      rfl
    · simp [mergesNext]
  | cons d l₂ ih =>
    obtain ⟨n, rfl⟩ : ∃ m, n = m + 1 := ⟨n - 1, by simp at hn; omega⟩
    rw [Alloc.coalesceNextLoop, h.coalesceWithNext, mergesNext]
    split_ifs with hstop
    · refine ⟨a, d :: l₂, R, rfl, h, .refl _ _, ?_, rfl, fun _ => rfl⟩
      simp
    · rw [not_or, not_lt, Bool.not_eq_true] at hstop
      obtain ⟨a₁, R₁, habs, hrep, hchunk, hnext, hheld⟩ := h.absorb hstop.1
      have hnd := h.tiled.nodup
      have hkeep : ∀ x ∈ l₂, a₁.chunk x = a.chunk x := by
        intro x hx
        rw [hchunk, Function.update_of_ne (by grind)]
      have hcongr := mergesNext_congr hkeep (budget - (a.chunk d).size)
      have hsizes : ((mergesNext a.chunk (budget - (a.chunk d).size) l₂).map
          fun d => (a₁.chunk d).size) =
          (mergesNext a.chunk (budget - (a.chunk d).size) l₂).map fun d => (a.chunk d).size :=
        List.map_congr_left fun x hx => by rw [hkeep x (mergesNext_subset hx)]
      obtain ⟨a', l, R', hloop, hrep', hmerged, hchunk', hnext', hheld'⟩ :=
        ih hrep (n := n) (by simpa using hn) (budget - (a.chunk d).size)
      rw [hcongr] at hloop hmerged hchunk'
      rw [hsizes] at hloop hchunk'
      refine ⟨a', l, R', ?_, hrep', ?_, ?_, hnext'.trans hnext, fun t => (hheld' t).trans (hheld t)⟩
      · rw [habs, Option.map_some, Option.bind_some, if_pos rfl, hloop, List.map_cons,
          List.sum_cons, Nat.sub_sub]
      · exact .step hstop.1 (h.tiled.start_eq (l := l₁) (m := l₂ ++ [w]) (by simp))
          (Nat.lt_of_lt_of_le (by decide) (h.tiled.size d (by simp)).1) (hchunk ▸ hmerged)
      · rw [hchunk', hchunk, Function.update_idem, Function.update_self, List.map_cons,
          List.sum_cons, Nat.add_assoc]

/-- Nothing is before the first chunk. -/
theorem coalesceWithPrev_first (h : Rep a (c :: l₂) w R) (budget : ℕ) :
    Alloc.coalesceWithPrev budget c a = some (none, budget, a) := by
  have hpg := pg_eq h.tiled (l := []) (c := c) (m := l₂ ++ [w]) rfl
  rw [Alloc.coalesceWithPrev]
  simp only [getPginfo_eq h.tiled (c := c) (by simp), hpg, List.getLast?_nil]

/-- The chunk before takes this one if that may be taken. -/
theorem coalesceWithPrev {p : ℕ} (h : Rep a (l₁ ++ p :: c :: l₂) w R) (budget : ℕ) :
    Alloc.coalesceWithPrev budget c a = (Alloc.coalesceWithNext budget p a).map fun r =>
      (if r.1 then some p else none, r.2) := by
  have hpg := pg_eq h.tiled (l := l₁ ++ [p]) (c := c) (m := l₂ ++ [w]) (by simp)
  rw [Alloc.coalesceWithPrev]
  simp only [getPginfo_eq h.tiled (c := c) (by simp), hpg, List.getLast?_concat]

/-- A busy chunk is not taken by the one before it. -/
theorem coalescePrevLoop_busy (h : Rep a (l₁ ++ c :: l₂) w R) (hc : (a.chunk c).busy = true)
    {n : ℕ} (hn : 0 < n) (budget : ℕ) : Alloc.coalescePrevLoop n budget c a = some a := by
  obtain ⟨n, rfl⟩ : ∃ m, n = m + 1 := ⟨n - 1, by omega⟩
  rw [Alloc.coalescePrevLoop]
  rcases List.eq_nil_or_concat l₁ with rfl | ⟨l, p, rfl⟩
  · rw [coalesceWithPrev_first h]
    rfl
  · have h' : Rep a (l ++ p :: c :: l₂) w R := by simpa using h
    simp only [h'.coalesceWithPrev, h'.coalesceWithNext, hc, true_or, if_true, Option.map_some,
      Bool.false_eq_true, if_false, Option.bind_some]

/-- **The loop over the chunks before.** -/
theorem coalescePrevLoop (h : Rep a (l₁ ++ c :: l₂) w R) (hc : (a.chunk c).busy = false) {n : ℕ}
    (hn : l₁.length < n) (budget : ℕ) :
    ∃ a' cs' R', Alloc.coalescePrevLoop n budget c a = some a' ∧ Rep a' cs' w R' ∧
      Merged a.chunk (l₁ ++ c :: l₂) (mergesPrev a.chunk budget (a.chunk c).size c l₁.reverse)
        a'.chunk cs' ∧
      ∀ t, R' (.allocated t) = R (.allocated t) := by
  induction l₁ using List.reverseRecOn generalizing a c l₂ n budget R with
  | nil =>
    obtain ⟨n, rfl⟩ : ∃ m, n = m + 1 := ⟨n - 1, by omega⟩
    refine ⟨a, _, R, ?_, h, .refl _ _, fun _ => rfl⟩
    rw [Alloc.coalescePrevLoop, coalesceWithPrev_first h]
    rfl
  | append_singleton l p ih =>
    obtain ⟨n, rfl⟩ : ∃ m, n = m + 1 := ⟨n - 1, by omega⟩
    have h' : Rep a (l ++ p :: c :: l₂) w R := by simpa using h
    have hcs : l ++ [p] ++ c :: l₂ = l ++ p :: c :: l₂ := by simp
    rw [Alloc.coalescePrevLoop, h'.coalesceWithPrev, h'.coalesceWithNext, hc]
    simp only [Bool.false_eq_true, false_or]
    rw [List.reverse_append, List.reverse_singleton, List.singleton_append, mergesPrev, hcs]
    have hstart := h'.tiled.start_eq (l := l) (c := p) (d := c) (m := l₂ ++ [w]) (by simp)
    have hpos : 0 < (a.chunk c).size :=
      Nat.lt_of_lt_of_le (by decide) (h'.tiled.size c (by simp)).1
    split_ifs with hbudget hp
    · exact ⟨a, _, R, rfl, h', .refl _ _, fun _ => rfl⟩
    · obtain ⟨a₁, R₁, habs, hrep, hchunk, hnext, hheld⟩ := h'.absorb hc
      have hp₁ : (a₁.chunk p).busy = true := by
        rw [hchunk, Function.update_self]
        exact hp
      refine ⟨a₁, l ++ p :: l₂, R₁, ?_, hrep, .step hc hstart hpos (hchunk ▸ .refl _ _), hheld⟩
      simp only [habs, Option.map_some, if_true, Option.bind_some]
      exact hrep.coalescePrevLoop_busy hp₁ (by simp at hn; omega) _
    · obtain ⟨a₁, R₁, habs, hrep, hchunk, hnext, hheld⟩ := h'.absorb hc
      have hp₁ : (a₁.chunk p).busy = false := by
        rw [hchunk, Function.update_self]
        exact Bool.eq_false_iff.2 hp
      have hsize : (a₁.chunk p).size = (a.chunk p).size + (a.chunk c).size := by
        rw [hchunk, Function.update_self]
      have hnd := h'.tiled.nodup
      have hkeep : ∀ x ∈ l.reverse, a₁.chunk x = a.chunk x := by
        intro x hx
        rw [hchunk, Function.update_of_ne (by grind)]
      obtain ⟨a', cs', R', hloop, hrep', hmerged, hheld'⟩ :=
        ih hrep hp₁ (n := n) (by simpa using hn) (budget - (a.chunk c).size)
      rw [mergesPrev_congr hkeep, hsize, hchunk] at hmerged
      refine ⟨a', cs', R', ?_, hrep', .step hc hstart hpos hmerged,
        fun t => (hheld' t).trans (hheld t)⟩
      simp only [habs, Option.map_some, if_true, Option.bind_some]
      exact hloop

/-- **A release** puts a chunk that is on no list on `bestfit_list` and does the merges
that were planned for it. -/
theorem releaseBlock (h : Rep a cs w R) (hc : c ∈ cs) (hR : ∀ g, c ∉ R g) (ts : Ts) :
    ∃ a' cs' R', Alloc.releaseBlock c ts a = some a' ∧ Rep a' cs' w R' ∧
      Merged (Function.update a.chunk c ((a.chunk c).release ts)) cs (a.mergePlan c) a'.chunk cs' ∧
      ∀ t, R' (.allocated t) = R (.allocated t) := by
  obtain ⟨l₁, l₂, rfl⟩ := List.append_of_mem hc
  have hnd := h.tiled.nodup
  have hlen := length_le h.tiled (l := l₁ ++ c :: l₂) (by grind) (List.subset_append_left _ _)
  rw [List.length_append, List.length_cons] at hlen
  obtain ⟨L, R₁, hadd, hrep, hheld⟩ := h.putChunk hc hR ts
  have hsize : (Function.update a.chunk c ((a.chunk c).release ts) c).size = (a.chunk c).size := by
    rw [Function.update_self, Chunk.release_size]
  have hkeep : ∀ x ∈ l₂ ++ l₁.reverse,
      Function.update a.chunk c ((a.chunk c).release ts) x = a.chunk x :=
    fun x hx => Function.update_of_ne (by grind) _ _
  have hnext := mergesNext_congr (fun x hx => hkeep x (List.mem_append_left _ hx))
    ((a.chunk c).size * 4 % u64Size)
  have hsizes : ((mergesNext a.chunk ((a.chunk c).size * 4 % u64Size) l₂).map fun d =>
      (Function.update a.chunk c ((a.chunk c).release ts) d).size) =
      (mergesNext a.chunk ((a.chunk c).size * 4 % u64Size) l₂).map fun d => (a.chunk d).size :=
    List.map_congr_left fun x hx => by
      rw [hkeep x (List.mem_append_left _ (mergesNext_subset hx))]
  obtain ⟨a₁, l, R₂, hloop, hrep₁, hmerged, hchunk, hnextChunk, hheld₁⟩ :=
    hrep.coalesceNextLoop (n := a.nextChunk + 1) (by omega) ((a.chunk c).size * 4 % u64Size)
  simp only [Ainfo.setChunk] at hloop hmerged hchunk hnextChunk
  rw [hnext] at hmerged hchunk hloop
  rw [hsizes] at hchunk hloop
  have hc₁ : (a₁.chunk c).busy = false := by
    rw [hchunk, Function.update_self, Function.update_self]
    exact Chunk.release_busy _ _
  have hsize₁ : (a₁.chunk c).size = (a.chunk c).size +
      ((mergesNext a.chunk ((a.chunk c).size * 4 % u64Size) l₂).map fun d =>
        (a.chunk d).size).sum := by
    rw [hchunk, Function.update_self, hsize]
  have hkeep₁ : ∀ x ∈ l₁.reverse, a₁.chunk x = a.chunk x := by
    intro x hx
    rw [hchunk, Function.update_of_ne (by grind), hkeep x (List.mem_append_right _ hx)]
  obtain ⟨a', cs', R', hprev, hrep', hmerged', hheld'⟩ :=
    hrep₁.coalescePrevLoop hc₁ (n := a.nextChunk + 1) (by omega)
      ((a.chunk c).size * 4 % u64Size -
        ((mergesNext a.chunk ((a.chunk c).size * 4 % u64Size) l₂).map fun d =>
          (a.chunk d).size).sum)
  rw [mergesPrev_congr hkeep₁, hsize₁] at hmerged'
  refine ⟨a', cs', R', ?_, hrep', ?_, fun t => (hheld' t).trans ((hheld₁ t).trans (hheld t))⟩
  · simp only [Alloc.releaseBlock, Ainfo.setChunk, hadd, Option.bind_some, hsize, hloop]
    exact hprev
  · rw [Ainfo.mergePlan, Ainfo.ahead_eq h.tiled (by omega), Ainfo.behind_eq h.tiled (by omega)]
    exact hmerged.append hmerged'

end Rep

end Alloc
end Sivfs
