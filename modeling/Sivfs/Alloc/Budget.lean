/-
# How far coalescing goes

A release may merge as long as a budget of four times the size of the chunk lasts.  The
first loop pays for the chunks behind that it takes.  The second one calls
`sivfs_coalesce_with_next` on the chunk before, which pays for the chunk behind, that is
for what was released, and not for the chunk before that it is added to.

`release_bounded` says when the chunk that finally contains the released one has grown by
at most four times its size.
-/

import Sivfs.Alloc.Coalesce

namespace Sivfs
namespace Alloc

variable {ι : Type*} [DecidableEq ι]

namespace Ainfo

variable (a : Ainfo ι) (c : ℕ)

/-- The chunks behind that the first loop of a release of chunk `c` takes. -/
def takenAhead : List ℕ :=
  mergesNext a.chunk ((a.chunk c).size * 4 % u64Size) (a.ahead a.nextChunk c)

/-- Their bytes. -/
def gainAhead : ℕ := ((a.takenAhead c).map fun d => (a.chunk d).size).sum

/-- The merges of the second loop of a release of chunk `c`. -/
def takenBehind : List (ℕ × ℕ) :=
  mergesPrev a.chunk ((a.chunk c).size * 4 % u64Size - a.gainAhead c)
    ((a.chunk c).size + a.gainAhead c) c (a.behind a.nextChunk c)

/-- The bytes of the free chunks before chunk `c` that the second loop adds to. -/
def gainBehind : ℕ :=
  ((a.takenBehind c).map fun m => if (a.chunk m.1).busy then 0 else (a.chunk m.1).size).sum

omit [DecidableEq ι] in
theorem mergePlan_eq : a.mergePlan c = (a.takenAhead c).map (fun d => (c, d)) ++ a.takenBehind c :=
  rfl

end Ainfo

/-- The chunk that contains chunk `c` of before has grown by at most four times the size of
`c`, its own bytes apart if it was busy. -/
def Bounded (a a' : Ainfo ι) (c : ℕ) : Prop :=
  ∃ e, a'.live e = true ∧ (a'.chunk e).start ≤ (a.chunk c).start ∧
    (a.chunk c).start + (a.chunk c).size ≤ (a'.chunk e).start + (a'.chunk e).size ∧
    (a'.chunk e).size ≤ (a.chunk c).size + 4 * (a.chunk c).size +
      if e ≠ c ∧ (a.chunk e).busy then (a.chunk e).size else 0

/-! ### Sizes after merges -/

namespace Merged

variable {f f₀ f' : ℕ → Chunk} {cs cs' : List ℕ} {c : ℕ} {q : List (ℕ × ℕ)}

theorem of_nil (h : Merged f cs [] f' cs') : f' = f ∧ cs' = cs := by
  cases h
  exact ⟨rfl, rfl⟩

/-- The chunk has grown by those behind that it took. -/
theorem ahead {l : List ℕ} (h : Merged f cs (l.map (fun d => (c, d)) ++ q) f' cs') (hc : c ∈ cs)
    (hl : c ∉ l) : ∃ cs₁, c ∈ cs₁ ∧ Merged (Function.update f c
      { f c with size := (f c).size + (l.map fun d => (f d).size).sum }) cs₁ q f' cs' := by
  induction l generalizing f cs with
  | nil =>
    refine ⟨cs, hc, ?_⟩
    simpa using h
  | cons d l ih =>
    rw [List.map_cons, List.cons_append] at h
    cases h with
    | @step _ _ l₁ l₂ _ _ _ _ hd hstart hpos h =>
      obtain ⟨cs₁, hc₁, h₁⟩ := ih h (by simp) fun hm => hl (List.mem_cons_of_mem _ hm)
      refine ⟨cs₁, hc₁, ?_⟩
      have hsizes : (l.map fun x => (Function.update f c
          { f c with size := (f c).size + (f d).size } x).size) = l.map fun x => (f x).size := by
        refine List.map_congr_left fun x hx => ?_
        have hxc : x ≠ c := fun e => hl (List.mem_cons_of_mem _ (e ▸ hx))
        rw [Function.update_of_ne hxc]
      rw [hsizes, Function.update_self, Function.update_idem] at h₁
      simpa [Nat.add_assoc] using h₁

/-- The chunk ends up in the last one that was added to; this one and the free ones before
that took part are all it has grown by. -/
theorem behind {l : List ℕ} {budget : ℕ}
    (h : Merged f cs (mergesPrev f₀ budget (f c).size c l) f' cs') (hc : c ∈ cs)
    (hf : ∀ x ∈ l, f x = f₀ x) (hnd : (c :: l).Nodup) :
    ∃ e ∈ cs', e ∈ c :: l ∧ (f' e).start ≤ (f c).start ∧
      (f c).start + (f c).size ≤ (f' e).start + (f' e).size ∧
      (f' e).size = (f c).size + ((mergesPrev f₀ budget (f c).size c l).map fun m =>
        if (f₀ m.1).busy then 0 else (f₀ m.1).size).sum +
        if e ≠ c ∧ (f₀ e).busy then (f₀ e).size else 0 := by
  induction l generalizing f cs c budget with
  | nil =>
    rw [mergesPrev] at h
    obtain ⟨rfl, rfl⟩ := h.of_nil
    exact ⟨c, hc, by simp, le_rfl, le_rfl, by simp [mergesPrev]⟩
  | cons p l ih =>
    rw [mergesPrev] at h ⊢
    split_ifs at h ⊢ with hlt hbusy
    · obtain ⟨rfl, rfl⟩ := h.of_nil
      exact ⟨c, hc, by simp, le_rfl, le_rfl, by simp⟩
    · cases h with
      | @step _ _ l₁ l₂ _ _ _ _ hd hstart hpos h =>
        obtain ⟨rfl, rfl⟩ := h.of_nil
        have hpc : p ≠ c := by
          rintro rfl
          simp at hnd
        refine ⟨p, by simp, by simp, ?_, ?_, ?_⟩
        · rw [Function.update_self]
          simp only
          omega
        · rw [Function.update_self]
          simp only
          omega
        · simp only [Function.update_self, List.map_cons, List.map_nil, List.sum_cons, List.sum_nil,
            hbusy, if_true, ne_eq, hpc, not_false_eq_true, and_self, hf p (by simp)]
          omega
    · cases h with
      | @step _ _ l₁ l₂ _ _ _ _ hd hstart hpos h =>
        have hnd' := (List.nodup_cons.1 hnd).2
        have hkeep : ∀ x ∈ l, Function.update f p { f p with size := (f p).size + (f c).size } x =
            f₀ x := by
          intro x hx
          rw [Function.update_of_ne fun e : x = p => (List.nodup_cons.1 hnd').1 (e ▸ hx)]
          exact hf x (by simp [hx])
        have hsize : (Function.update f p { f p with size := (f p).size + (f c).size } p).size =
            (f₀ p).size + (f c).size := by
          rw [Function.update_self, hf p (by simp)]
        rw [← hsize] at h
        obtain ⟨e, he, hel, hle, hend, hgrown⟩ := ih h (by simp) hkeep hnd'
        have hec : e ≠ c := by
          rintro rfl
          exact (List.nodup_cons.1 hnd).1 hel
        rw [Function.update_self] at hle hend hgrown
        simp only at hle hend hgrown
        refine ⟨e, he, List.mem_cons_of_mem _ hel, by omega, by omega, ?_⟩
        have hbusy' : (if e ≠ p ∧ (f₀ e).busy then (f₀ e).size else 0) =
            if e ≠ c ∧ (f₀ e).busy then (f₀ e).size else 0 := by
          by_cases hep : e = p
          · simp [hep, hbusy]
          · simp [hep, hec]
        rw [hf p (by simp)] at hgrown
        rw [hgrown, hbusy', List.map_cons, List.sum_cons, if_neg hbusy]
        dsimp only
        omega

end Merged

/-! ### The budget -/

/-- The first loop keeps to the budget. -/
theorem mergesNext_sum_le (f : ℕ → Chunk) (budget : ℕ) (l : List ℕ) :
    ((mergesNext f budget l).map fun d => (f d).size).sum ≤ budget := by
  induction l generalizing budget with
  | nil => simp [mergesNext]
  | cons d l ih =>
    rw [mergesNext]
    split_ifs with h
    · simp
    · rw [List.map_cons, List.sum_cons]
      have := ih (budget - (f d).size)
      have := (not_or.1 h).2
      omega

omit [DecidableEq ι] in
theorem Ainfo.gainAhead_le (a : Ainfo ι) (c : ℕ) : a.gainAhead c ≤ 4 * (a.chunk c).size := by
  have hsum := mergesNext_sum_le a.chunk ((a.chunk c).size * 4 % u64Size) (a.ahead a.nextChunk c)
  have hmod := Nat.mod_le ((a.chunk c).size * 4) u64Size
  rw [gainAhead, takenAhead]
  omega

/-- When the round of a hook that releases a chunk is bounded. -/
theorem Inv.bounded_iff {s : State ι} {cs : List ℕ} {c w : ℕ} {R : Head ι → List ℕ} {t : ι}
    (hi : Inv s cs w R) (hsound : Sound s (.hook t)) (hc : s.released t = some c) :
    ∃ s', Alloc.step s (.hook t) = some s' ∧ (Bounded s.ainfo s'.ainfo c ↔
      s.ainfo.gainBehind c ≤ 4 * (s.ainfo.chunk c).size - s.ainfo.gainAhead c) := by
  obtain ⟨hccs, ts, s', cs', R', hstep, hrep, hmerged⟩ := hi.released hsound hc
  refine ⟨s', hstep, ?_⟩
  obtain ⟨l₁, l₂, rfl⟩ := List.append_of_mem hccs
  have hnd := hi.rep.tiled.nodup
  have hlen := Rep.length_le hi.rep.tiled (l := l₁ ++ c :: l₂) (by grind)
    (List.subset_append_left _ _)
  rw [List.length_append, List.length_cons] at hlen
  have hahead : s.ainfo.ahead s.ainfo.nextChunk c = l₂ :=
    Ainfo.ahead_eq hi.rep.tiled (by omega)
  have hbehind : s.ainfo.behind s.ainfo.nextChunk c = l₁.reverse :=
    Ainfo.behind_eq hi.rep.tiled (by omega)
  have htaken : s.ainfo.takenAhead c ⊆ l₂ := by
    rw [Ainfo.takenAhead, hahead]
    exact mergesNext_subset
  have hcl : c ∉ s.ainfo.takenAhead c := fun hm => by
    have := htaken hm
    grind
  rw [Ainfo.mergePlan_eq] at hmerged
  obtain ⟨cs₁, hc₁, h₁⟩ := hmerged.ahead (by simp) hcl
  have hsizes : ((s.ainfo.takenAhead c).map fun d =>
      (Function.update s.ainfo.chunk c ((s.ainfo.chunk c).release ts) d).size).sum =
      s.ainfo.gainAhead c := by
    rw [Ainfo.gainAhead]
    congr 1
    refine List.map_congr_left fun d hd => ?_
    rw [Function.update_of_ne fun e : d = c => hcl (e ▸ hd)]
  rw [hsizes, Function.update_self, Function.update_idem] at h₁
  rw [Ainfo.takenBehind, hbehind] at h₁
  have hsize : (Function.update s.ainfo.chunk c { (s.ainfo.chunk c).release ts with
      size := ((s.ainfo.chunk c).release ts).size + s.ainfo.gainAhead c } c).size =
      (s.ainfo.chunk c).size + s.ainfo.gainAhead c := by
    rw [Function.update_self, Chunk.release_size]
  rw [← hsize] at h₁
  obtain ⟨e, he, -, hle, hend, hgrown⟩ := h₁.behind hc₁ (fun x hx => Function.update_of_ne
    (by grind) _ _) (by grind)
  rw [hsize] at hend hgrown
  have hstart : (Function.update s.ainfo.chunk c { (s.ainfo.chunk c).release ts with
      size := ((s.ainfo.chunk c).release ts).size + s.ainfo.gainAhead c } c).start =
      (s.ainfo.chunk c).start := by
    rw [Function.update_self, Chunk.release_start]
  rw [hstart] at hle hend
  have hgain : ((mergesPrev s.ainfo.chunk ((s.ainfo.chunk c).size * 4 % u64Size -
      s.ainfo.gainAhead c) ((s.ainfo.chunk c).size + s.ainfo.gainAhead c) c l₁.reverse).map fun m =>
      if (s.ainfo.chunk m.1).busy then 0 else (s.ainfo.chunk m.1).size).sum =
      s.ainfo.gainBehind c := by
    rw [Ainfo.gainBehind, Ainfo.takenBehind, hbehind]
  rw [hgain] at hgrown
  have hahead_le := s.ainfo.gainAhead_le c
  have hpos : 0 < (s.ainfo.chunk c).size :=
    Nat.lt_of_lt_of_le (by decide) (hi.rep.tiled.size c (by simp)).1
  constructor
  · rintro ⟨x, hlive, hxle, hxend, hxsize⟩
    obtain rfl : x = e := by
      by_contra hne
      rcases hrep.tiled.apart ((hrep.tiled.live x).1 hlive) (by simp [he]) hne with hap | hap
      · omega
      · omega
    omega
  · intro hbound
    exact ⟨e, (hrep.tiled.live e).2 (by simp [he]), hle, by omega, by omega⟩

/-- **A release is bounded if and only if the free chunks before that it is added to are
not larger than what the first loop leaves of the budget.**  In every state that the
machine reaches, and for every chunk that a hook releases, the loops end. -/
theorem release_bounded {s : State ι}
    (h : (machine ι).ReachableWith (fun s act => Lawful s act ∧ Sound s act) s) {t : ι} {c : ℕ}
    (hsound : Sound s (.hook t)) (hc : s.released t = some c) :
    ∃ s', step s (.hook t) = some s' ∧ (Bounded s.ainfo s'.ainfo c ↔
      s.ainfo.gainBehind c ≤ 4 * (s.ainfo.chunk c).size - s.ainfo.gainAhead c) := by
  obtain ⟨cs, w, R, hi⟩ := Inv.of_reachable h
  exact hi.bounded_iff hsound hc

/-- A thread allocates a block and a page behind it, frees the block, then the page. -/
def freeBehind (size : ℕ) : List (Act Bool) :=
  [.alloc false size plenty, .alloc false 4096 plenty, .commit false true, .hook false,
    .hook false, .hook false, .hook false, .update false 1, .free false 0, .commit false true,
    .hook false, .hook false, .hook false, .update false 2, .free false size,
    .commit false true, .hook false]

/-- A page joins the page before it. -/
theorem release_bounded_page : ∃ s s',
    (machine Bool).ReachableWith (fun s act => Lawful s act ∧ Sound s act) s ∧
    s.released false = some 1 ∧ step s (.hook false) = some s' ∧
    Bounded s.ainfo s'.ainfo 1 := by
  have h : ((machine Bool).run (fun s act => decide (Lawful s act ∧ Sound s act)) fresh
      (freeBehind 4096)).map (fun s => (s.released false, decide (Sound s (.hook false)),
        (s.ainfo.chunk 1).size, s.ainfo.gainAhead 1, s.ainfo.gainBehind 1)) =
      some (some 1, true, 4096, 0, 4096) := by decide +kernel
  obtain ⟨s, hs, hlook⟩ := Option.map_eq_some_iff.1 h
  simp only [Prod.mk.injEq, decide_eq_true_eq] at hlook
  obtain ⟨hrel, hsound, hsize, hahead, hbehind⟩ := hlook
  have hreach : (machine Bool).ReachableWith (fun s act => Lawful s act ∧ Sound s act) s :=
    Machine.ReachableWith.run (fun s act => of_decide_eq_true) (.init init_fresh) hs
  obtain ⟨s', hstep, hiff⟩ := release_bounded hreach hsound hrel
  exact ⟨s, s', hreach, hrel, hstep, hiff.2 (by omega)⟩

/-- A page joins a block of a megabyte before it. -/
theorem not_release_bounded_block : ∃ s s' c,
    (machine Bool).ReachableWith (fun s act => Lawful s act ∧ Sound s act) s ∧
    s.released false = some c ∧ step s (.hook false) = some s' ∧
    ¬Bounded s.ainfo s'.ainfo c := by
  have h : ((machine Bool).run (fun s act => decide (Lawful s act ∧ Sound s act)) fresh
      (freeBehind 1048576)).map (fun s => (s.released false, decide (Sound s (.hook false)),
        (s.ainfo.chunk 1).size, s.ainfo.gainAhead 1, s.ainfo.gainBehind 1)) =
      some (some 1, true, 4096, 0, 1048576) := by decide +kernel
  obtain ⟨s, hs, hlook⟩ := Option.map_eq_some_iff.1 h
  simp only [Prod.mk.injEq, decide_eq_true_eq] at hlook
  obtain ⟨hrel, hsound, hsize, hahead, hbehind⟩ := hlook
  have hreach : (machine Bool).ReachableWith (fun s act => Lawful s act ∧ Sound s act) s :=
    Machine.ReachableWith.run (fun s act => of_decide_eq_true) (.init init_fresh) hs
  obtain ⟨cs, w, R, hi⟩ := Inv.of_reachable hreach
  obtain ⟨s', hstep, hiff⟩ := hi.bounded_iff hsound hrel
  exact ⟨s, s', 1, hreach, hrel, hstep, fun hb => by have := hiff.1 hb; omega⟩

end Alloc
end Sivfs
