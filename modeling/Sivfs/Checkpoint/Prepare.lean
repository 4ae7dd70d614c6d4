/-
# Preparing a page for direct access

`sivfs_prepare_direct_access_page` (`kern/sivfs_make_checkpoint.c`) makes sure that a published
checkpoint has a page of its own at a file offset.  It is
`sivfs_apply_change_checkpoint` with `SIVFS_APPLY_CHANGE_CP_NOWRITE`: the pages on the path
are copied where the checkpoint does not have them yet, and no word is written.

A page is taken to be the checkpoint's own if it carries its timestamp, and the shared zero
pages count as made at time `0`.  With any timestamp but `0` the loop therefore replaces
every zero page on the path (`nowriteLoop_private`); with `0` it takes them for its own
(`nowriteLoop_shared`).

What is read through any page that was there before stays the same in both cases
(`Patched`).
-/

import Sivfs.Checkpoint.Persistent

open PathCopy

namespace Sivfs
namespace Checkpoint

/-- The loop of `sivfs_apply_change_checkpoint` with `SIVFS_APPLY_CHANGE_CP_NOWRITE`, with
the stores `*root_ptr = new_pa` that it makes. -/
def nowriteLoop (faults : Faults) (ts : ℕ) :
    List ℕ → Build → Slot → Build × List (Slot × Ref) × Except Errno Unit
  | [], b, slot =>
    match b.cowPage faults ts 0 slot with
    | (b, .error e) => (b, [], .error e)
    | (b, .ok r) => (b.put slot r, [(slot, r)], .ok ())
  | offset :: offsets, b, slot =>
    match b.cowPage faults ts (offsets.length + 1) slot with
    | (b, .error e) => (b, [], .error e)
    | (b, .ok r) =>
      let rest := nowriteLoop faults ts offsets (b.put slot r) (.ent r offset)
      (rest.1, (slot, r) :: rest.2.1, rest.2.2)

/-- `sivfs_prepare_direct_access_page` for the checkpoint with this `cp_root` and `cp_ts`. -/
def prepareDirectAccessPage (faults : Faults) (h : Heap) (root : Option Ref) (cpTs : ℕ)
    (fileIno fileOffset : ℕ) : Build × List (Slot × Ref) × Except Errno Unit :=
  match checkpointIterInit fileIno fileOffset with
  | .error e => (⟨h, root, []⟩, [], .error e)
  | .ok offsets => nowriteLoop faults cpTs offsets ⟨h, root, []⟩ .root

/-! ### What it leaves alone -/

/-- `b` has become `b'` with the pages well-formed and everything reading as before. -/
structure Patched (t : ℕ) (b b' : Build) : Prop where
  ok : HeapOk b'.heap
  root_ok : RootOk b'.heap t b'.root
  next_le : b.heap.next ≤ b'.heap.next
  level_eq : ∀ r, Valid b.heap.next r → b'.heap.level r = b.heap.level r
  ts_eq : ∀ r, Valid b.heap.next r → b'.heap.checkpointTs r = b.heap.checkpointTs r
  /-- Tables of other times are not written. -/
  others : ∀ r k, Valid b.heap.next r → b.heap.checkpointTs r ≠ t →
    b'.heap.child r k = b.heap.child r k
  fresh : ∀ id, b.heap.next ≤ id → id < b'.heap.next → b'.heap.checkpointTs (.page id) = t
  contents : ∀ x ρ, (∀ c, x = some c → Valid b.heap.next c) →
    b'.heap.contents x ρ = b.heap.contents x ρ
  root_contents : ∀ ρ, b'.heap.contents b'.root ρ = b.heap.contents b.root ρ

/-- A turn of the loop, or several, from `slot` at `level` on: only tables at or below the
one with `slot` are written. -/
structure Patch (t level : ℕ) (slot : Slot) (b b' : Build) : Prop extends Patched t b b' where
  above : ∀ r k, Valid b.heap.next r → level + 1 < b.heap.level r →
    b'.heap.child r k = b.heap.child r k
  root_eq : slot ≠ .root → b'.root = b.root

section Turns

variable {t level : ℕ} {slot : Slot} {b b' b'' : Build} {m : PageMem}

/-- Nothing has been patched. -/
theorem Patched.refl (hok : HeapOk b.heap) (hroot : RootOk b.heap t b.root) : Patched t b b :=
  ⟨hok, hroot, le_rfl, fun _ _ => rfl, fun _ _ => rfl, fun _ _ _ _ => rfl,
    fun _ hid hlt => absurd hlt (not_lt.2 hid), fun _ _ _ => rfl, fun _ => rfl⟩

/-- One patch after the other. -/
theorem Patched.trans (h : Patched t b b') (h' : Patched t b' b'') : Patched t b b'' := by
  have hv : ∀ r, Valid b.heap.next r → Valid b'.heap.next r := fun r hr => hr.mono h.next_le
  refine ⟨h'.ok, h'.root_ok, h.next_le.trans h'.next_le,
    fun r hr => (h'.level_eq r (hv r hr)).trans (h.level_eq r hr),
    fun r hr => (h'.ts_eq r (hv r hr)).trans (h.ts_eq r hr),
    fun r k hr hts => ?_, fun id hid hlt => ?_,
    fun x ρ hx => (h'.contents x ρ fun c hc => hv c (hx c hc)).trans (h.contents x ρ hx),
    fun ρ => (h'.root_contents ρ).trans (h.root_contents ρ)⟩
  · rw [h'.others r k (hv r hr) (by rwa [h.ts_eq r hr]), h.others r k hr hts]
  · rcases Nat.lt_or_ge id b'.heap.next with hold | hnew
    · rw [h'.ts_eq (.page id) hold, h.fresh id hid hold]
    · exact h'.fresh id hnew hlt

/-- A slot that is in order needs no patch. -/
theorem Patch.refl (hok : HeapOk b.heap) (hroot : RootOk b.heap t b.root) :
    Patch t level slot b b :=
  ⟨.refl hok hroot, fun _ _ _ _ => rfl, fun _ => rfl⟩

/-- A turn, and the turns after it. -/
theorem Patch.cons {r : Ref} {k : ℕ} (h : Patch t (level + 1) slot b b')
    (h' : Patch t level (.ent r k) b' b'') : Patch t (level + 1) slot b b'' := by
  refine ⟨h.toPatched.trans h'.toPatched, fun x k hx hl => ?_, fun hs => ?_⟩
  · have hl' : level + 1 < b'.heap.level x := by
      rw [h.level_eq x hx]
      omega
    rw [h'.above x k (hx.mono h.next_le) hl', h.above x k hx hl]
  · rw [h'.root_eq (by simp), h.root_eq hs]

/-- A stamp changes nothing that is read. -/
theorem Patch.stamp (hok : HeapOk b.heap) (hroot : RootOk b.heap t b.root) (id ts : ℕ) :
    Patch t level slot b (b.stamp id ts) := by
  have hmem := stamp_mem b id ts
  have hchild : (b.stamp id ts).heap.child = b.heap.child := by
    funext r k
    rw [Heap.child, Heap.child, hmem]
  have hcont : ∀ x ρ, (b.stamp id ts).heap.contents x ρ = b.heap.contents x ρ := by
    intro x ρ
    simp only [Heap.contents, hchild, Heap.words, hmem]
  have hwf : HeapWf (b.stamp id ts).heap := hok.toHeapWf.congr rfl hmem (stamp_level b id ts)
  refine ⟨⟨⟨hwf, fun r k c hc => ?_⟩, fun r hr => ?_, le_rfl,
    fun r _ => stamp_level b id ts r, fun r _ => stamp_checkpointTs b id ts r,
    fun r k _ _ => by rw [hchild], fun j hj hlt => absurd hlt (not_lt.2 hj),
    fun x ρ _ => hcont x ρ, fun ρ => hcont _ ρ⟩, fun r k _ _ => by rw [hchild], fun _ => rfl⟩
  · rw [hchild] at hc
    rw [stamp_checkpointTs, stamp_checkpointTs]
    exact hok.mono r k c hc
  · rw [stamp_level, stamp_checkpointTs]
    exact hroot r hr

/-- What `root_ptr` points to is at its level, and not younger than the table it is in. -/
theorem SlotIn.get (hok : HeapOk b.heap) (hroot : RootOk b.heap t b.root)
    (hs : SlotIn b slot level) (hts : ∀ r k, slot = .ent r k → b.heap.checkpointTs r = t) {c : Ref}
    (hc : b.get slot = some c) :
    Valid b.heap.next c ∧ b.heap.level c = level ∧ b.heap.checkpointTs c ≤ t := by
  cases slot with
  | root =>
    obtain ⟨hv, hl, ht⟩ := hroot c hc
    exact ⟨hv, hl.trans (hs.root rfl).symm, ht⟩
  | ent r k =>
    obtain ⟨id, rfl, -, hlevel⟩ := hs.ent r k rfl
    have hl := hok.level _ k c hc
    have hl' : b.heap.level (.page id) = level + 1 := hlevel
    exact ⟨hok.toHeapWf.valid hc, by omega, (hok.mono _ k c hc).trans (hts _ k rfl).le⟩

/-- What a copy, or a page of zeros, is filled with. -/
theorem SameAs.fits (hok : HeapOk b.heap)
    (hlevel : ∀ c, b.get slot = some c → b.heap.level c = level)
    (hsame : SameAs b.heap m level (b.get slot)) : Fits level b.heap m := by
  cases hget : b.get slot with
  | none =>
    rw [hget] at hsame
    rw [show m = _ from hsame]
    have hzero : Fills 0 (fun _ => True) level b.heap (mkZeroCheckpointPage level) :=
      fills_zero trivial b.heap
    exact hzero.fits
  | some old =>
    rw [hget] at hsame
    rw [show m = _ from hsame, ← hlevel old hget]
    exact ⟨fun k c hc => ⟨hok.toHeapWf.valid hc, hok.level old k c hc⟩,
      fun hpos => hok.words old hpos⟩

/-- **A graft changes nothing that is read**, neither in this checkpoint nor in another that
shares its tables. -/
theorem Graft.patch (hok : HeapOk b.heap) (hroot : RootOk b.heap t b.root)
    (hs : SlotIn b slot level) (hts : ∀ r k, slot = .ent r k → b.heap.checkpointTs r = t)
    (hsame : SameAs b.heap m level (b.get slot)) (g : Graft b b' slot t level m) :
    Patch t level slot b b' := by
  have hget := fun c hc => SlotIn.get hok hroot hs hts (c := c) hc
  have hwf := g.heapWf hok.toHeapWf hs (hsame.fits hok fun c hc => (hget c hc).2.1)
  have hlv : ∀ r, Valid b.heap.next r → b'.heap.level r = b.heap.level r := fun r hr => by
    rw [g.level, if_neg hr.ne_next]
  have htv : ∀ r, Valid b.heap.next r → b'.heap.checkpointTs r = b.heap.checkpointTs r :=
    fun r hr => by rw [g.checkpointTs, if_neg hr.ne_next]
  have hnew : b'.heap.checkpointTs (.page b.heap.next) = t := by rw [g.checkpointTs, if_pos rfl]
  -- the children of the new page are those of the old one, or zero pages
  have hents : ∀ k c, m.ents k = some c → b.heap.checkpointTs c ≤ t := by
    intro k c hc
    cases hold : b.get slot with
    | none =>
      rw [hold] at hsame
      rw [show m = _ from hsame] at hc
      rcases mkZeroCheckpointPage_ents level k with h | ⟨l, -, h⟩
      · rw [h] at hc
        cases hc
      · obtain rfl := Option.some.inj (h.symm.trans hc)
        exact Nat.zero_le t
    | some old =>
      rw [hold] at hsame
      rw [show m = _ from hsame] at hc
      exact (hok.mono old k c hc).trans (hget old hold).2.2
  have hfits := hsame.fits hok fun c hc => (hget c hc).2.1
  refine ⟨⟨⟨hwf, fun r k c hc => ?_⟩, fun c hc => ?_,
    by rw [g.next]; omega, hlv, htv, fun r k hr hne => ?_, fun id hid hlt => ?_, fun x ρ hx => ?_,
    fun ρ => ?_⟩, fun r k hr hl => ?_, fun hne => ?_⟩
  · rcases g.child_cases hc with ⟨rfl, hm⟩ | ⟨hne, rfl, rfl⟩ | ⟨hne, hold⟩
    · rw [hnew, htv c (hfits.ents k c hm).1]
      exact hents k c hm
    · obtain ⟨id, rfl, hlt, -⟩ := hs.ent r k rfl
      rw [hnew, htv (.page id) hlt, hts (.page id) k rfl]
    · rw [htv c (hok.toHeapWf.valid hold), g.checkpointTs, if_neg hne]
      exact hok.mono r k c hold
  · rw [g.root] at hc
    split_ifs at hc with h₁
    · obtain rfl := Option.some.inj hc
      refine ⟨by rw [g.next]; exact Nat.lt_succ_self _, ?_, hnew.le⟩
      rw [g.level, if_pos rfl]
      exact hs.root h₁
    · obtain ⟨hv, hl, ht⟩ := hroot c hc
      rw [g.next, hlv c hv, htv c hv]
      exact ⟨hv.mono (Nat.le_succ _), hl, ht⟩
  · exact g.child_old hr.ne_next fun hslot => hne (hts r k hslot)
  · rw [g.next] at hlt
    rw [show id = b.heap.next by omega, hnew]
  · exact g.contents_of_walks hsame
      (g.walk_from hok.toHeapWf hs hsame (.inl ⟨rfl, fun c hc => (hx c hc).ne_next⟩) ρ)
  · exact g.contents_of_walks hsame
      (g.walk_from hok.toHeapWf hs hsame (g.walks_root fun c hc => (hroot c hc).1) ρ)
  · refine g.child_old hr.ne_next ?_
    rintro rfl
    obtain ⟨id, rfl, -, hl'⟩ := hs.ent r k rfl
    have : b.heap.level (.page id) = level + 1 := hl'
    omega
  · rw [g.root, if_neg hne]

/-- **One turn**: the page at `slot` carries the timestamp already, a copy or a page of
zeros is put there, or there is no memory. -/
theorem cowPage_grafts (faults : Faults) (hok : HeapOk b.heap) (hs : SlotIn b slot level) :
    match b.cowPage faults t level slot with
    | (b', .error e) => e = .enomem ∧ (b' = b ∨ ∃ id, b' = b.stamp id t)
    | (b', .ok r) => (b' = b ∧ b.get slot = some r ∧ b.heap.checkpointTs r = t) ∨
        (r = .page b.heap.next ∧ (∀ old, b.get slot = some old → b.heap.checkpointTs old ≠ t) ∧
          ∃ m, SameAs b.heap m level (b.get slot) ∧ Graft b (b'.put slot r) slot t level m) := by
  unfold Build.cowPage Build.newPage
  cases hget : b.get slot with
  | none =>
    cases faults.page b.heap.next with
    | true => exact ⟨rfl, .inl rfl⟩
    | false =>
      exact .inr ⟨rfl, by simp, _, rfl, graft_put hok.toHeapWf hs rfl rfl (alloc_mem _ _ _ _)
        (alloc_level _ _ _ _) (alloc_checkpointTs _ _ _ _)⟩
  | some old =>
    have hold : ∀ ts', b.heap.checkpointTs old ≠ ts' →
        ∀ old', some old = some old' → b.heap.checkpointTs old' ≠ ts' := by
      rintro ts' hne old' ⟨⟩
      exact hne
    by_cases hsame : b.heap.checkpointTs old = t
    · simp only [hsame, if_true]
      exact .inl ⟨trivial, trivial, trivial⟩
    · simp only [hsame, if_false]
      cases faults.page b.heap.next with
      | true => exact ⟨rfl, .inl rfl⟩
      | false =>
        cases old with
        | zero l => exact .inr ⟨rfl, hold t hsame, _, rfl, graft_put hok.toHeapWf hs rfl rfl
            (alloc_mem _ _ _ _) (alloc_level _ _ _ _) (alloc_checkpointTs _ _ _ _)⟩
        | page id =>
          cases faults.push b.heap.next with
          | true => exact ⟨rfl, .inr ⟨id, rfl⟩⟩
          | false =>
            refine .inr ⟨rfl, hold t hsame, _, rfl, graft_put hok.toHeapWf hs rfl rfl (fun r => ?_)
              (fun r => ?_) fun r => ?_⟩
            · exact (stamp_mem _ id t r).trans (alloc_mem _ _ _ _ r)
            · exact (stamp_level _ id t r).trans (alloc_level _ _ _ _ r)
            · exact (stamp_checkpointTs _ id t r).trans (alloc_checkpointTs _ _ _ _ r)

/-- The new page is at `slot`. -/
theorem Graft.get (hs : SlotIn b slot level) (g : Graft b b' slot t level m) :
    b'.get slot = some (.page b.heap.next) := by
  cases slot with
  | root => exact g.root.trans (if_pos rfl)
  | ent r k =>
    obtain ⟨id, rfl, hlt, -⟩ := hs.ent r k rfl
    have hne : Ref.page id ≠ .page b.heap.next :=
      (show Valid b.heap.next (.page id) from hlt).ne_next
    exact (g.child _ k).trans ((if_neg hne).trans (if_pos rfl))

/-- A page with timestamp `t` is at `slot`: what is read is the same, and it is a zero page
only if `t` is `0`. -/
structure Settled (t level : ℕ) (slot : Slot) (b b' : Build) (r : Ref) : Prop
    extends Patch t level slot b b' where
  get : b'.get slot = some r
  valid : Valid b'.heap.next r
  level_self : b'.heap.level r = level
  ts_self : b'.heap.checkpointTs r = t

/-- The zero pages count as made at time `0`. -/
theorem Settled.page_of_ne {r : Ref} (h : Settled t level slot b b' r) (ht : t ≠ 0) :
    ∃ id, r = .page id := by
  cases r with
  | zero l => exact absurd h.ts_self.symm ht
  | page id => exact ⟨id, rfl⟩

/-- **What a turn of the loop does.** -/
theorem cowPage_settled (faults : Faults) (hok : HeapOk b.heap) (hroot : RootOk b.heap t b.root)
    (hs : SlotIn b slot level) (hts : ∀ r k, slot = .ent r k → b.heap.checkpointTs r = t) :
    match b.cowPage faults t level slot with
    | (b', .error _) => Patch t level slot b b'
    | (b', .ok r) => Settled t level slot b (b'.put slot r) r ∧ (b'.put slot r = b ∨
        (∀ old, b.get slot = some old → b.heap.checkpointTs old ≠ t) ∧
          ∃ m, SameAs b.heap m level (b.get slot) ∧ Graft b (b'.put slot r) slot t level m) := by
  have hcases := cowPage_grafts (t := t) faults hok hs
  rcases hcow : b.cowPage faults t level slot with ⟨b₁, e | r⟩
  · simp only [hcow] at hcases ⊢
    obtain ⟨-, rfl | ⟨id, rfl⟩⟩ := hcases
    · exact .refl hok hroot
    · exact .stamp hok hroot id t
  · simp only [hcow] at hcases ⊢
    obtain ⟨rfl, hget, hrts⟩ | ⟨rfl, hold, m, hsame, g⟩ := hcases
    · rw [put_get hs hget]
      obtain ⟨hv, hl, -⟩ := hs.get hok hroot hts hget
      exact ⟨⟨.refl hok hroot, hget, hv, hl, hrts⟩, .inl rfl⟩
    · refine ⟨⟨g.patch hok hroot hs hts hsame, g.get hs, ?_, ?_, ?_⟩, .inr ⟨hold, m, hsame, g⟩⟩
      · rw [g.next]
        exact Nat.lt_succ_self _
      · rw [g.level, if_pos rfl]
      · rw [g.checkpointTs, if_pos rfl]

/-- The next turn starts in the page that was put in place. -/
theorem Settled.slotIn {id : ℕ} (h : Settled t (level + 1) slot b b' (.page id)) (k : ℕ) :
    SlotIn b' (.ent (.page id) k) level := by
  refine ⟨fun hroot => absurd hroot (by simp), fun r k' hr => ?_⟩
  obtain ⟨rfl, -⟩ := Slot.ent.inj hr
  exact ⟨id, rfl, h.valid, h.level_self⟩

/-- The next slot is in a table of this checkpoint. -/
theorem Settled.slot_ts {r : Ref} (h : Settled t (level + 1) slot b b' r) (k : ℕ) :
    ∀ r' k', Slot.ent r k = .ent r' k' → b'.heap.checkpointTs r' = t := by
  intro r' k' hr
  obtain ⟨rfl, -⟩ := Slot.ent.inj hr
  exact h.ts_self

/-- The turns after this one leave its page where it is. -/
theorem Settled.get_after {r : Ref} {k : ℕ} (hs : SlotIn b slot (level + 1))
    (h : Settled t (level + 1) slot b b' r) (h' : Patch t level (.ent r k) b' b'') :
    b''.get slot = some r := by
  rw [← h.get]
  cases slot with
  | root => exact h'.root_eq (by simp)
  | ent T j =>
    obtain ⟨id, rfl, hlt, hl⟩ := hs.ent T j rfl
    have hv : Valid b.heap.next (.page id) := hlt
    have hl' : b.heap.level (.page id) = level + 1 + 1 := hl
    refine h'.above _ j (hv.mono h.next_le) ?_
    rw [h.level_eq _ hv, hl']
    omega

/-- `r` and every page on the way from it are the checkpoint's own. -/
def Private (h : Heap) (t : ℕ) (r : Option Ref) (offsets : List ℕ) : Prop :=
  ∀ n ≤ offsets.length, ∃ id, follow h.child r (offsets.take n) = some (.page id) ∧
    (h.page id).checkpointTs = t

/-- No store is to a shared zero table. -/
def AvoidsZeros (stores : List (Slot × Ref)) : Prop :=
  ∀ x ∈ stores, ∀ l k, x.1 ≠ .ent (.zero l) k

/-- A store to a table that is allocated avoids the zero pages. -/
theorem avoidsZeros_cons {r : Ref} {stores : List (Slot × Ref)} (hs : SlotIn b slot level)
    (h : AvoidsZeros stores) : AvoidsZeros ((slot, r) :: stores) := by
  refine List.forall_mem_cons.2 ⟨fun l k hslot => ?_, h⟩
  obtain ⟨id, hid, -⟩ := hs.ent _ k hslot
  cases hid

/-- **With a timestamp other than `0`** every page on the path is made private, and no shared
page is written to. -/
theorem nowriteLoop_private (ht : t ≠ 0) (faults : Faults) (offsets : List ℕ) :
    ∀ {b : Build} {slot : Slot}, HeapOk b.heap → RootOk b.heap t b.root →
      SlotIn b slot offsets.length → (∀ r k, slot = .ent r k → b.heap.checkpointTs r = t) →
      Patch t offsets.length slot b (nowriteLoop faults t offsets b slot).1 ∧
        AvoidsZeros (nowriteLoop faults t offsets b slot).2.1 ∧
        ((nowriteLoop faults t offsets b slot).2.2 = .ok () →
          Private (nowriteLoop faults t offsets b slot).1.heap t
            ((nowriteLoop faults t offsets b slot).1.get slot) offsets) := by
  induction offsets with
  | nil =>
    intro b slot hok hroot hs hts
    have hturn := cowPage_settled faults hok hroot hs hts
    rw [nowriteLoop]
    rw [List.length_nil] at hturn
    rcases hcow : b.cowPage faults t 0 slot with ⟨b₁, e | r⟩
    · simp only [hcow] at hturn ⊢
      exact ⟨hturn, by simp [AvoidsZeros], by simp⟩
    · simp only [hcow] at hturn ⊢
      obtain ⟨h, -⟩ := hturn
      obtain ⟨id, rfl⟩ := h.page_of_ne ht
      refine ⟨h.toPatch, ?_, fun _ n hn => ?_⟩
      · exact avoidsZeros_cons hs (by simp [AvoidsZeros])
      · obtain rfl := Nat.le_zero.1 hn
        exact ⟨id, h.get, h.ts_self⟩
  | cons offset offsets ih =>
    intro b slot hok hroot hs hts
    have hturn := cowPage_settled faults hok hroot hs hts
    rw [nowriteLoop]
    rw [List.length_cons] at hturn hs ⊢
    rcases hcow : b.cowPage faults t (offsets.length + 1) slot with ⟨b₁, e | r⟩
    · simp only [hcow] at hturn ⊢
      exact ⟨hturn, by simp [AvoidsZeros], by simp⟩
    · simp only [hcow] at hturn ⊢
      obtain ⟨h, -⟩ := hturn
      obtain ⟨id, rfl⟩ := h.page_of_ne ht
      obtain ⟨hpatch, havoid, hpriv⟩ := ih h.ok h.root_ok (h.slotIn offset) (h.slot_ts offset)
      refine ⟨h.toPatch.cons hpatch, avoidsZeros_cons hs havoid, fun hres n hn => ?_⟩
      rw [h.get_after hs hpatch]
      cases n with
      | zero => exact ⟨id, rfl, (hpatch.ts_eq _ h.valid).trans h.ts_self⟩
      | succ n =>
        obtain ⟨id', hf, hid'⟩ := hpriv hres n (by simpa using hn)
        exact ⟨id', hf, hid'⟩

/-! ### With timestamp 0 -/

/-- A store to a shared zero table stores the entry that it has. -/
def ZerosKept (stores : List (Slot × Ref)) : Prop :=
  ∀ x ∈ stores, ∀ l k, x.1 = .ent (.zero l) k → (mkZeroCheckpointPage l).ents k = some x.2

/-- What is not stored to is kept. -/
theorem AvoidsZeros.zerosKept {stores : List (Slot × Ref)} (h : AvoidsZeros stores) :
    ZerosKept stores := fun x hx l k hslot => absurd hslot (h x hx l k)

/-- The pages of time `0` are tables of inode numbers, and all files in them are the zero
page of level 3. -/
def InitialOk (h : Heap) : Prop :=
  ∀ id < h.next, (h.page id).checkpointTs = 0 → 4 ≤ (h.page id).level ∧
    ((h.page id).level = 4 → ∀ k, h.child (.page id) k = some (.zero 3)) ∧
    (4 < (h.page id).level → ∀ k l, h.child (.page id) k ≠ some (.zero l))

/-- The loop goes on through the zero pages and puts each of them where it is. -/
theorem nowriteLoop_zero (faults : Faults) (offsets : List ℕ) :
    ∀ {slot : Slot}, offsets.length ≤ 3 → b.get slot = some (.zero offsets.length) →
      b.put slot (.zero offsets.length) = b →
      (∀ l k, slot = .ent (.zero l) k →
        (mkZeroCheckpointPage l).ents k = some (.zero offsets.length)) →
      ∃ stores, nowriteLoop faults 0 offsets b slot = (b, stores, .ok ()) ∧ ZerosKept stores := by
  induction offsets with
  | nil =>
    intro slot _ hget hput hkept
    have hcow : b.cowPage faults 0 0 slot = (b, .ok (.zero 0)) := by
      rw [Build.cowPage, show b.get slot = some (.zero 0) from hget]
      rfl
    rw [nowriteLoop, hcow]
    refine ⟨_, Prod.ext hput rfl, fun x hx => ?_⟩
    obtain rfl := List.mem_singleton.1 hx
    exact hkept
  | cons offset offsets ih =>
    intro slot hlen hget hput hkept
    rw [List.length_cons] at hlen hget hput hkept
    have hcow : b.cowPage faults 0 (offsets.length + 1) slot =
        (b, .ok (.zero (offsets.length + 1))) := by
      rw [Build.cowPage, hget]
      rfl
    have hents : b.get (.ent (.zero (offsets.length + 1)) offset) =
        some (.zero offsets.length) := by
      change (mkZeroCheckpointPage (offsets.length + 1)).ents offset = _
      simp only [mkZeroCheckpointPage, PageMem.ents, foffsetLevels]
      exact if_pos (by omega)
    have hkept' : ∀ l k, Slot.ent (.zero (offsets.length + 1)) offset = .ent (.zero l) k →
        (mkZeroCheckpointPage l).ents k = some (.zero offsets.length) := by
      intro l k hslot
      obtain ⟨hl, rfl⟩ := Slot.ent.inj hslot
      rwa [← Ref.zero.inj hl]
    obtain ⟨stores, hrest, hzeros⟩ := ih (by omega) hents rfl hkept'
    rw [nowriteLoop, hcow]
    simp only [hput, hrest]
    exact ⟨_, rfl, List.forall_mem_cons.2 ⟨hkept, hzeros⟩⟩

/-- The same for one store more. -/
theorem zerosKept_cons {r : Ref} {stores : List (Slot × Ref)} (hs : SlotIn b slot level)
    (h : ZerosKept stores) : ZerosKept ((slot, r) :: stores) := by
  refine List.forall_mem_cons.2 ⟨fun l k hslot => ?_, h⟩
  obtain ⟨id, hid, -⟩ := hs.ent _ k hslot
  cases hid

/-- A stamp moves no entry. -/
theorem stamp_get (id ts : ℕ) : (b.stamp id ts).get slot = b.get slot := by
  cases slot with
  | root => rfl
  | ent r k =>
    change ((b.stamp id ts).heap.mem r).ents k = (b.heap.mem r).ents k
    rw [stamp_mem]

/-- Nor is it one of the contents. -/
theorem InitialOk.stamp (h : InitialOk b.heap) (id ts : ℕ) : InitialOk (b.stamp id ts).heap := by
  have hchild : (b.stamp id ts).heap.child = b.heap.child := by
    funext r k
    rw [Heap.child, Heap.child, stamp_mem]
  intro j hj hts
  have hl := stamp_level b id ts (.page j)
  have ht := stamp_checkpointTs b id ts (.page j)
  have := h j hj (ht.symm.trans hts)
  rw [hchild]
  simp only [Heap.level] at hl
  rwa [hl]

/-- A table filled with zeros is put where nothing was. -/
theorem InitialOk.graft (h : InitialOk b.heap) (hs : SlotIn b slot level) (hl : 4 ≤ level)
    (hsame : SameAs b.heap m level none) (g : Graft b b' slot 0 level m) : InitialOk b'.heap := by
  obtain rfl : m = mkZeroCheckpointPage level := hsame
  intro id hid hts
  have hlevel : b'.heap.level (.page id) = _ := g.level (.page id)
  have hts' : b'.heap.checkpointTs (.page id) = _ := g.checkpointTs (.page id)
  rw [show b'.heap.checkpointTs (.page id) = 0 from hts] at hts'
  change 4 ≤ b'.heap.level (.page id) ∧ (b'.heap.level (.page id) = 4 → _) ∧
    (4 < b'.heap.level (.page id) → _)
  rw [hlevel]
  by_cases hnew : Ref.page id = .page b.heap.next
  · rw [if_pos hnew, hnew]
    refine ⟨hl, fun h4 k => ?_, fun h4 k l => ?_⟩
    · rw [g.child_new, h4]
      rfl
    · rw [g.child_new]
      obtain ⟨n, rfl⟩ : ∃ n, level = n + 1 := ⟨level - 1, by omega⟩
      have hino : ¬n + 1 ≤ foffsetLevels := by
        unfold foffsetLevels
        omega
      have hnone : (mkZeroCheckpointPage (n + 1)).ents k = none := if_neg hino
      simp [hnone]
  · rw [if_neg hnew] at hts' ⊢
    have hlt : id < b.heap.next := by
      rw [g.next] at hid
      have : id ≠ b.heap.next := fun h => hnew (by rw [h])
      omega
    obtain ⟨h₁, h₂, h₃⟩ := h id hlt hts'.symm
    refine ⟨h₁, fun h4 k => ?_, fun h4 k l hc => ?_⟩
    · refine (g.child_old hnew ?_).trans (h₂ h4 k)
      rintro rfl
      obtain ⟨id', hid', -, hl'⟩ := hs.ent _ k rfl
      obtain rfl := Ref.page.inj hid'
      have : b.heap.level (.page id) = level + 1 := hl'
      omega
    · rcases g.child_cases hc with ⟨h, -⟩ | ⟨-, -, h⟩ | ⟨-, h⟩
      · exact hnew h
      · cases h
      · exact h₃ h4 k l h

/-- **With timestamp `0`** the loop stops at the shared zero page of level 3 for every file,
and takes it and the zero pages below for its own. -/
theorem nowriteLoop_shared (faults : Faults) (offsets : List ℕ) :
    ∀ {b : Build} {slot : Slot}, 4 ≤ offsets.length → HeapOk b.heap → RootOk b.heap 0 b.root →
      InitialOk b.heap → SlotIn b slot offsets.length →
      (∀ r k, slot = .ent r k → b.heap.checkpointTs r = 0) →
      (∀ l, b.get slot ≠ some (.zero l)) →
      Patch 0 offsets.length slot b (nowriteLoop faults 0 offsets b slot).1 ∧
        ZerosKept (nowriteLoop faults 0 offsets b slot).2.1 ∧
        InitialOk (nowriteLoop faults 0 offsets b slot).1.heap ∧
        (∀ l, (nowriteLoop faults 0 offsets b slot).1.get slot ≠ some (.zero l)) ∧
        ((nowriteLoop faults 0 offsets b slot).2.2 = .ok () →
          follow (nowriteLoop faults 0 offsets b slot).1.heap.child
            ((nowriteLoop faults 0 offsets b slot).1.get slot)
            (offsets.take (offsets.length - 3)) = some (.zero 3)) := by
  induction offsets with
  | nil => simp
  | cons offset offsets ih =>
    intro b slot hlen hok hroot hinit hs hts hzero
    have hturn := cowPage_settled faults hok hroot hs hts
    have hcases := cowPage_grafts (t := 0) faults hok hs
    rw [nowriteLoop]
    rw [List.length_cons] at hturn hcases hs hlen ⊢
    rcases hcow : b.cowPage faults 0 (offsets.length + 1) slot with ⟨b₁, e | r⟩
    · simp only [hcow] at hturn hcases ⊢
      refine ⟨hturn, by simp [ZerosKept], ?_, ?_, by simp⟩
      · obtain ⟨-, rfl | ⟨id, rfl⟩⟩ := hcases
        · exact hinit
        · exact hinit.stamp id 0
      · obtain ⟨-, rfl | ⟨id, rfl⟩⟩ := hcases
        · exact hzero
        · intro l
          rw [stamp_get]
          exact hzero l
    · simp only [hcow] at hturn ⊢
      obtain ⟨h, hput⟩ := hturn
      have hinit₁ : InitialOk (b₁.put slot r).heap := by
        rcases hput with heq | ⟨hold, m, hsame, g⟩
        · rwa [heq]
        · have hnone : b.get slot = none := by
            rcases hget : b.get slot with _ | old
            · rfl
            · exact absurd (Nat.le_zero.1 (hs.get hok hroot hts hget).2.2) (hold old hget)
          rw [hnone] at hsame
          exact hinit.graft hs hlen hsame g
      obtain ⟨id, rfl⟩ : ∃ id, r = .page id := by
        cases r with
        | page id => exact ⟨id, rfl⟩
        | zero l =>
          rcases hput with heq | ⟨hold, m, hsame, g⟩
          · have hget := h.get
            rw [heq] at hget
            exact absurd hget (hzero l)
          · exact absurd ((g.get hs).symm.trans h.get) (by simp)
      obtain ⟨-, h4, h5⟩ := hinit₁ id h.valid h.ts_self
      have hl : ((b₁.put slot (.page id)).heap.page id).level = offsets.length + 1 := h.level_self
      by_cases h3 : offsets.length = 3
      · -- all files are the zero page of level 3
        have hchild : (b₁.put slot (.page id)).get (.ent (.page id) offset) =
            some (.zero offsets.length) := by
          rw [h3]
          exact h4 (by omega) offset
        obtain ⟨stores, hrest, hkept⟩ := nowriteLoop_zero faults offsets (by omega) hchild
          (put_get (h.slotIn offset) hchild) (by simp)
        simp only [hrest]
        refine ⟨h.toPatch, zerosKept_cons hs hkept, hinit₁, fun l => by simp [h.get], fun _ => ?_⟩
        rw [h.get, h3, show 3 + 1 - 3 = 0 + 1 from rfl, List.take_succ_cons, follow_cons,
          List.take_zero, follow_nil]
        exact h4 (by omega) offset
      · obtain ⟨hpatch, hkept, hinit₂, -, hpath⟩ := ih (by omega) h.ok h.root_ok hinit₁
          (h.slotIn offset) (h.slot_ts offset) (h5 (by omega) offset)
        rw [h.get_after hs hpatch]
        refine ⟨h.toPatch.cons hpatch, zerosKept_cons hs hkept, hinit₂, by simp, fun hres => ?_⟩
        rw [show offsets.length + 1 - 3 = offsets.length - 3 + 1 by omega, List.take_succ_cons,
          follow_cons]
        exact hpath hres

end Turns

/-! ### The function -/

section Prepare

variable {h : Heap} {root : Option Ref} {t : ℕ} (faults : Faults) (ino off : ℕ)

/-- The root is at level 6. -/
theorem slotIn_root (b : Build) : SlotIn b .root 6 := ⟨fun _ => rfl, by simp⟩

/-- **`sivfs_prepare_direct_access_page` at a time other than `0`**, successful or not. -/
theorem prepare_private (ht : t ≠ 0) (hok : HeapOk h) (hroot : RootOk h t root) :
    Patched t ⟨h, root, []⟩ (prepareDirectAccessPage faults h root t ino off).1 ∧
      ZerosKept (prepareDirectAccessPage faults h root t ino off).2.1 ∧
      ((prepareDirectAccessPage faults h root t ino off).2.2 = .ok () →
        Private (prepareDirectAccessPage faults h root t ino off).1.heap t
          (prepareDirectAccessPage faults h root t ino off).1.root (pathOf ino off)) := by
  rw [prepareDirectAccessPage, checkpointIterInit_eq]
  split_ifs with hin
  · obtain ⟨hpatch, havoid, hpriv⟩ := nowriteLoop_private ht faults (pathOf ino off)
      (b := ⟨h, root, []⟩) hok hroot (slotIn_root _) (by simp)
    exact ⟨hpatch.toPatched, havoid.zerosKept, hpriv⟩
  · exact ⟨.refl hok hroot, by simp [ZerosKept], by simp⟩

/-- **And at time `0`.** -/
theorem prepare_shared (hok : HeapOk h) (hroot : RootOk h 0 root) (hinit : InitialOk h)
    (hzero : ∀ l, root ≠ some (.zero l)) :
    Patched 0 ⟨h, root, []⟩ (prepareDirectAccessPage faults h root 0 ino off).1 ∧
      ZerosKept (prepareDirectAccessPage faults h root 0 ino off).2.1 ∧
      InitialOk (prepareDirectAccessPage faults h root 0 ino off).1.heap ∧
      (∀ l, (prepareDirectAccessPage faults h root 0 ino off).1.root ≠ some (.zero l)) ∧
      ((prepareDirectAccessPage faults h root 0 ino off).2.2 = .ok () →
        follow (prepareDirectAccessPage faults h root 0 ino off).1.heap.child
          (prepareDirectAccessPage faults h root 0 ino off).1.root ((pathOf ino off).take 3) =
            some (.zero 3)) := by
  rw [prepareDirectAccessPage, checkpointIterInit_eq]
  split_ifs with hin
  · obtain ⟨hpatch, hkept, hinit', hroot', hpath⟩ := nowriteLoop_shared faults (pathOf ino off)
      (b := ⟨h, root, []⟩) (by simp) hok hroot hinit (slotIn_root _) (by simp) hzero
    exact ⟨hpatch.toPatched, hkept, hinit', hroot', hpath⟩
  · exact ⟨.refl hok hroot, by simp [ZerosKept], hinit, hzero, by simp⟩

/-- Where memory does not run out, the loop comes to its end. -/
theorem nowriteLoop_ok (hnofault : ∀ n, faults.page n = false ∧ faults.push n = false)
    (offsets : List ℕ) :
    ∀ (b : Build) (slot : Slot), (nowriteLoop faults t offsets b slot).2.2 = .ok () := by
  induction offsets with
  | nil =>
    intro b slot
    obtain ⟨b', r, h⟩ := cowPage_ok (b := b) faults hnofault 0 slot
    rw [nowriteLoop, h]
  | cons offset offsets ih =>
    intro b slot
    obtain ⟨b', r, h⟩ := cowPage_ok (b := b) faults hnofault (offsets.length + 1) slot
    rw [nowriteLoop, h]
    exact ih _ _

/-- With memory it succeeds. -/
theorem prepare_ok (hin : InRange ino off) :
    (prepareDirectAccessPage noFaults h root t ino off).2.2 = .ok () := by
  rw [prepareDirectAccessPage, checkpointIterInit_eq, if_pos hin]
  exact nowriteLoop_ok noFaults (fun _ => ⟨rfl, rfl⟩) _ _ _

end Prepare

end Checkpoint
end Sivfs
