/-
# One turn of the loop

A turn of `sivfs_apply_change_checkpoint` looks at one slot.  A page of the current attempt stays
there; an older page is copied, and for a missing one a page of zeros is made; then the entry is
pointed at it (`Placed`).  Running out of memory leaves pages that nothing points to, and the
tree as it was (`cowPage_spec`).
-/

import Sivfs.Checkpoint.Walks

open PathCopy

namespace Sivfs
namespace Checkpoint

/-! ### One turn of the loop -/

section Grafts

variable {n₀ ts level : ℕ} {past : ℕ → Prop} {label : Ref → List ℕ} {b b' : Build}
  {slot : Slot} {π : List ℕ} {m : PageMem}

/-- A page is allocated, filled with `m`, and put at `slot`. -/
theorem graft_put (hok : HeapWf b.heap) (hs : SlotIn b slot level) {b₁ : Build}
    (hnext : b₁.heap.next = b.heap.next + 1) (hroot : b₁.root = b.root)
    (hmem : ∀ r, b₁.heap.mem r = if r = .page b.heap.next then m else b.heap.mem r)
    (hlevel : ∀ r, b₁.heap.level r = if r = .page b.heap.next then level else b.heap.level r)
    (hts : ∀ r, b₁.heap.checkpointTs r =
      if r = .page b.heap.next then ts else b.heap.checkpointTs r) :
    Graft b (b₁.put slot (.page b.heap.next)) slot ts level m := by
  have hchild : ∀ r k, b₁.heap.child r k =
      if r = .page b.heap.next then m.ents k else b.heap.child r k := by
    intro r k
    rw [Heap.child, hmem]
    split_ifs <;> rfl
  have hwords : ∀ r, b₁.heap.words r =
      if r = .page b.heap.next then m.words else b.heap.words r := by
    intro r
    rw [Heap.words, hmem]
    split_ifs <;> rfl
  cases slot with
  | root =>
    refine ⟨hnext, rfl, fun r k => ?_, hwords, hlevel, hts⟩
    rw [if_neg (by simp : ¬Slot.root = Slot.ent r k)]
    exact hchild r k
  | ent t o =>
    obtain ⟨id, rfl, hlt, hl⟩ := hs.ent t o rfl
    have hid : Ref.page id ≠ .page b.heap.next :=
      (show Valid b.heap.next (.page id) from hlt).ne_next
    refine ⟨hnext, hroot, fun r k => ?_, fun r => ?_, fun r => ?_, fun r => ?_⟩
    · show ((b₁.heap.modify id _).mem r).ents k = _
      rw [modify_mem]
      by_cases hr : r = .page id
      · subst hr
        rw [if_pos rfl, if_neg hid]
        show Function.update (b₁.heap.child (.page id)) o _ k = _
        by_cases hk : k = o
        · subst hk
          rw [Function.update_self, if_pos rfl]
        · rw [Function.update_of_ne hk, hchild, if_neg hid, if_neg (by simp [Ne.symm hk])]
      · rw [if_neg hr]
        rw [if_neg (by simp [Ne.symm hr] : ¬Slot.ent (.page id) o = Slot.ent r k)]
        exact hchild r k
    · show ((b₁.heap.modify id _).mem r).words = _
      rw [modify_mem]
      by_cases hr : r = .page id
      · subst hr
        rw [if_pos rfl, if_neg hid, hok.words (.page id) (by rw [Heap.level, hl]; omega)]
        rfl
      · rw [if_neg hr]
        exact hwords r
    · exact (modify_level b₁.heap id _ rfl r).trans (hlevel r)
    · exact (modify_checkpointTs b₁.heap id _ rfl r).trans (hts r)

theorem stamp_mem (b : Build) (id ts : ℕ) (r : Ref) :
    (b.stamp id ts).heap.mem r = b.heap.mem r := by
  rw [Build.stamp, modify_mem]
  split_ifs with h
  · rw [h]
    rfl
  · rfl

theorem stamp_level (b : Build) (id ts : ℕ) (r : Ref) :
    (b.stamp id ts).heap.level r = b.heap.level r :=
  modify_level b.heap id (.obsolete ts) rfl r

theorem stamp_checkpointTs (b : Build) (id ts : ℕ) (r : Ref) :
    (b.stamp id ts).heap.checkpointTs r = b.heap.checkpointTs r :=
  modify_checkpointTs b.heap id (.obsolete ts) rfl r

/-- Pages that look the same are as well formed. -/
theorem HeapWf.congr {h h' : Heap} (hok : HeapWf h) (hnext : h'.next = h.next)
    (hmem : ∀ r, h'.mem r = h.mem r) (hlevel : ∀ r, h'.level r = h.level r) : HeapWf h' := by
  have hchild : h'.child = h.child := by
    funext r k
    rw [Heap.child, Heap.child, hmem]
  refine ⟨by rw [hchild, hnext]; exact hok.fresh, by rw [hchild, hnext]; exact hok.bound,
    fun r => ?_,
    fun r k c => ?_⟩
  · rw [hlevel, Heap.words, hmem]
    exact hok.words r
  · rw [hchild, hlevel, hlevel]
    exact hok.level r k c

/-- A stamp leaves a checkpoint as it was built. -/
theorem Building.stamp (ha : Building n₀ ts past label b) (id : ℕ) :
    Building n₀ ts past label (b.stamp id ts) := by
  have hchild : (b.stamp id ts).heap.child = b.heap.child := by
    funext r k
    rw [Heap.child, Heap.child, stamp_mem]
  refine ⟨ha.ok.congr rfl (stamp_mem b id ts) (stamp_level b id ts), ha.le, fun j hj hlt => ?_,
    fun c hc h ρ x hx => ?_, ?_, fun c hc => ?_⟩
  · exact (stamp_checkpointTs b id ts (.page j)).trans (ha.own_ts j hj hlt)
  · rw [hchild] at h hx
    rw [stamp_checkpointTs]
    exact ha.dated c hc h ρ x hx
  · rw [hchild]
    exact ha.labelled
  · rw [stamp_level]
    exact ha.root_ok c hc

/-- The page `r` for the change is in its place, at the end of `π`, and nothing
else has changed. -/
structure Placed (n₀ ts : ℕ) (past : ℕ → Prop) (level : ℕ) (label : Ref → List ℕ) (π : List ℕ)
    (slot : Slot)
    (b b' : Build) (r : Ref) : Prop where
  slot_ne : ∀ k, slot ≠ .ent r k
  building : Building n₀ ts past label b'
  page : ∃ id, r = .page id ∧ n₀ ≤ id ∧ id < b'.heap.next ∧ (b'.heap.page id).level = level
  label : label r = π
  follow : follow b'.heap.child b'.root π = some r
  contents : ∀ ρ, b'.heap.contents b'.root ρ = b.heap.contents b.root ρ
  walk : ∀ ρ, ρ ≠ π → PathCopy.follow b'.heap.child b'.root ρ =
      PathCopy.follow b.heap.child b.root ρ ∨
    (PathCopy.follow b.heap.child b.root ρ = none ∧
      ∃ l, PathCopy.follow b'.heap.child b'.root ρ = some (.zero l))
  frozen : Frozen n₀ b.heap b'.heap

/-- Putting a page somewhere leaves the older pages alone. -/
theorem Frozen.put {h : Heap} (hs : SlotOk n₀ label b slot level π) {b₁ : Build}
    (hf : Frozen n₀ h b₁.heap) (r : Ref) : Frozen n₀ h (b₁.put slot r).heap := by
  cases slot with
  | root => exact hf
  | ent t o =>
    obtain ⟨id, rfl, hid, -⟩ := hs.ent t o rfl
    have hpage : ∀ j < n₀, (b₁.put (.ent (.page id) o) r).heap.page j = b₁.heap.page j :=
      fun j hj =>
      Function.update_of_ne (by omega) _ _
    exact ⟨hf.next_le, fun j hj => by rw [hpage j hj]; exact hf.mem j hj,
      fun j hj => by rw [hpage j hj]; exact hf.checkpointTs j hj,
      fun j hj => by rw [hpage j hj]; exact hf.level j hj⟩

theorem Frozen.of_looks {h h' : Heap} (hn : n₀ ≤ h.next) (hnext : h.next ≤ h'.next)
    (hmem : ∀ r, r ≠ .page h.next → h'.mem r = h.mem r)
    (hlevel : ∀ r, r ≠ .page h.next → h'.level r = h.level r)
    (hts : ∀ r, r ≠ .page h.next → h'.checkpointTs r = h.checkpointTs r) : Frozen n₀ h h' := by
  have hne : ∀ id < n₀, Ref.page id ≠ .page h.next := by
    intro id hid
    simp only [ne_eq, Ref.page.injEq]
    omega
  exact ⟨hnext, fun id hid => hmem (.page id) (hne id hid),
    fun id hid => hts (.page id) (hne id hid), fun id hid => hlevel (.page id) (hne id hid)⟩

/-- A page is allocated, filled with what was at `slot` or with zeros, and put
there. -/
theorem Placed.alloc (ha : Building n₀ ts past label b) (hs : SlotOk n₀ label b slot level π)
    {b₁ : Build}
    (hold : ∀ c, b.get slot = some c → ¬Own n₀ c) (hm : Fills n₀ past level b.heap m)
    (hsame : SameAs b.heap m level (b.get slot))
    (hnext : b₁.heap.next = b.heap.next + 1) (hroot : b₁.root = b.root)
    (hmem : ∀ r, b₁.heap.mem r = if r = .page b.heap.next then m else b.heap.mem r)
    (hlevel : ∀ r, b₁.heap.level r = if r = .page b.heap.next then level else b.heap.level r)
    (hts : ∀ r, b₁.heap.checkpointTs r =
      if r = .page b.heap.next then ts else b.heap.checkpointTs r) :
    Placed n₀ ts past level (Function.update label (.page b.heap.next) π) π slot b
      (b₁.put slot (.page b.heap.next)) (.page b.heap.next) := by
  have g := graft_put ha.ok hs.slotIn hnext hroot hmem hlevel hts
  obtain ⟨hbuilding, hfollow⟩ := g.building ha hs hold hm
  have hne : ∀ k, slot ≠ .ent (.page b.heap.next) k := by
    rintro k rfl
    obtain ⟨id, h, -, hlt, -⟩ := hs.ent _ k rfl
    obtain rfl := Ref.page.inj h
    omega
  refine ⟨hne, hbuilding, ⟨_, rfl, ha.le, by rw [g.next]; omega, ?_⟩,
    Function.update_self _ _ _, hfollow,
    g.contents ha hs hsame, fun ρ hρ => ?_, .put hs (.of_looks ha.le (by omega) ?_ ?_ ?_) _⟩
  · exact (g.level (.page b.heap.next)).trans (if_pos rfl)
  · rcases g.walk ha hs hsame ρ with ⟨h, -⟩ | ⟨-, h⟩ | h
    · exact .inl h
    · have hlabel := hbuilding.labelled.eq_of_follow h ha.le
      rw [Function.update_self] at hlabel
      exact absurd hlabel.symm hρ
    · exact .inr h
  · intro r hr
    rw [hmem, if_neg hr]
  · intro r hr
    rw [hlevel, if_neg hr]
  · intro r hr
    rw [hts, if_neg hr]

/-- Zero pages lead to zero pages. -/
theorem dated_zero (h₀ : past 0) (h : Heap) (l : ℕ) : h.Dated past (.zero l) := by
  intro ρ x hx
  obtain ⟨l', rfl⟩ : ∃ l', x = .zero l' := by
    refine follow_mem (p := fun r => ∃ l', r = .zero l') ?_ (by rintro x ⟨⟩; exact ⟨l, rfl⟩) ρ x hx
    rintro r k c ⟨l', rfl⟩ hc
    rcases mkZeroCheckpointPage_ents l' k with h' | ⟨l'', -, h'⟩
    · exact absurd (h'.symm.trans hc) (by simp)
    · exact ⟨l'', Option.some.inj (hc.symm.trans h')⟩
  exact h₀

/-- Zeros may be filled in anywhere. -/
theorem fills_zero (h₀ : past 0) (h : Heap) :
    Fills n₀ past level h (mkZeroCheckpointPage level) := by
  refine ⟨fun k c hc => ?_, fun _ => mkZeroCheckpointPage_words level⟩
  rcases mkZeroCheckpointPage_ents level k with h' | ⟨l, hl, h'⟩
  · rw [h'] at hc
    simp at hc
  · rw [h'] at hc
    obtain rfl := Option.some.inj hc
    exact ⟨trivial, id, hl, dated_zero h₀ h l⟩

/-- An older page may be copied to its own level. -/
theorem Building.fills (ha : Building n₀ ts past label b) {old : Ref} (hown : ¬Own n₀ old)
    (hlevel : b.heap.level old = level) (hdated : b.heap.Dated past old) :
    Fills n₀ past level b.heap (b.heap.mem old) := by
  constructor
  · intro k c hc
    have hchild : b.heap.child old k = some c := hc
    refine ⟨ha.ok.valid hchild, fun h => hown (ha.labelled.child old k c hchild h).1, ?_,
      fun ρ x hx => hdated (k :: ρ) x (by rw [follow_cons, hchild]; exact hx)⟩
    rw [← hlevel]
    exact ha.ok.level old k c hchild
  · intro hpos
    exact ha.ok.words old (by omega)

/-- Putting back what is there changes nothing. -/
theorem put_get (hs : SlotIn b slot level) {r : Ref}
    (h : b.get slot = some r) : b.put slot r = b := by
  cases slot with
  | root =>
    obtain ⟨heap, root, obs⟩ := b
    simp only [Build.get] at h
    simp [Build.put, h]
  | ent t o =>
    obtain ⟨id, rfl, -⟩ := hs.ent t o rfl
    have hpage : Page.setEnt o r (b.heap.page id) = b.heap.page id := by
      have hents : (b.heap.page id).mem.ents o = some r := h
      cases hpg : (b.heap.page id).mem with
      | leaf w =>
        rw [hpg] at hents
        simp [PageMem.ents] at hents
      | table t =>
        rw [hpg] at hents
        have hupd : Function.update t o (some r) = t := by
          rw [Function.update_eq_self_iff]
          exact hents.symm
        rw [Page.setEnt, hpg]
        simp only [PageMem.ents, hupd, ← hpg]
    simp only [Build.put, Heap.modify, hpage, Function.update_eq_self]

/-- **One turn of the loop** either puts a page of this attempt in place or runs
out of memory. -/
theorem cowPage_spec (ha : Building n₀ ts past label b) (hs : SlotOk n₀ label b slot level π)
    (h₀ : past 0) (hpast : ¬past ts) (faults : Faults) :
    match b.cowPage faults ts level slot with
    | (b', .error e) => e = .enomem ∧ Building n₀ ts past label b' ∧ Frozen n₀ b.heap b'.heap
    | (b', .ok r) => ∃ label', Placed n₀ ts past level label' π slot b (b'.put slot r) r := by
  unfold Build.cowPage Build.newPage
  cases hget : b.get slot with
  | none =>
    cases faults.page b.heap.next with
    | true => exact ⟨rfl, ha, .refl _ _⟩
    | false =>
      exact ⟨_, .alloc ha hs (by simp [hget]) (fills_zero h₀ _) (by rw [hget]; rfl) rfl rfl
        (alloc_mem _ _ _ _) (alloc_level _ _ _ _) (alloc_checkpointTs _ _ _ _)⟩
  | some old =>
    obtain ⟨hvalid, hlevel, hlabel, hyoung⟩ := ha.get_slot hs hget
    by_cases hsame : b.heap.checkpointTs old = ts
    · have hown : Own n₀ old := by
        by_contra hn
        exact hpast (hsame ▸ hyoung hn [] old rfl)
      simp only [hsame, if_true]
      rw [put_get hs.slotIn hget]
      obtain ⟨id, rfl⟩ : ∃ id, old = .page id := by
        cases old with
        | zero => exact absurd hown id
        | page id => exact ⟨id, rfl⟩
      refine ⟨label, ?_, ha, ⟨id, rfl, hown, hvalid, hlevel⟩, hlabel hown, hs.get.trans hget,
        fun _ => rfl, fun _ _ => .inl rfl, .refl _ _⟩
      rintro k rfl
      obtain ⟨id', h, -, -, hl, -⟩ := hs.ent _ k rfl
      obtain rfl := Ref.page.inj h
      have : (b.heap.page id).level = level := hlevel
      omega
    · have hown : ¬Own n₀ old := by
        intro h
        cases old with
        | zero => exact h
        | page id => exact hsame (ha.own_ts id h hvalid)
      have hfills := ha.fills hown hlevel (hyoung hown)
      have hold : ∀ c, b.get slot = some c → ¬Own n₀ c := by
        intro c hc
        rw [hget] at hc
        obtain rfl := Option.some.inj hc
        exact hown
      have hcopy : SameAs b.heap (b.heap.mem old) level (b.get slot) := by
        rw [hget]
        rfl
      simp only [hsame, if_false]
      cases faults.page b.heap.next with
      | true => exact ⟨rfl, ha, .refl _ _⟩
      | false =>
        cases old with
        | zero l =>
          exact ⟨_, .alloc ha hs hold hfills hcopy rfl rfl (alloc_mem _ _ _ _)
            (alloc_level _ _ _ _) (alloc_checkpointTs _ _ _ _)⟩
        | page id =>
          cases faults.push b.heap.next with
          | true =>
            exact ⟨rfl, ha.stamp id, .of_looks ha.le le_rfl (fun r _ => stamp_mem b id ts r)
              (fun r _ => stamp_level b id ts r) fun r _ => stamp_checkpointTs b id ts r⟩
          | false =>
            refine ⟨_, .alloc ha hs hold hfills hcopy rfl rfl (fun r => ?_) (fun r => ?_)
              fun r => ?_⟩
            · exact (stamp_mem _ id ts r).trans (alloc_mem _ _ _ _ r)
            · exact (stamp_level _ id ts r).trans (alloc_level _ _ _ _ r)
            · exact (stamp_checkpointTs _ id ts r).trans (alloc_checkpointTs _ _ _ _ r)

end Grafts

end Checkpoint
end Sivfs
