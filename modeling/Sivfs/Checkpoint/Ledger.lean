/-
# The pages an attempt replaces

`sivfs_apply_change_checkpoint` stamps a page with `obsoleted_ts` before it puts the
page on `obsoleted_pages`, and neither is undone if the attempt fails later on.  This
module keeps the books of an attempt that starts from the tree under `r₀` in the
pages `h₀`:

* `obsoleted_pages` holds exactly the pages of that tree that are no longer in the new
  one, each once (`Ledger`);
* a stamped page lies on the path of a change that the attempt has come to
  (`Stamps`);
* every page on the path of a change that is applied is new (`Covered`).

By the last two, an attempt that applies the changes again after a failure replaces
every page that was stamped in vain.
-/

import Sivfs.Checkpoint.Exact

open PathCopy

namespace Sivfs
namespace Checkpoint

/-! ### Lists and stamps -/

/-- `obsoleted_ts` of a page. -/
def Heap.obsoletedTs (h : Heap) (id : ℕ) : Ts := (h.page id).obsoletedTs

/-- To point at a page makes none obsolete. -/
theorem put_obsoletedTs (b : Build) (slot : Slot) (r : Ref) (id : ℕ) :
    (b.put slot r).heap.obsoletedTs id = b.heap.obsoletedTs id := by
  rcases slot with _ | ⟨_ | tid, o⟩
  · rfl
  · rfl
  · by_cases h : id = tid
    · subst h
      simp [Build.put, Heap.obsoletedTs, Heap.modify, Page.setEnt]
    · simp [Build.put, Heap.obsoletedTs, Heap.modify, Function.update_of_ne h]

/-- Nor does it list any. -/
theorem put_obsoletedPages (b : Build) (slot : Slot) (r : Ref) :
    (b.put slot r).obsoletedPages = b.obsoletedPages := by
  rcases slot with _ | ⟨_ | tid, o⟩ <;> rfl

/-- Nor allocate any. -/
theorem put_next (b : Build) (slot : Slot) (r : Ref) : (b.put slot r).heap.next = b.heap.next := by
  rcases slot with _ | ⟨_ | tid, o⟩ <;> rfl

/-- To write a word makes no page obsolete. -/
theorem applyWsEnt_obsoletedTs (b : Build) (r : Ref) (ent : WsEntry) (id : ℕ) :
    (b.applyWsEnt r ent).heap.obsoletedTs id = b.heap.obsoletedTs id := by
  rcases r with _ | j
  · rfl
  · by_cases h : id = j
    · subst h
      simp [Build.applyWsEnt, Heap.obsoletedTs, Heap.modify, Page.setWord]
    · simp [Build.applyWsEnt, Heap.obsoletedTs, Heap.modify, Function.update_of_ne h]

/-- Nor does it list any. -/
theorem applyWsEnt_obsoletedPages (b : Build) (r : Ref) (ent : WsEntry) :
    (b.applyWsEnt r ent).obsoletedPages = b.obsoletedPages := by
  rcases r with _ | j <;> rfl

/-- Nor allocate any. -/
theorem applyWsEnt_next (b : Build) (r : Ref) (ent : WsEntry) :
    (b.applyWsEnt r ent).heap.next = b.heap.next := by
  rcases r with _ | j <;> rfl

/-- The root stays. -/
theorem applyWsEnt_root (b : Build) (r : Ref) (ent : WsEntry) :
    (b.applyWsEnt r ent).root = b.root := by
  rcases r with _ | j <;> rfl

/-- A stamp is on one page. -/
theorem stamp_obsoletedTs (b : Build) (c ts id : ℕ) :
    (b.stamp c ts).heap.obsoletedTs id = if id = c then (ts : Ts) else b.heap.obsoletedTs id := by
  by_cases h : id = c
  · subst h
    simp [Build.stamp, Heap.obsoletedTs, Heap.modify, Page.obsolete]
  · simp [Build.stamp, Heap.obsoletedTs, Heap.modify, h]

/-- A new page is not obsolete. -/
theorem alloc_obsoletedTs (h : Heap) (ts level : ℕ) (mem : PageMem) (id : ℕ) :
    (h.alloc ts level mem).obsoletedTs id =
      if id = h.next then invalidTs else h.obsoletedTs id := by
  by_cases hid : id = h.next
  · subst hid
    simp [Heap.obsoletedTs, Heap.alloc]
  · simp [Heap.obsoletedTs, Heap.alloc, hid]

/-- What a turn of the loop does to lists and stamps when it succeeds: nothing for a
page of the attempt; a new page where there was none; a copy of page `c`. -/
inductive Cows (ts : ℕ) (old : Option Ref) (b b' : Build) : Prop where
  | kept {r : Ref} : old = some r → b.heap.checkpointTs r = ts → b' = b → Cows ts old b b'
  | grown : (∀ c, old ≠ some (.page c)) → b'.obsoletedPages = b.obsoletedPages →
      (∀ id, b'.heap.obsoletedTs id =
        if id = b.heap.next then invalidTs else b.heap.obsoletedTs id) →
      b'.heap.next = b.heap.next + 1 → Cows ts old b b'
  | copied {c : ℕ} : old = some (.page c) → b.heap.checkpointTs (.page c) ≠ ts →
      b'.obsoletedPages = c :: b.obsoletedPages →
      (∀ id, b'.heap.obsoletedTs id = if id = c then (ts : Ts)
        else if id = b.heap.next then invalidTs else b.heap.obsoletedTs id) →
      b'.heap.next = b.heap.next + 1 → Cows ts old b b'

/-- How a turn of the loop ends. -/
theorem cowPage_cases (b : Build) (faults : Faults) (ts level : ℕ) (slot : Slot) :
    (∃ b' r, b.cowPage faults ts level slot = (b', .ok r) ∧ Cows ts (b.get slot) b b') ∨
      (∃ e, b.cowPage faults ts level slot = (b, .error e)) ∨
      ∃ c, b.get slot = some (.page c) ∧
        ∃ e, b.cowPage faults ts level slot = (b.stamp c ts, .error e) := by
  unfold Build.cowPage Build.newPage
  rcases hget : b.get slot with _ | old
  · cases hf : faults.page b.heap.next with
    | true => exact .inr (.inl ⟨_, rfl⟩)
    | false =>
      exact .inl ⟨_, _, rfl, .grown (by simp) rfl (alloc_obsoletedTs _ _ _ _) rfl⟩
  · by_cases hold : b.heap.checkpointTs old = ts
    · simp only [hold, if_true]
      exact .inl ⟨_, _, rfl, .kept rfl hold rfl⟩
    · simp only [hold, if_false]
      cases hf : faults.page b.heap.next with
      | true => exact .inr (.inl ⟨_, rfl⟩)
      | false =>
        cases old with
        | zero =>
          exact .inl ⟨_, _, rfl, .grown (by simp) rfl (alloc_obsoletedTs _ _ _ _) rfl⟩
        | page c =>
          cases hp : faults.push b.heap.next with
          | true => exact .inr (.inr ⟨c, rfl, _, rfl⟩)
          | false =>
            refine .inl ⟨_, _, rfl, .copied rfl hold rfl (fun id => ?_) rfl⟩
            refine (stamp_obsoletedTs ⟨b.heap.alloc ts level (b.heap.mem (.page c)), b.root,
              b.obsoletedPages⟩ c ts id).trans ?_
            rw [alloc_obsoletedTs]

/-! ### The books -/

/-- Page `id` is at the end of `ρ`. -/
def At (h : Heap) (root : Option Ref) (ρ : List ℕ) (id : ℕ) : Prop :=
  follow h.child root ρ = some (.page id)

/-- Every page of a tree is at one place. -/
def Sole (h : Heap) (root : Option Ref) : Prop :=
  ∀ ρ ρ' id, At h root ρ id → At h root ρ' id → ρ = ρ'

/-- The path of a change. -/
def entPath (ent : WsEntry) : List ℕ := pathOf ent.ino ent.fileOffset

/-- Page `id` of a tree is on the path of one of these changes. -/
def OnPath (h : Heap) (root : Option Ref) (ents : List WsEntry) (id : ℕ) : Prop :=
  ∃ ent ∈ ents, ∃ ρ, ρ <+: entPath ent ∧ At h root ρ id

/-- The stamps of an attempt, successful or not. -/
def Stamps (n₀ ts : ℕ) (h₀ : Heap) (r₀ : Option Ref) (ents : List WsEntry) (h : Heap) : Prop :=
  ∀ id < n₀, h.obsoletedTs id = h₀.obsoletedTs id ∨
    (h.obsoletedTs id = (ts : Ts) ∧ OnPath h₀ r₀ ents id)

/-- The books of an attempt that has come to these changes. -/
structure Ledger (n₀ ts : ℕ) (h₀ : Heap) (r₀ : Option Ref) (ents : List WsEntry) (b : Build) :
    Prop where
  /-- An older page is where it was. -/
  old : ∀ ρ id, id < n₀ → At b.heap b.root ρ id → At h₀ r₀ ρ id
  mem : ∀ id, id ∈ b.obsoletedPages ↔ ∃ ρ, At h₀ r₀ ρ id ∧ ¬At b.heap b.root ρ id
  nodup : b.obsoletedPages.Nodup
  onPath : ∀ id ∈ b.obsoletedPages, OnPath h₀ r₀ ents id
  stamped : ∀ id < n₀, b.heap.obsoletedTs id =
    if id ∈ b.obsoletedPages then (ts : Ts) else h₀.obsoletedTs id
  own : ∀ id, n₀ ≤ id → id < b.heap.next → b.heap.obsoletedTs id = invalidTs
  /-- A zero page is where it was, unless it is on the path of a change. -/
  zeros : ∀ ρ l, follow h₀.child r₀ ρ = some (.zero l) → (∀ ent ∈ ents, ¬ρ <+: entPath ent) →
    follow b.heap.child b.root ρ = some (.zero l)

/-- Every page on the path is new. -/
def Covered (n₀ : ℕ) (b : Build) (path : List ℕ) : Prop :=
  ∀ ρ, ρ <+: path → ∃ id, n₀ ≤ id ∧ At b.heap b.root ρ id

/-- More changes have more paths. -/
theorem OnPath.mono {h : Heap} {root : Option Ref} {ents ents' : List WsEntry} {id : ℕ}
    (hon : OnPath h root ents id) (hsub : ∀ ent ∈ ents, ent ∈ ents') : OnPath h root ents' id := by
  obtain ⟨ent, hent, hρ⟩ := hon
  exact ⟨ent, hsub ent hent, hρ⟩

section Books

variable {n₀ ts level : ℕ} {past : ℕ → Prop} {label label' : Ref → List ℕ} {b b' : Build}
  {slot : Slot} {π : List ℕ} {h₀ : Heap} {r₀ : Option Ref} {ents ents' : List WsEntry}

/-- So stamps that are justified stay so. -/
theorem Stamps.mono {h : Heap} (hst : Stamps n₀ ts h₀ r₀ ents h)
    (hsub : ∀ ent ∈ ents, ent ∈ ents') : Stamps n₀ ts h₀ r₀ ents' h := fun id hid =>
  (hst id hid).imp_right fun ⟨hts, hon⟩ => ⟨hts, hon.mono hsub⟩

/-- And so does the ledger. -/
theorem Ledger.mono (hl : Ledger n₀ ts h₀ r₀ ents b) (hsub : ∀ ent ∈ ents, ent ∈ ents') :
    Ledger n₀ ts h₀ r₀ ents' b :=
  ⟨hl.old, hl.mem, hl.nodup, fun id hid => (hl.onPath id hid).mono hsub, hl.stamped, hl.own,
    fun ρ l hρ hno => hl.zeros ρ l hρ fun ent hent => hno ent (hsub ent hent)⟩

/-- The books say what is stamped. -/
theorem Ledger.stamps (hl : Ledger n₀ ts h₀ r₀ ents b) : Stamps n₀ ts h₀ r₀ ents b.heap := by
  intro id hid
  rw [hl.stamped id hid]
  split_ifs with hmem
  · exact .inr ⟨rfl, hl.onPath id hmem⟩
  · exact .inl rfl

/-- Where the pages are after a turn of the loop. -/
theorem Placed.at_cases {r : Ref} (hp : Placed n₀ ts past level label π slot b b' r) {ρ : List ℕ}
    {id : ℕ} (hρ : ρ ≠ π) : At b'.heap b'.root ρ id ↔ At b.heap b.root ρ id := by
  rcases hp.walk ρ hρ with h | ⟨h, l, h'⟩
  · rw [At, At, h]
  · simp [At, h, h']

/-- New pages stay where they are. -/
theorem Placed.covered {r : Ref} (hp : Placed n₀ ts past level label π slot b b' r)
    {path : List ℕ} (hc : Covered n₀ b path) : Covered n₀ b' path := by
  intro ρ hρ
  by_cases hπ : ρ = π
  · subst hπ
    obtain ⟨id, rfl, hid, -⟩ := hp.page
    exact ⟨id, hid, hp.follow⟩
  · obtain ⟨id, hid, hat⟩ := hc ρ hρ
    exact ⟨id, hid, (hp.at_cases hπ).2 hat⟩

/-- The page at `slot` is at the end of `π`. -/
theorem SlotOk.at_page (hs : SlotOk n₀ label b slot level π) {c : ℕ}
    (hc : b.get slot = some (.page c)) : At b.heap b.root π c := hs.get.trans hc

/-- The tree that an attempt starts from. -/
structure Prior (n₀ : ℕ) (h₀ : Heap) (r₀ : Option Ref) : Prop where
  below : ∀ ρ id, At h₀ r₀ ρ id → id < n₀
  sole : Sole h₀ r₀

/-- What is missing after a turn of the loop. -/
theorem Ledger.missing (hl : Ledger n₀ ts h₀ r₀ ents b) {r : Ref}
    (hp : Placed n₀ ts past level label π slot b b' r) {id : ℕ} (hid : id < n₀) :
    (∃ ρ, At h₀ r₀ ρ id ∧ ¬At b'.heap b'.root ρ id) ↔
      At b.heap b.root π id ∨ ∃ ρ, At h₀ r₀ ρ id ∧ ¬At b.heap b.root ρ id := by
  have hnew : ¬At b'.heap b'.root π id := by
    obtain ⟨n, rfl, hn, -⟩ := hp.page
    intro hat
    obtain rfl : n = id := by simpa using hp.follow.symm.trans hat
    omega
  constructor
  · rintro ⟨ρ, h, hn⟩
    by_cases hρ : ρ = π
    · subst hρ
      by_cases hat : At b.heap b.root ρ id
      · exact .inl hat
      · exact .inr ⟨ρ, h, hat⟩
    · exact .inr ⟨ρ, h, fun hat => hn ((hp.at_cases hρ).2 hat)⟩
  · rintro (hat | ⟨ρ, h, hn⟩)
    · exact ⟨π, hl.old π id hid hat, hnew⟩
    · by_cases hρ : ρ = π
      · subst hρ
        exact ⟨ρ, h, hnew⟩
      · exact ⟨ρ, h, fun hat => hn ((hp.at_cases hρ).1 hat)⟩

/-- A page of the attempt is no older page. -/
theorem Building.own_of_ts (ha : Building n₀ ts past label b) (hs : SlotOk n₀ label b slot level π)
    (hpast : ¬past ts) {r : Ref} (hr : b.get slot = some r) (hts : b.heap.checkpointTs r = ts) :
    Own n₀ r := by
  by_contra hown
  exact hpast (hts ▸ (ha.get_slot hs hr).2.2.2 hown [] r rfl)

/-- An older page that is in the new tree is where it was. -/
theorem Ledger.at_placed (hl : Ledger n₀ ts h₀ r₀ ents b) {r : Ref}
    (hp : Placed n₀ ts past level label' π slot b b' r) {ρ : List ℕ} {id : ℕ} (hid : id < n₀)
    (hat : At b'.heap b'.root ρ id) : At h₀ r₀ ρ id := by
  by_cases hρ : ρ = π
  · subst hρ
    obtain ⟨n, rfl, hn, -⟩ := hp.page
    obtain rfl : n = id := by simpa using hp.follow.symm.trans hat
    exact absurd hid (not_lt.2 hn)
  · exact hl.old ρ id hid ((hp.at_cases hρ).1 hat)

/-- Only older pages are listed. -/
theorem Ledger.below (hl : Ledger n₀ ts h₀ r₀ ents b) (hprior : Prior n₀ h₀ r₀) {id : ℕ}
    (hid : id ∈ b.obsoletedPages) : id < n₀ := by
  obtain ⟨ρ, hat, -⟩ := (hl.mem id).1 hid
  exact hprior.below ρ id hat

/-- Of the older pages, those are missing that were, and the one that was at `slot`. -/
theorem Ledger.mem_placed (hl : Ledger n₀ ts h₀ r₀ ents b) (hprior : Prior n₀ h₀ r₀)
    (hs : SlotOk n₀ label b slot level π) {r : Ref}
    (hp : Placed n₀ ts past level label' π slot b b' r) {ids : List ℕ}
    (hids : ∀ id < n₀, id ∈ ids ↔ b.get slot = some (.page id) ∨ id ∈ b.obsoletedPages)
    (hlt : ∀ id ∈ ids, id < n₀) (id : ℕ) :
    id ∈ ids ↔ ∃ ρ, At h₀ r₀ ρ id ∧ ¬At b'.heap b'.root ρ id := by
  have hmissing : id < n₀ → ((∃ ρ, At h₀ r₀ ρ id ∧ ¬At b'.heap b'.root ρ id) ↔
      b.get slot = some (.page id) ∨ id ∈ b.obsoletedPages) := fun hid => by
    rw [hl.missing hp hid, ← hl.mem id, At, hs.get]
  constructor
  · intro hid
    exact (hmissing (hlt id hid)).2 ((hids id (hlt id hid)).1 hid)
  · rintro ⟨ρ, hat, hn⟩
    have hid := hprior.below ρ id hat
    exact (hids id hid).2 ((hmissing hid).1 ⟨ρ, hat, hn⟩)

/-- A zero page that is not on the path of the change stays where it is. -/
theorem Ledger.zeros_placed (hl : Ledger n₀ ts h₀ r₀ ents b) {r : Ref}
    (hp : Placed n₀ ts past level label' π slot b b' r) {ent : WsEntry} (hent : ent ∈ ents)
    (hpath : π <+: entPath ent) {ρ : List ℕ} {l : ℕ}
    (hρ : follow h₀.child r₀ ρ = some (.zero l)) (hno : ∀ ent ∈ ents, ¬ρ <+: entPath ent) :
    follow b'.heap.child b'.root ρ = some (.zero l) := by
  have hkept := hl.zeros ρ l hρ hno
  rcases hp.walk ρ (fun h => hno ent hent (h ▸ hpath)) with h | ⟨h, -⟩
  · rw [h, hkept]
  · rw [h] at hkept
    simp at hkept

/-- A turn that replaces no older page. -/
theorem Ledger.place_same (hl : Ledger n₀ ts h₀ r₀ ents b) (hprior : Prior n₀ h₀ r₀)
    (hs : SlotOk n₀ label b slot level π) {b₁ : Build} {r : Ref}
    (hp : Placed n₀ ts past level label' π slot b (b₁.put slot r) r)
    {ent : WsEntry} (hent : ent ∈ ents) (hpath : π <+: entPath ent)
    (hnone : ∀ id < n₀, b.get slot ≠ some (.page id))
    (hlist : b₁.obsoletedPages = b.obsoletedPages)
    (hobs : ∀ id < n₀, b₁.heap.obsoletedTs id = b.heap.obsoletedTs id)
    (hown : ∀ id, n₀ ≤ id → id < b₁.heap.next → b₁.heap.obsoletedTs id = invalidTs) :
    Ledger n₀ ts h₀ r₀ ents (b₁.put slot r) := by
  have hlist' : (b₁.put slot r).obsoletedPages = b.obsoletedPages := by
    rw [put_obsoletedPages, hlist]
  refine ⟨fun ρ id hid hat => hl.at_placed hp hid hat, ?_, ?_, fun id hid => ?_, fun id hid => ?_,
    fun id hid hlt => ?_, fun ρ l => hl.zeros_placed hp hent hpath⟩
  · rw [hlist']
    exact hl.mem_placed hprior hs hp (fun id hid => by rw [or_iff_right (hnone id hid)])
      fun id hid => hl.below hprior hid
  · rw [hlist']
    exact hl.nodup
  · rw [hlist'] at hid
    exact hl.onPath id hid
  · rw [put_obsoletedTs, hlist', hobs id hid]
    exact hl.stamped id hid
  · rw [put_next] at hlt
    rw [put_obsoletedTs]
    exact hown id hid hlt

/-- A turn that copies page `c`. -/
theorem Ledger.place_copied (hl : Ledger n₀ ts h₀ r₀ ents b) (hprior : Prior n₀ h₀ r₀)
    (hle : n₀ ≤ b.heap.next) (hs : SlotOk n₀ label b slot level π) {b₁ : Build} {r : Ref}
    (hp : Placed n₀ ts past level label' π slot b (b₁.put slot r) r)
    {ent : WsEntry} (hent : ent ∈ ents) (hpath : π <+: entPath ent) {c : ℕ} (hcold : c < n₀)
    (hc : b.get slot = some (.page c)) (hlist : b₁.obsoletedPages = c :: b.obsoletedPages)
    (hobs : ∀ id, b₁.heap.obsoletedTs id = if id = c then (ts : Ts)
      else if id = b.heap.next then invalidTs else b.heap.obsoletedTs id)
    (hnext : b₁.heap.next = b.heap.next + 1) :
    Ledger n₀ ts h₀ r₀ ents (b₁.put slot r) := by
  have hat : At h₀ r₀ π c := hl.old π c hcold (hs.at_page hc)
  have hcnew : c ∉ b.obsoletedPages := by
    intro hmem
    obtain ⟨ρ, hρ, hn⟩ := (hl.mem c).1 hmem
    obtain rfl := hprior.sole ρ π c hρ hat
    exact hn (hs.at_page hc)
  have hlist' : (b₁.put slot r).obsoletedPages = c :: b.obsoletedPages := by
    rw [put_obsoletedPages, hlist]
  refine ⟨fun ρ id hid hat => hl.at_placed hp hid hat, ?_, ?_, fun id hid => ?_, fun id hid => ?_,
    fun id hid hlt => ?_, fun ρ l => hl.zeros_placed hp hent hpath⟩
  · rw [hlist']
    refine hl.mem_placed hprior hs hp (fun id hid => ?_) fun id hid => ?_
    · rw [List.mem_cons, hc]
      simp only [Option.some.injEq, Ref.page.injEq, eq_comm]
    · rcases List.mem_cons.1 hid with rfl | hid
      · exact hcold
      · exact hl.below hprior hid
  · rw [hlist', List.nodup_cons]
    exact ⟨hcnew, hl.nodup⟩
  · rw [hlist', List.mem_cons] at hid
    rcases hid with rfl | hid
    · exact ⟨ent, hent, π, hpath, hat⟩
    · exact hl.onPath id hid
  · rw [put_obsoletedTs, hlist', hobs]
    by_cases hidc : id = c
    · rw [if_pos hidc, if_pos (by simp [hidc])]
    · rw [if_neg hidc, if_neg (by omega), hl.stamped id hid]
      simp only [List.mem_cons, hidc, false_or]
  · rw [put_next] at hlt
    rw [put_obsoletedTs, hobs, if_neg (by omega)]
    split_ifs with h
    · rfl
    · exact hl.own id hid (by omega)

/-- **A turn of the loop keeps the books.** -/
theorem Ledger.place (hl : Ledger n₀ ts h₀ r₀ ents b) (hprior : Prior n₀ h₀ r₀) (hpast : ¬past ts)
    (ha : Building n₀ ts past label b) (hs : SlotOk n₀ label b slot level π) {b₁ : Build} {r : Ref}
    (hcow : Cows ts (b.get slot) b b₁)
    (hp : Placed n₀ ts past level label' π slot b (b₁.put slot r) r)
    {ent : WsEntry} (hent : ent ∈ ents) (hpath : π <+: entPath ent) :
    Ledger n₀ ts h₀ r₀ ents (b₁.put slot r) := by
  have hle := ha.le
  rcases hcow with @⟨r', hr', hts, rfl⟩ | ⟨hnone, hlist, hobs, hnext⟩ |
    @⟨c, hc, hts, hlist, hobs, hnext⟩
  · refine hl.place_same hprior hs hp hent hpath (fun id hid h => ?_) rfl (fun _ _ => rfl) hl.own
    obtain rfl := Option.some.inj (hr'.symm.trans h)
    exact absurd (ha.own_of_ts hs hpast hr' hts) (not_le.2 hid)
  · refine hl.place_same hprior hs hp hent hpath (fun id _ => hnone id) hlist (fun id hid => ?_)
      fun id hid hlt => ?_
    · rw [hobs, if_neg (by omega)]
    · rw [hobs]
      split_ifs with h
      · rfl
      · exact hl.own id hid (by omega)
  · refine hl.place_copied hprior hle hs hp hent hpath ?_ hc hlist hobs hnext
    by_contra hge
    exact hts (ha.own_ts c (not_lt.1 hge) (ha.get_slot hs hc).1)

/-- The books do not care for words. -/
theorem Ledger.congr (hl : Ledger n₀ ts h₀ r₀ ents b) (hchild : b'.heap.child = b.heap.child)
    (hroot : b'.root = b.root) (hlist : b'.obsoletedPages = b.obsoletedPages)
    (hobs : ∀ id, b'.heap.obsoletedTs id = b.heap.obsoletedTs id)
    (hnext : b'.heap.next = b.heap.next) : Ledger n₀ ts h₀ r₀ ents b' := by
  have hat : ∀ ρ id, At b'.heap b'.root ρ id ↔ At b.heap b.root ρ id := fun ρ id => by
    rw [At, At, hchild, hroot]
  refine ⟨fun ρ id hid h => hl.old ρ id hid ((hat ρ id).1 h), fun id => ?_, ?_, ?_,
    fun id hid => ?_,
    fun id hid hlt => ?_, fun ρ l hρ hno => ?_⟩
  · simp only [hlist, hat]
    exact hl.mem id
  · rw [hlist]
    exact hl.nodup
  · rw [hlist]
    exact hl.onPath
  · rw [hobs, hlist]
    exact hl.stamped id hid
  · rw [hobs]
    exact hl.own id hid (hnext ▸ hlt)
  · rw [hchild, hroot]
    exact hl.zeros ρ l hρ hno

/-- **What no change is made to is where it was.** -/
theorem Ledger.kept (hl : Ledger n₀ ts h₀ r₀ ents b) (hprior : Prior n₀ h₀ r₀)
    {ρ : List ℕ} {x : Ref}
    (hx : follow h₀.child r₀ ρ = some x) (hno : ∀ ent ∈ ents, ¬ρ <+: entPath ent) :
    follow b.heap.child b.root ρ = some x := by
  cases x with
  | zero l => exact hl.zeros ρ l hx hno
  | page id =>
    by_contra hgone
    have hmem : id ∈ b.obsoletedPages := (hl.mem id).2 ⟨ρ, hx, hgone⟩
    obtain ⟨ent, hent, ρ', hpre, hat⟩ := hl.onPath id hmem
    obtain rfl := hprior.sole ρ' ρ id hat hx
    exact hno ent hent hpre

/-- Stores to leaves cover nothing up. -/
theorem Covered.congr {path : List ℕ} (hc : Covered n₀ b path)
    (hchild : b'.heap.child = b.heap.child) (hroot : b'.root = b.root) : Covered n₀ b' path := by
  intro ρ hρ
  obtain ⟨id, hid, hat⟩ := hc ρ hρ
  exact ⟨id, hid, by rw [At, hchild, hroot]; exact hat⟩

/-- A stamp on the path of a change that has come to nothing. -/
theorem Ledger.stamp (hl : Ledger n₀ ts h₀ r₀ ents b) (hs : SlotOk n₀ label b slot level π) {c : ℕ}
    (hc : b.get slot = some (.page c)) {ent : WsEntry} (hent : ent ∈ ents)
    (hpath : π <+: entPath ent) : Stamps n₀ ts h₀ r₀ ents (b.stamp c ts).heap := by
  intro id hid
  rw [stamp_obsoletedTs]
  split_ifs with h
  · subst h
    exact .inr ⟨rfl, ent, hent, π, hpath, hl.old π id hid (hs.at_page hc)⟩
  · exact hl.stamps id hid

/-- The state of an attempt that has applied these changes. -/
structure Applied (n₀ ts : ℕ) (past : ℕ → Prop) (h₀ : Heap) (r₀ : Option Ref)
    (ents : List WsEntry) (b : Build) : Prop where
  building : ∃ label, Building n₀ ts past label b
  ledger : Ledger n₀ ts h₀ r₀ ents b
  covered : ∀ ent ∈ ents, Covered n₀ b (entPath ent)
  inRange : ∀ ent ∈ ents, InRange ent.ino ent.fileOffset

/-- How a step of an attempt may end, for the books. -/
def Settles (n₀ ts : ℕ) (past : ℕ → Prop) (h₀ : Heap) (r₀ : Option Ref) (ents : List WsEntry) :
    Build × Except Errno Unit → Prop
  | (b, .error _) => Stamps n₀ ts h₀ r₀ ents b.heap
  | (b, .ok ()) => Applied n₀ ts past h₀ r₀ ents b

/-- The proper initial segments of `π` are new. -/
def CoveredTo (n₀ : ℕ) (b : Build) (π : List ℕ) : Prop :=
  ∀ ρ, ρ <+: π → ρ ≠ π → ∃ id, n₀ ≤ id ∧ At b.heap b.root ρ id

/-- The page that is put at the end of `π` completes the path so far. -/
theorem Placed.coveredTo {r : Ref} (hp : Placed n₀ ts past level label π slot b b' r)
    (hc : CoveredTo n₀ b π) : Covered n₀ b' π := by
  obtain ⟨n, rfl, hn, -⟩ := hp.page
  intro ρ hρ
  by_cases hπ : ρ = π
  · subst hπ
    exact ⟨n, hn, hp.follow⟩
  · obtain ⟨id, hid, hat⟩ := hc ρ hρ hπ
    exact ⟨id, hid, (hp.at_cases hπ).2 hat⟩

/-- A path that is covered is covered up to its last turn. -/
theorem Covered.coveredTo {o : ℕ} (hc : Covered n₀ b π) : CoveredTo n₀ b (π ++ [o]) := by
  intro ρ hρ hne
  refine hc ρ ?_
  rcases List.prefix_concat_iff.1 hρ with h | h
  · exact absurd h hne
  · exact h

/-- **The loop of `sivfs_apply_change_checkpoint` keeps the books**, whether it
succeeds or not. -/
theorem applyLoop_ledger (h0 : past 0) (hpast : ¬past ts) (hprior : Prior n₀ h₀ r₀)
    (faults : Faults) {ent : WsEntry} (hent : ent ∈ ents) (offsets : List ℕ) :
    ∀ {b : Build} {label : Ref → List ℕ} {slot : Slot} {π : List ℕ},
      Building n₀ ts past label b → SlotOk n₀ label b slot offsets.length π →
      Ledger n₀ ts h₀ r₀ ents b → CoveredTo n₀ b π → π ++ offsets = entPath ent →
      match applyLoop faults ts ent offsets b slot with
      | (b', .error _) => Stamps n₀ ts h₀ r₀ ents b'.heap
      | (b', .ok ()) => Ledger n₀ ts h₀ r₀ ents b' ∧ Covered n₀ b' (entPath ent) ∧
        ∀ path, Covered n₀ b path → Covered n₀ b' path := by
  induction offsets with
  | nil =>
    intro b label slot π ha hs hl hc hpath
    rw [List.append_nil] at hpath
    subst hpath
    have hspec := cowPage_spec ha hs h0 hpast faults
    rw [List.length_nil] at hspec
    unfold applyLoop
    rcases cowPage_cases b faults ts 0 slot with ⟨b₁, r, hcow, hcows⟩ | ⟨e, hcow⟩ |
      ⟨c, hget, e, hcow⟩
    · simp only [hcow] at hspec ⊢
      obtain ⟨label', hp⟩ := hspec
      have hl' := hl.place hprior hpast ha hs hcows hp hent (List.prefix_refl _)
      have hchild := hp.write_child ent
      have hroot := applyWsEnt_root (b₁.put slot r) r ent
      rw [applyWsEnt_put hp.slot_ne]
      exact ⟨hl'.congr hchild hroot (applyWsEnt_obsoletedPages _ _ _)
        (applyWsEnt_obsoletedTs _ _ _) (applyWsEnt_next _ _ _),
        (hp.coveredTo hc).congr hchild hroot,
        fun path hcov => (hp.covered hcov).congr hchild hroot⟩
    · simp only [hcow]
      exact hl.stamps
    · simp only [hcow]
      exact hl.stamp hs hget hent (List.prefix_refl _)
  | cons offset offsets ih =>
    intro b label slot π ha hs hl hc hpath
    have hπ : π <+: entPath ent := ⟨_, hpath⟩
    have hspec := cowPage_spec ha hs h0 hpast faults
    rw [List.length_cons] at hspec
    unfold applyLoop
    rcases cowPage_cases b faults ts (offsets.length + 1) slot with ⟨b₁, r, hcow, hcows⟩ |
      ⟨e, hcow⟩ | ⟨c, hget, e, hcow⟩
    · simp only [hcow] at hspec ⊢
      obtain ⟨label', hp⟩ := hspec
      have hl' := hl.place hprior hpast ha hs hcows hp hent hπ
      have hrest := ih hp.building hp.slotOk hl' (hp.coveredTo hc).coveredTo (by simpa using hpath)
      rcases hloop : applyLoop faults ts ent offsets (b₁.put slot r) (.ent r offset) with
        ⟨b', e | ⟨⟩⟩
      · simp only [hloop] at hrest ⊢
        exact hrest
      · simp only [hloop] at hrest ⊢
        exact ⟨hrest.1, hrest.2.1, fun path hcov => hrest.2.2 path (hp.covered hcov)⟩
    · simp only [hcow]
      exact hl.stamps
    · simp only [hcow]
      exact hl.stamp hs hget hent hπ

/-! ### Changes, write-sets and the log -/

/-- **One change.** -/
theorem applyChange_settles (h0 : past 0) (hpast : ¬past ts) (hprior : Prior n₀ h₀ r₀)
    (faults : Faults) (ha : Applied n₀ ts past h₀ r₀ ents b) (ent : WsEntry) :
    Settles n₀ ts past h₀ r₀ (ents ++ [ent]) (applyChangeCheckpoint faults ts b ent) := by
  obtain ⟨⟨label, hb⟩, hl, hc, hr⟩ := ha
  have hl' : Ledger n₀ ts h₀ r₀ (ents ++ [ent]) b := hl.mono fun x hx => List.mem_append_left _ hx
  obtain ⟨label', hb', -, -⟩ := applyChange_building h0 hpast faults hb ent
  have hnone : CoveredTo n₀ b [] := fun ρ hρ hne => absurd (List.prefix_nil.1 hρ) hne
  have hmem : ent ∈ ents ++ [ent] := by simp
  rw [applyChangeCheckpoint, checkpointIterInit_eq] at hb' ⊢
  split_ifs at hb' ⊢ with hin
  · have hloop := applyLoop_ledger h0 hpast hprior faults hmem (entPath ent) hb
      (slotOk_root label b _ _) hl' hnone rfl
    simp only [entPath] at hloop
    rcases hres : applyLoop faults ts ent (pathOf ent.ino ent.fileOffset) b .root with ⟨b', e | ⟨⟩⟩
    · simp only [hres] at hloop ⊢
      exact hloop
    · simp only [hres] at hloop hb' ⊢
      refine ⟨⟨label', hb'⟩, hloop.1, fun x hx => ?_, fun x hx => ?_⟩
      · rcases List.mem_append.1 hx with hx | hx
        · exact hloop.2.2 _ (hc x hx)
        · obtain rfl := List.mem_singleton.1 hx
          exact hloop.2.1
      · rcases List.mem_append.1 hx with hx | hx
        · exact hr x hx
        · obtain rfl := List.mem_singleton.1 hx
          exact hin
  · exact hl'.stamps

/-- **One write-set.** -/
theorem applyWriteset_settles (h0 : past 0) (hpast : ¬past ts) (hprior : Prior n₀ h₀ r₀)
    (faults : Faults) (ws : List WsEntry) :
    ∀ {b : Build} {ents : List WsEntry}, Applied n₀ ts past h₀ r₀ ents b →
      Settles n₀ ts past h₀ r₀ (ents ++ ws) (applyWriteset faults ts ws b) := by
  induction ws with
  | nil =>
    intro b ents ha
    rw [List.append_nil]
    exact ha
  | cons ent ws ih =>
    intro b ents ha
    rw [applyWriteset]
    rcases headInfo ent ws with e | info
    · exact Stamps.mono ha.ledger.stamps fun x hx => List.mem_append_left _ hx
    have hone := applyChange_settles h0 hpast hprior faults ha ent
    rcases hres : applyChangeCheckpoint faults ts b ent with ⟨b', e | ⟨⟩⟩
    · rw [hres] at hone
      refine Stamps.mono hone fun x hx => ?_
      rcases List.mem_append.1 hx with hx | hx
      · exact List.mem_append_left _ hx
      · exact List.mem_append_right _ (List.mem_singleton.1 hx ▸ List.mem_cons_self)
    · rw [hres] at hone
      have hrest := ih hone
      rw [List.append_assoc] at hrest
      exact hrest

/-- **One commit.** -/
theorem applyLogEntry_settles (h0 : past 0) (hpast : ¬past ts) (hprior : Prior n₀ h₀ r₀)
    (faults : Faults) (ha : Applied n₀ ts past h₀ r₀ ents b) (l : LogEntry) :
    Settles n₀ ts past h₀ r₀ (ents ++ liveEntries [l]) (applyLogEntry faults ts l b) := by
  rw [applyLogEntry]
  cases hab : l.aborted with
  | true =>
    show Applied n₀ ts past h₀ r₀ (ents ++ liveEntries [l]) b
    simpa [liveEntries, hab] using ha
  | false =>
    have hws := applyWriteset_settles h0 hpast hprior faults l.ws ha
    simpa [liveEntries, hab] using hws

/-- **The log of an attempt.** -/
theorem applyLogEntries_settles (h0 : past 0) (hpast : ¬past ts) (hprior : Prior n₀ h₀ r₀)
    (faults : Faults) (log : List LogEntry) :
    ∀ {b : Build} {ents : List WsEntry}, Applied n₀ ts past h₀ r₀ ents b →
      Settles n₀ ts past h₀ r₀ (ents ++ liveEntries log) (applyLogEntries faults ts log b) := by
  induction log with
  | nil =>
    intro b ents ha
    show Applied n₀ ts past h₀ r₀ (ents ++ []) b
    rwa [List.append_nil]
  | cons l rest ih =>
    intro b ents ha
    have hone := applyLogEntry_settles h0 hpast hprior faults ha l
    rw [liveEntries_cons, ← List.append_assoc, applyLogEntries]
    rcases hres : applyLogEntry faults ts l b with ⟨b', e | ⟨⟩⟩
    · rw [hres] at hone
      exact Stamps.mono hone fun ent hent => List.mem_append_left _ hent
    · rw [hres] at hone
      exact ih hone

end Books

/-- Nothing is replaced when an attempt starts. -/
theorem Ledger.start (h₀ : Heap) (r₀ : Option Ref) (ts : ℕ) :
    Ledger h₀.next ts h₀ r₀ [] ⟨h₀, r₀, []⟩ := by
  refine ⟨fun ρ id _ hat => hat, fun id => ?_, List.nodup_nil, ?_, fun id _ => ?_,
    fun id hid hlt => absurd hlt (not_lt.2 hid), fun ρ l hρ _ => hρ⟩
  · simp
  · simp
  · simp

/-- **The books of `_sivfs_make_checkpoint`.** -/
theorem SharedOk.applyLog_settles {s : Shared} (h : SharedOk s) (hne : s.masterTs ≠ s.latest.cpTs)
    (hprior : Prior s.heap.next s.heap s.latest.root) (faults : Faults) :
    Settles s.heap.next s.masterTs (· < s.masterTs) s.heap s.latest.root
      (liveEntries (s.log.drop s.latest.cpTs))
      (applyLog faults s.log s.latest.cpTs s.masterTs ⟨s.heap, s.latest.root, []⟩) := by
  have hlt : s.latest.cpTs < s.masterTs := lt_of_le_of_ne h.latest.le (Ne.symm hne)
  have hstart : Applied s.heap.next s.masterTs (· < s.masterTs) s.heap s.latest.root []
      ⟨s.heap, s.latest.root, []⟩ :=
    ⟨⟨_, (h.attempt hne).building⟩, .start _ _ _, by simp, by simp⟩
  have hlog : upTo s.masterTs (tsToLogEntry s.log (s.latest.cpTs + 1)) =
      s.log.drop s.latest.cpTs := by
    have hlen := h.masterTs
    rw [h.log.tsToLogEntry_eq (Nat.le_add_left 1 s.latest.cpTs), Nat.add_sub_cancel,
      (h.log.drop _).upTo_eq]
    refine List.take_of_length_le ?_
    rw [List.length_drop]
    omega
  rw [h.applyLog_eq hne, hlog]
  exact @applyLogEntries_settles _ s.masterTs (· < s.masterTs) _ _ (Nat.zero_lt_of_lt hlt)
    (lt_irrefl _) hprior faults _ _ [] hstart

end Checkpoint
end Sivfs
