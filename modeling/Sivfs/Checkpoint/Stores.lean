/-
# Pages that stay what they are

The steps of direct access leave the pages that are there at their levels and timestamps
(`Grows`): an attempt to make a checkpoint works on new pages (`makeCheckpoint_made`), a page
is prepared in place where nothing was read, and a store changes one word of a leaf.

A checkpoint leads to no page that is younger than it (`RootOk.ts_follow`), so a store to a
page changes what is read in an older checkpoint only if the page is as old as it
(`storeWord_read`).
-/

import Sivfs.Checkpoint.Prepare

open PathCopy

namespace Sivfs
namespace Checkpoint

/-! ### Pages stay what they are -/

/-- The pages that were there keep their levels and timestamps. -/
structure Grows (h h' : Heap) : Prop where
  next_le : h.next ≤ h'.next
  level_eq : ∀ r, Valid h.next r → h'.level r = h.level r
  ts_eq : ∀ r, Valid h.next r → h'.checkpointTs r = h.checkpointTs r

/-- What is frozen grows. -/
theorem Frozen.grows {h h' : Heap} (hf : Frozen h.next h h') : Grows h h' := by
  refine ⟨hf.next_le, fun r hr => ?_, fun r hr => ?_⟩
  · cases r with
    | zero => rfl
    | page id => exact hf.level id hr
  · cases r with
    | zero => rfl
    | page id => exact hf.checkpointTs id hr

/-- A table that is patched in place keeps its level and its timestamp. -/
theorem Patched.grows {t : ℕ} {b b' : Build} (h : Patched t b b') : Grows b.heap b'.heap :=
  ⟨h.next_le, h.level_eq, h.ts_eq⟩

/-- A root stays one while the heap grows. -/
theorem RootOk.grows {h h' : Heap} {t : ℕ} {root : Option Ref} (hroot : RootOk h t root)
    (hg : Grows h h') : RootOk h' t root := by
  intro r hr
  obtain ⟨hv, hl, ht⟩ := hroot r hr
  exact ⟨hv.mono hg.next_le, (hg.level_eq r hv).trans hl, (hg.ts_eq r hv).trans_le ht⟩

/-- No page on the way is younger. -/
theorem HeapOk.ts_follow {h : Heap} (hok : HeapOk h) (ρ : List ℕ) :
    ∀ {r x : Ref}, follow h.child (some r) ρ = some x → h.checkpointTs x ≤ h.checkpointTs r := by
  induction ρ with
  | nil =>
    intro r x hx
    obtain rfl : r = x := by simpa using hx
    rfl
  | cons k ρ ih =>
    intro r x hx
    rw [follow_cons] at hx
    rcases hc : h.child r k with _ | c
    · simp [hc] at hx
    · rw [hc] at hx
      exact (ih hx).trans (hok.mono r k c hc)

/-- **A checkpoint leads to no page that is younger than it.** -/
theorem RootOk.ts_follow {h : Heap} (hok : HeapOk h) {t : ℕ} {root : Option Ref}
    (hroot : RootOk h t root) {ρ : List ℕ} {x : Ref} (hx : follow h.child root ρ = some x) :
    h.checkpointTs x ≤ t := by
  cases root with
  | none => simp at hx
  | some r => exact (hok.ts_follow ρ hx).trans (hroot r rfl).2.2

/-- What an attempt to make a checkpoint does to the pages. -/
structure Made (h h' : Heap) : Prop where
  ok : HeapOk h'
  frozen : Frozen h.next h h'
  /-- New pages are not of time `0`. -/
  fresh : ∀ id, h.next ≤ id → id < h'.next → (h'.page id).checkpointTs ≠ 0

/-- Nothing has been made yet. -/
theorem Made.refl {h : Heap} (hok : HeapOk h) : Made h h :=
  ⟨hok, .refl _ _, fun _ hid hlt => absurd hlt (not_lt.2 hid)⟩

/-- **An attempt to make a checkpoint**, whatever the latest checkpoint shows. -/
theorem makeCheckpoint_made {s : Shared} (hlog : Consecutive 1 s.log)
    (hlen : s.masterTs = s.log.length) (hok : HeapOk s.heap)
    (hroot : RootOk s.heap s.latest.cpTs s.latest.root) (hle : s.latest.cpTs ≤ s.masterTs)
    (faults : MakeFaults) :
    Made s.heap (makeCheckpoint faults s).1.heap ∧
      ((makeCheckpoint faults s).2 = .ok true → s.latest.cpTs < s.masterTs ∧
        (makeCheckpoint faults s).1.latest.cpTs = s.masterTs ∧
        RootOk (makeCheckpoint faults s).1.heap s.masterTs
          (makeCheckpoint faults s).1.latest.root) := by
  have hoom : ∀ e, suppressOom e ≠ .ok true := fun e => by cases e <;> simp [suppressOom]
  rw [makeCheckpoint]
  split_ifs with heq
  · exact ⟨.refl hok, by simp⟩
  · have hlt : s.latest.cpTs < s.masterTs := lt_of_le_of_ne hle (Ne.symm heq)
    cases faults.setup with
    | some e => exact ⟨.refl hok, fun h => absurd h (hoom e)⟩
    | none =>
      have hstart := attempt_start hok hroot hlt
      have hpos : 0 < s.masterTs := by omega
      obtain ⟨label, hb, hf⟩ := @applyLogEntries_building _ _ faults.pages (· < s.masterTs) hpos
        (lt_irrefl s.masterTs) (upTo s.masterTs (tsToLogEntry s.log (s.latest.cpTs + 1))) _ _
        hstart.building
      rw [← applyLog_eq_entries hlog hlen hlt] at hb hf
      rcases hres : applyLog faults.pages s.log s.latest.cpTs s.masterTs
        ⟨s.heap, s.latest.root, []⟩ with ⟨b, res⟩
      rw [hres] at hb hf
      have hmade : Made s.heap b.heap := ⟨hb.heapOk hstart hf, hf, fun id hid hlt' => by
        rw [hb.own_ts id hid hlt']
        omega⟩
      cases res with
      | error e => exact ⟨hmade, fun h => absurd h (hoom e)⟩
      | ok =>
        cases faults.insert with
        | some e => exact ⟨hmade, fun h => absurd h (hoom e)⟩
        | none =>
          cases faults.mark with
          | some e => exact ⟨hmade, fun h => absurd h (hoom e)⟩
          | none =>
            refine ⟨hmade, fun _ => ⟨hlt, rfl, fun r hr => ?_⟩⟩
            obtain ⟨hv, hl⟩ := hb.root_ok r hr
            refine ⟨hv, hl, ?_⟩
            rcases Classical.em (Own s.heap.next r) with hown | hown
            · cases r with
              | zero => exact absurd hown id
              | page id => exact (hb.own_ts id hown hv).le
            · exact (hb.dated r hown (.inl hr) [] r rfl).le

/-! ### Stores -/

/-- The word of a leaf is written. -/
def Page.storeWord (word value : ℕ) (pg : Page) : Page :=
  { pg with mem := .leaf (Function.update pg.mem.words word value) }

section Stores

variable {h : Heap} {id : ℕ} (word value : ℕ)

/-- A leaf has no entries, before and after. -/
theorem storeWord_child (hok : HeapOk h) (hl : (h.page id).level = 0) :
    (h.modify id (.storeWord word value)).child = h.child := by
  funext r k
  rw [Heap.child, modify_mem]
  split_ifs with hr
  · obtain rfl := hr
    rcases hc : h.child (.page id) k with _ | c
    · rfl
    · have hlevel : h.level c + 1 = (h.page id).level := hok.level _ k c hc
      omega
  · rfl

/-- A store to a data word changes no level. -/
theorem storeWord_level (r : Ref) : (h.modify id (.storeWord word value)).level r = h.level r :=
  modify_level h id _ rfl r

/-- Nor a timestamp. -/
theorem storeWord_ts (r : Ref) :
    (h.modify id (.storeWord word value)).checkpointTs r = h.checkpointTs r :=
  modify_checkpointTs h id _ rfl r

/-- A leaf has no entries, so its words are free to change. -/
theorem HeapOk.storeWord (hok : HeapOk h) (hl : (h.page id).level = 0) :
    HeapOk (h.modify id (.storeWord word value)) := by
  have hchild := storeWord_child word value hok hl
  refine ⟨⟨fun j hj k => ?_, fun r k j hc => ?_, fun r hr => ?_, fun r k c hc => ?_⟩,
    fun r k c hc => ?_⟩
  · rw [hchild]
    exact hok.fresh j hj k
  · rw [hchild] at hc
    exact hok.bound r k j hc
  · rw [storeWord_level] at hr
    have hne : r ≠ .page id := by
      rintro rfl
      exact hr.ne' hl
    rw [← hok.words r hr, Heap.words, Heap.words, modify_mem, if_neg hne]
  · rw [hchild] at hc
    rw [storeWord_level, storeWord_level]
    exact hok.level r k c hc
  · rw [hchild] at hc
    rw [storeWord_ts, storeWord_ts]
    exact hok.mono r k c hc

/-- To the tree, a store is no change at all. -/
theorem storeWord_grows : Grows h (h.modify id (.storeWord word value)) :=
  ⟨le_rfl, fun r _ => storeWord_level word value r, fun r _ => storeWord_ts word value r⟩

/-- A store to a page that is not reached is not read. -/
theorem storeWord_read (hok : HeapOk h) (hl : (h.page id).level = 0) {root : Option Ref}
    (hroot : ∀ ρ, follow h.child root ρ ≠ some (.page id)) (ino off : ℕ) :
    readCheckpoint (h.modify id (.storeWord word value)) root ino off =
      readCheckpoint h root ino off := by
  have hcont : ∀ ρ, (h.modify id (.storeWord word value)).contents root ρ = h.contents root ρ := by
    intro ρ
    rw [Heap.contents, Heap.contents, storeWord_child word value hok hl]
    rcases hf : follow h.child root ρ with _ | r
    · rfl
    · have hne : r ≠ .page id := fun heq => hroot ρ (by rw [hf, heq])
      show ((h.modify id (.storeWord word value)).mem r).words = (h.mem r).words
      rw [modify_mem, if_neg hne]
  simp only [readCheckpoint, hcont]

end Stores

/-! ### The pages of time 0 -/

/-- Where the pages of time `0` are left alone, they stay what they are. -/
theorem InitialOk.grows {h h' : Heap} (hi : InitialOk h) (hg : Grows h h')
    (hchild : ∀ id < h.next, (h.page id).checkpointTs = 0 →
      ∀ k, h'.child (.page id) k = h.child (.page id) k)
    (hnew : ∀ id, h.next ≤ id → id < h'.next → (h'.page id).checkpointTs ≠ 0) : InitialOk h' := by
  intro id hid hts
  rcases Nat.lt_or_ge id h.next with hlt | hge
  · have hl : (h'.page id).level = (h.page id).level := hg.level_eq (.page id) hlt
    have ht : (h'.page id).checkpointTs = (h.page id).checkpointTs := hg.ts_eq (.page id) hlt
    rw [ht] at hts
    obtain ⟨h₁, h₂, h₃⟩ := hi id hlt hts
    rw [hl]
    refine ⟨h₁, fun h4 k => ?_, fun h4 k l => ?_⟩
    · rw [hchild id hlt hts]
      exact h₂ h4 k
    · rw [hchild id hlt hts]
      exact h₃ h4 k l
  · exact absurd hts (hnew id hge hid)

end Checkpoint
end Sivfs
