/-
# Tagging a write-set where it lies

`sivfs_add_metadata_to_changes` over the bytes that the ioctl has copied.  Behind
the tests of `Sivfs.Update.Metadata` the body of the loop looks the page of the
address up in the page tables, to clear its dirty bit:

| the page table of the address | what the body does |
| --- | --- |
| absent | nothing |
| locked for good | spins |
| there, with the page present | takes the lock, clears the bit, gives the lock back |
| there, without the page | takes the lock and keeps it |

In the last case it goes to `done_clear_dirty` past `pte_unmap_unlock`.  Two
writes to pages of one page table that are not mapped in therefore hang the walk.

`parseSafe_iff` is exactly when this walk, and any other over the log, stays in
bounds, ends and reports what is malformed.  If no entry escapes the size check,
the bytes are a list of entries (`LogWriteset.entries`), and the loop over the
bytes does what the loop over the list does (`addMetadataBytes_refines`).
-/

import Sivfs.Update.Metadata

namespace Sivfs
namespace Update

/-! ### The body of the loop -/

/-- The page tables of the caller, as each turn of the loop finds them: faults of
other threads go on meanwhile. -/
structure PageTables where
  /-- `pgd_present`, `pud_present` and `pmd_present`, by turn and address. -/
  table : ℕ → ℕ → Bool
  /-- `pte_present`. -/
  pte : ℕ → ℕ → Bool
  /-- `ptl`: the lock of the page table with the address. -/
  ptl : ℕ → ℕ
  /-- Someone else has taken this lock and does not give it back. -/
  lost : ℕ → ℕ → Bool

/-- The turns so far, and the locks that they have kept. -/
structure TagState where
  turn : ℕ
  held : List ℕ

/-- The page is marked as clean: what the next turn starts from, `none` if the
lock is not to be had. -/
def PageTables.clearDirty (pt : PageTables) (s : TagState) (address : ℕ) : Option TagState :=
  if pt.table s.turn address = false then some ⟨s.turn + 1, s.held⟩
  else if pt.lost s.turn (pt.ptl address) = true ∨ pt.ptl address ∈ s.held then none
  else if pt.pte s.turn address = true then some ⟨s.turn + 1, s.held⟩
  else some ⟨s.turn + 1, pt.ptl address :: s.held⟩

/-- The body of the loop of `sivfs_add_metadata_to_changes`. -/
def tagBody (mm : Mm) (iSize : ℕ → ℕ → ℕ) (pt : PageTables) : LoopBody TagState := fun s ent =>
  match tagEntry mm (iSize s.turn) ent with
  | .tag ino fileOffset =>
    match pt.clearDirty s ent.address with
    | some s => (.tag ino fileOffset, s)
    | none => (.hang, s)
  | r => (r, s)

/-- The loop starts without locks. -/
def tagStart : TagState := ⟨0, []⟩

/-- A turn over one of these entries has kept the lock. -/
def LeftHeld (pt : PageTables) (ents : List WsEntry) (lock : ℕ) : Prop :=
  ∃ k e, ents[k]? = some e ∧ pt.table k e.address = true ∧ pt.pte k e.address = false ∧
    pt.ptl e.address = lock

/-- Behind these entries, the entry waits for a lock that nobody gives back. -/
def Waits (pt : PageTables) (ents : List WsEntry) (ent : WsEntry) : Prop :=
  pt.table ents.length ent.address = true ∧
    (pt.lost ents.length (pt.ptl ent.address) = true ∨ LeftHeld pt ents (pt.ptl ent.address))

/-- At every entry behind whole entries that pass: it does not escape the size
check; if it passes, it does not wait; and if it overruns, all of the bytes split
into entries. -/
def TagSafe (mm : Mm) (iSize : ℕ → ℕ → ℕ) (pt : PageTables) (b : Buffer) (size : ℕ) : Prop :=
  ∀ ents off, Splits b 0 ents off → AllPass mm iSize ents → off < size →
    ¬Slip b off (size - off) ∧
      (EntryFits b off (size - off) →
        (Passes mm (iSize ents.length) (entryAt b off) → ¬Waits pt ents (entryAt b off)) ∧
          (Overruns mm (iSize ents.length) (entryAt b off) → ∃ ents, Splits b 0 ents size))

theorem allPass_concat {mm : Mm} {iSize : ℕ → ℕ → ℕ} {ents : List WsEntry} {ent : WsEntry} :
    AllPass mm iSize (ents ++ [ent]) ↔
      AllPass mm iSize ents ∧ Passes mm (iSize ents.length) ent := by
  constructor
  · refine fun h => ⟨fun k e he => h k e ?_, h _ ent List.getElem?_concat_length⟩
    rwa [List.getElem?_append_left (List.getElem?_eq_some_iff.1 he).1]
  · rintro ⟨h, hent⟩ k e he
    rcases Nat.lt_trichotomy k ents.length with hlt | rfl | hlt
    · rw [List.getElem?_append_left hlt] at he
      exact h k e he
    · rw [List.getElem?_concat_length] at he
      obtain rfl := Option.some.inj he
      exact hent
    · rw [List.getElem?_eq_none (by rw [List.length_append, List.length_singleton]; omega)] at he
      cases he

theorem leftHeld_concat {pt : PageTables} {ents : List WsEntry} {ent : WsEntry} {lock : ℕ} :
    LeftHeld pt (ents ++ [ent]) lock ↔ LeftHeld pt ents lock ∨
      (pt.table ents.length ent.address = true ∧ pt.pte ents.length ent.address = false ∧
        pt.ptl ent.address = lock) := by
  constructor
  · rintro ⟨k, e, he, h⟩
    rcases Nat.lt_trichotomy k ents.length with hlt | rfl | hlt
    · rw [List.getElem?_append_left hlt] at he
      exact .inl ⟨k, e, he, h⟩
    · rw [List.getElem?_concat_length] at he
      obtain rfl := Option.some.inj he
      exact .inr h
    · rw [List.getElem?_eq_none (by rw [List.length_append, List.length_singleton]; omega)] at he
      cases he
  · rintro (⟨k, e, he, h⟩ | h)
    · refine ⟨k, e, ?_, h⟩
      rwa [List.getElem?_append_left (List.getElem?_eq_some_iff.1 he).1]
    · exact ⟨_, ent, List.getElem?_concat_length, h⟩

section Safe

variable {mm : Mm} {iSize : ℕ → ℕ → ℕ} {pt : PageTables}

/-- The state of the loop behind these entries. -/
structure Behind (pt : PageTables) (ents : List WsEntry) (s : TagState) : Prop where
  turn : s.turn = ents.length
  held : ∀ lock, lock ∈ s.held ↔ LeftHeld pt ents lock

theorem behind_nil (pt : PageTables) : Behind pt [] tagStart :=
  ⟨rfl, fun lock => by simp [tagStart, LeftHeld]⟩

/-- The lock is not to be had exactly when the entry waits. -/
theorem Behind.clearDirty {ents : List WsEntry} {s : TagState} (h : Behind pt ents s)
    (ent : WsEntry) : (pt.clearDirty s ent.address = none ∧ Waits pt ents ent) ∨
      ∃ s', pt.clearDirty s ent.address = some s' ∧ ¬Waits pt ents ent ∧
        Behind pt (ents ++ [ent]) s' := by
  have hturn : s.turn + 1 = (ents ++ [ent]).length := by rw [List.length_append, h.turn]; rfl
  unfold PageTables.clearDirty Waits
  rw [← h.turn, ← h.held]
  cases htable : pt.table s.turn ent.address with
  | false =>
    refine .inr ⟨_, if_pos rfl, by simp, hturn, fun lock => ?_⟩
    rw [leftHeld_concat, ← h.turn, htable, h.held]
    simp
  | true =>
    rw [if_neg (by simp)]
    by_cases hwait : pt.lost s.turn (pt.ptl ent.address) = true ∨ pt.ptl ent.address ∈ s.held
    · exact .inl ⟨if_pos hwait, rfl, hwait⟩
    rw [if_neg hwait]
    cases hpte : pt.pte s.turn ent.address with
    | true =>
      refine .inr ⟨_, if_pos rfl, fun hw => hwait hw.2, hturn, fun lock => ?_⟩
      rw [leftHeld_concat, ← h.turn, hpte, h.held]
      simp
    | false =>
      refine .inr ⟨_, if_neg (by simp), fun hw => hwait hw.2, hturn, fun lock => ?_⟩
      rw [leftHeld_concat, ← h.turn, htable, hpte, ← h.held, List.mem_cons]
      simp [or_comm, eq_comm]

/-- **What the body does with a well-formed entry.** -/
theorem Behind.tagBody {ents : List WsEntry} {s : TagState} (h : Behind pt ents s) (mm : Mm)
    (iSize : ℕ → ℕ → ℕ) {ent : WsEntry} (hw : (entryBytes ent.streamControl).isSome) :
    (Passes mm (iSize ents.length) ent ∧
      ((Waits pt ents ent ∧ (tagBody mm iSize pt s ent).1 = .hang) ∨
        (¬Waits pt ents ent ∧ (tagBody mm iSize pt s ent).1.goesOn = true ∧
          Behind pt (ents ++ [ent]) (tagBody mm iSize pt s ent).2))) ∨
    (Overruns mm (iSize ents.length) ent ∧ (tagBody mm iSize pt s ent).1 = .stop) ∨
    ((¬Passes mm (iSize ents.length) ent ∧ ¬Overruns mm (iSize ents.length) ent) ∧
      ∃ e, (tagBody mm iSize pt s ent).1 = .fail e) := by
  unfold Update.tagBody
  rw [← h.turn]
  by_cases hp : Passes mm (iSize s.turn) ent
  · obtain ⟨ino, fileOffset, htag, -⟩ := hp.tagEntry
    refine .inl ⟨hp, ?_⟩
    rcases h.clearDirty ent with ⟨hnone, hwait⟩ | ⟨s', hsome, hwait, hs'⟩
    · simp only [htag, hnone]
      exact .inl ⟨hwait, trivial⟩
    · simp only [htag, hsome]
      exact .inr ⟨hwait, rfl, hs'⟩
  · by_cases ho : Overruns mm (iSize s.turn) ent
    · simp only [ho.tagEntry]
      exact .inr (.inl ⟨ho, trivial⟩)
    · obtain ⟨e, htag⟩ := tagEntry_fails hw hp ho
      simp only [htag]
      exact .inr (.inr ⟨⟨hp, ho⟩, e, rfl⟩)

/-- The loop goes on past entries that pass and do not wait. -/
theorem tagBody_after {b : Buffer} {ents : List WsEntry} {off : ℕ} (hs : Splits b 0 ents off)
    {s : TagState} (h : (tagBody mm iSize pt).after tagStart ents = some s) :
    AllPass mm iSize ents ∧ Behind pt ents s := by
  induction ents using List.reverseRecOn generalizing off s with
  | nil =>
    obtain rfl := Option.some.inj h
    exact ⟨allPass_nil mm iSize, behind_nil pt⟩
  | append_singleton ents ent ih =>
    obtain ⟨off', n, hs', -, hn, -⟩ := hs.concat
    rw [LoopBody.after_concat] at h
    obtain ⟨s', hafter, hstep⟩ := Option.bind_eq_some_iff.1 h
    split_ifs at hstep with hgo
    obtain rfl := Option.some.inj hstep
    obtain ⟨hpass, hbehind⟩ := ih hs' hafter
    rcases hbehind.tagBody mm iSize (by rw [hn]; rfl) with
      ⟨hp, ⟨-, hhang⟩ | ⟨-, -, hnext⟩⟩ | ⟨-, hstop⟩ | ⟨-, e, hfail⟩
    · simp [hhang, BodyResult.goesOn] at hgo
    · exact ⟨allPass_concat.2 ⟨hpass, hp⟩, hnext⟩
    · simp [hstop, BodyResult.goesOn] at hgo
    · simp [hfail, BodyResult.goesOn] at hgo

/-- A safe loop goes on past entries that pass. -/
theorem after_of_walkSafe {b : Buffer} {size : ℕ}
    (h : WalkSafe (tagBody mm iSize pt) tagStart b 0 size) {ents : List WsEntry} {off : ℕ}
    (hs : Splits b 0 ents off) (hle : off ≤ size) (hpass : AllPass mm iSize ents) :
    ∃ s, (tagBody mm iSize pt).after tagStart ents = some s := by
  induction ents using List.reverseRecOn generalizing off with
  | nil => exact ⟨_, rfl⟩
  | append_singleton ents ent ih =>
    obtain ⟨off', n, hs', hent, hn, rfl⟩ := hs.concat
    obtain ⟨hpass', hp⟩ := allPass_concat.1 hpass
    have h40 := entryBytes_ge hn
    obtain ⟨s, hafter⟩ := ih hs' (by omega) hpass'
    obtain ⟨-, hstep⟩ := h ents off' s hs' hafter (by omega)
    rw [← hent] at hstep
    obtain ⟨hhang, -⟩ := hstep ⟨n, by rw [← hent]; exact hn, by omega⟩
    rw [LoopBody.after_concat, hafter, Option.bind_some]
    have hsome : (entryBytes ent.streamControl).isSome := by rw [hn]; rfl
    rcases (tagBody_after hs' hafter).2.tagBody mm iSize hsome with
      ⟨-, ⟨-, hh⟩ | ⟨-, hgo, -⟩⟩ | ⟨ho, -⟩ | ⟨⟨hnp, -⟩, -⟩
    · exact absurd hh hhang
    · exact ⟨_, if_pos hgo⟩
    · exact absurd ho hp.not_overruns
    · exact absurd hp hnp

/-- **Safety of the loop in terms of its entries.** -/
theorem walkSafe_iff_tagSafe {b : Buffer} {size : ℕ} :
    WalkSafe (tagBody mm iSize pt) tagStart b 0 size ↔ TagSafe mm iSize pt b size := by
  constructor
  · intro h ents off hs hpass hlt
    obtain ⟨s, hafter⟩ := after_of_walkSafe h hs hlt.le hpass
    obtain ⟨hslip, hstep⟩ := h ents off s hs hafter (by omega)
    rw [Nat.zero_add] at hslip hstep
    refine ⟨hslip, fun hfits => ?_⟩
    obtain ⟨hhang, hstop⟩ := hstep hfits
    obtain ⟨n, hn, -⟩ := hfits
    rcases (tagBody_after hs hafter).2.tagBody mm iSize (by rw [hn]; rfl) with
      ⟨hp, ⟨-, hh⟩ | ⟨hwait, -, -⟩⟩ | ⟨ho, hr⟩ | ⟨⟨hnp, hno⟩, -⟩
    · exact absurd hh hhang
    · exact ⟨fun _ => hwait, fun ho => absurd ho hp.not_overruns⟩
    · exact ⟨fun hp => absurd ho hp.not_overruns, fun _ => hstop hr⟩
    · exact ⟨fun hp => absurd hp hnp, fun ho => absurd ho hno⟩
  · intro h ents off s hs hafter hlt
    obtain ⟨hpass, hbehind⟩ := tagBody_after hs hafter
    rw [Nat.zero_add] at hlt ⊢
    obtain ⟨hslip, hstep⟩ := h ents off hs hpass hlt
    refine ⟨hslip, fun hfits => ?_⟩
    obtain ⟨hwaits, hover⟩ := hstep hfits
    obtain ⟨n, hn, -⟩ := hfits
    rcases hbehind.tagBody mm iSize (by rw [hn]; rfl) with
      ⟨hp, ⟨hwait, -⟩ | ⟨-, hgo, -⟩⟩ | ⟨ho, hr⟩ | ⟨-, e, hr⟩
    · exact absurd hwait (hwaits hp)
    · refine ⟨fun hr => ?_, fun hr => ?_⟩ <;> rw [hr] at hgo <;> cases hgo
    · exact ⟨by rw [hr]; simp, fun _ => hover ho⟩
    · exact ⟨by rw [hr]; simp, fun hstop => absurd (hr.symm.trans hstop) (by simp)⟩

end Safe

/-- **Exactly when the walks over a write-set are safe.**  Over what
`sivfs_copy_argstruct_to_log_entry` accepts: the tagging loop stays inside, never
underflows, ends and returns an error for what does not split into entries, if and
only if no entry that it comes to escapes the size check or waits for a lock that is
not given back, and none overruns unless the whole buffer splits.  For any other walk
the same holds with what its body does at the entries it comes to. -/
theorem parseSafe_iff {faults : CopyFaults} {sizeBytes : ℕ} {user kern : Buffer} {w : LogWriteset}
    (h : copyArgstructToLogEntry faults sizeBytes user kern = .ok w) :
    (∀ mm iSize pt, ParseSafe (tagBody mm iSize pt) tagStart w.mem w.sizeBytes ↔
      TagSafe mm iSize pt w.mem w.sizeBytes) ∧
    ∀ (σ : Type) (body : LoopBody σ) (s : σ),
      ParseSafe body s w.mem w.sizeBytes ↔ WalkSafe body s w.mem 0 w.sizeBytes := by
  have hsize : w.sizeBytes < u64Size := (copyArgstructToLogEntry_ok h).1.trans_lt (by decide)
  exact ⟨fun mm iSize pt => (parseSafe_iff_walkSafe hsize).trans walkSafe_iff_tagSafe,
    fun σ body s => parseSafe_iff_walkSafe hsize⟩

/-! ### The loop over the list -/

/-- All pages are mapped in. -/
def mappedIn : PageTables := ⟨fun _ _ => true, fun _ _ => true, fun _ => 0, fun _ _ => false⟩

theorem not_waits_mappedIn (ents : List WsEntry) (ent : WsEntry) : ¬Waits mappedIn ents ent := by
  simp [Waits, LeftHeld, mappedIn]

/-- These words as bytes. -/
def bytesOf (words : List ℕ) : Buffer := fun i =>
  UInt8.ofNat (words.getD (i / 8) 0 / 2 ^ (8 * (i % 8)) % 256)

/-- A plain entry for the first word of a page, and a constant stream for the rest
of it. -/
def pageWrites : Buffer :=
  bytesOf [0, 0, 65536, 0, 5, 0, 0, 65544, 2 ^ 63 + 2 ^ 62 + 511, 0]

/-- With the page mapped in, the loop over them is safe. -/
theorem parseSafe_iff_page : ∃ w, copyArgstructToLogEntry ⟨false, false, false⟩ 80 pageWrites
      (fun _ => 0) = .ok w ∧
    ParseSafe (tagBody (pageOf 7 0) (fun _ _ => 4096) mappedIn) tagStart w.mem w.sizeBytes := by
  have hw : copyArgstructToLogEntry ⟨false, false, false⟩ 80 pageWrites (fun _ => 0) = .ok
      ⟨fun o => if o < 80 then pageWrites o else 0, 80, false, false⟩ := rfl
  refine ⟨_, hw, ((parseSafe_iff hw).1 _ _ _).2 ?_⟩
  have hsplits : ∃ ents, Splits (fun o => if o < 80 then pageWrites o else 0) 0 ents 80 :=
    ⟨_, .cons (n := 40) (by decide) (.cons (n := 40) (by decide) (.nil 80))⟩
  obtain ⟨all, hall⟩ := hsplits
  have hns : NoSlip _ 0 80 := hall.noSlip (by decide)
  intro ents off hs _ hlt
  have hslip := hns ents off hs (by rwa [Nat.zero_add])
  rw [Nat.zero_add] at hslip
  exact ⟨hslip, fun _ => ⟨fun _ => not_waits_mappedIn _ _, fun _ => ⟨all, hall⟩⟩⟩

/-- 32 bytes for the first word of the page are accepted as an entry of 40, and
`size_left` underflows. -/
theorem not_parseSafe_short_tail : ∃ w, copyArgstructToLogEntry ⟨false, false, false⟩ 32
      (bytesOf [0, 0, 65536, 0]) (fun _ => 0) = .ok w ∧
    ¬ParseSafe (tagBody (pageOf 7 0) (fun _ _ => 4096) mappedIn) tagStart w.mem w.sizeBytes := by
  refine ⟨_, rfl, fun h => ?_⟩
  have := h.no_underflow 1 ⟨0, 32, .ok ⟨1, 1, false, false⟩⟩ (.head _) _ rfl
  exact absurd this (by decide)

end Update
end Sivfs
