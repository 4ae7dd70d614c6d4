/-
# Tagging a write-set

`sivfs_add_metadata_to_changes` (`kern/sivfs_commit_update_checkpoints.c`) and
`sivfs_find_vma` (`kern/sivfs_mm.c`).

User space submits addresses.  Before a write-set goes into the log, the kernel
looks each address up in the mappings of the caller and stores the inode number
of the backing file and the offset in it into the entry:

| the entry | what the loop does |
| --- | --- |
| malformed `stream_control` | leaves with `-EINVAL` |
| address not in an sivfs mapping of the caller, or not a multiple of 8 | leaves with `-EINVAL` |
| offset at or beyond the file size | sets `log_writeset->aborted`, leaves with `0` |
| any other | stores `ino` and `file_offset`, goes on |

Leaving with `0` keeps what user space wrote into `ino` and `file_offset` of that
entry and of all behind it.
-/

import Sivfs.WritesetEntries

namespace Sivfs
namespace Update

/-! ### Mappings -/

/-- `struct vm_area_struct`, with what `sivfs_find_vma` reads through it. -/
structure Vma where
  vmStart : ℕ
  vmEnd : ℕ
  /-- Where the mapping starts in the file, in pages. -/
  vmPgoff : ℕ
  /-- `vma_is_anonymous`. -/
  anonymous : Bool
  /-- `i_sb` of the mapped file is the super block of sivfs. -/
  onSb : Bool
  /-- `sivfs_vma_to_iinfo` is not `NULL`. -/
  hasIinfo : Bool
  /-- `iinfo->state` is the state of the caller. -/
  owned : Bool
  /-- `i_ino` of `sivfs_vma_to_backing_inode`. -/
  backingIno : ℕ
  /-- Mappings start at a page boundary. -/
  aligned : vmStart % pageSize = 0
  /-- `i_ino` is an `unsigned long`. -/
  ino_lt : backingIno < u64Size
  deriving DecidableEq

/-- The mappings of a process, in the order of their addresses. -/
structure Mm where
  vmas : List Vma
  sorted : vmas.Pairwise fun a b => a.vmEnd ≤ b.vmStart

/-- `find_vma`: the first mapping that ends above the address. -/
def findVma (mm : Mm) (addr : ℕ) : Option Vma := mm.vmas.find? fun vma => addr < vma.vmEnd

/-- `sivfs_find_vma`. -/
def sivfsFindVma (mm : Mm) (start size : ℕ) (checkSivfsCurrent : Bool) :
    Except Errno Vma :=
  let stop := (start + size) % u64Size
  if stop < start then .error .einval
  else
    match findVma mm start with
    | none => .error .einval
    | some vma =>
      if start < vma.vmStart ∨ vma.vmEnd < stop then .error .einval
      else if checkSivfsCurrent = true ∧
          (vma.anonymous = true ∨ vma.onSb = false ∨ vma.hasIinfo = false ∨ vma.owned = false) then
        .error .einval
      else .ok vma

/-- An sivfs mapping of the caller that contains the word at `address`. -/
structure Vma.Backs (vma : Vma) (address : ℕ) : Prop where
  start_le : vma.vmStart ≤ address
  le_end : address + wordBytes ≤ vma.vmEnd
  not_anonymous : vma.anonymous = false
  onSb : vma.onSb = true
  hasIinfo : vma.hasIinfo = true
  owned : vma.owned = true

/-- **What `sivfs_find_vma` accepts.** -/
theorem sivfsFindVma_ok {mm : Mm} {address : ℕ} {vma : Vma}
    (h : sivfsFindVma mm address wordBytes true = .ok vma) : vma ∈ mm.vmas ∧ vma.Backs address := by
  simp only [sivfsFindVma] at h
  split_ifs at h with hwrap
  cases hfind : findVma mm address with
  | none => simp [hfind] at h
  | some v =>
    simp only [hfind] at h
    split_ifs at h with hrange hcheck
    obtain rfl := Except.ok.inj h
    push Not at hrange hcheck
    obtain ⟨h₁, h₂, h₃, h₄⟩ := hcheck trivial
    have hend : address + wordBytes ≤ v.vmEnd := by
      have hlt : address + wordBytes < u64Size ∨ u64Size ≤ address + wordBytes := Nat.lt_or_ge _ _
      simp only [u64Size, wordBytes] at *
      omega
    exact ⟨List.mem_of_find?_eq_some hfind, hrange.1, hend, by simpa using h₁, by simpa using h₂,
      by simpa using h₃, by simpa using h₄⟩

/-- `(target_start - vm_start) + (vm_pgoff << PAGE_SHIFT)`. -/
def Vma.fileOffset (vma : Vma) (address : ℕ) : ℕ :=
  (address - vma.vmStart + vma.vmPgoff * pageSize) % u64Size

/-- The offset of a word-aligned address is word-aligned. -/
theorem Vma.fileOffset_mod {vma : Vma} {address : ℕ} (h : vma.vmStart ≤ address)
    (ha : address % wordBytes = 0) : vma.fileOffset address % wordBytes = 0 := by
  have := vma.aligned
  simp only [Vma.fileOffset, wordBytes, pageSize, u64Size] at *
  omega

/-! ### The loop -/

/-- The body of the loop, after `sivfs_wse_to_stream_info`; `iSize` is
`i_size_read` at that time. -/
def tagEntry (mm : Mm) (iSize : ℕ → ℕ) (ent : WsEntry) : BodyResult :=
  match sivfsFindVma mm ent.address wordBytes true with
  | .error e => .fail e
  | .ok vma =>
    if ent.address % wordBytes ≠ 0 then .fail .einval
    else if iSize vma.backingIno ≤ vma.fileOffset ent.address then .stop
    else .tag vma.backingIno (vma.fileOffset ent.address)

/-- The entry with `ino` and `file_offset` stored into it. -/
def withTag (ent : WsEntry) (ino fileOffset : ℕ) : WsEntry :=
  { ent with ino := ino, fileOffset := fileOffset }

/-- The loop of `sivfs_add_metadata_to_changes`: the write-set after it and how
it was left.  The size of a file is read anew for each entry; `iSize 0` is what
the next turn reads. -/
def addMetadataLoop (mm : Mm) : (ℕ → ℕ → ℕ) → List WsEntry → List WsEntry × WalkEnd
  | _, [] => ([], .done)
  | iSize, ent :: ws =>
    match headInfo ent ws with
    | .error e => (ent :: ws, .error e)
    | .ok _ =>
      match tagEntry mm (iSize 0) ent with
      | .fail e => (ent :: ws, .error e)
      | .tag ino fileOffset =>
        let rest := addMetadataLoop mm (fun k => iSize (k + 1)) ws
        (withTag ent ino fileOffset :: rest.1, rest.2)
      | _ => (ent :: ws, .stopped)

/-- The `struct sivfs_log_entry` that a caller of `sivfs_commit_update` hands in. -/
structure Submitted where
  entries : List WsEntry
  aborted : Bool
  wsHasMetadata : Bool
  deriving DecidableEq

/-- `sivfs_add_metadata_to_changes`. -/
def addMetadataToChanges (mm : Mm) (iSize : ℕ → ℕ → ℕ) (w : Submitted) :
    Submitted × Except Errno Unit :=
  if w.wsHasMetadata then (w, .ok ())
  else
    match addMetadataLoop mm iSize w.entries with
    | (ws, .error e) => ({ w with entries := ws }, .error e)
    | (ws, .stopped) => ({ w with entries := ws, aborted := true }, .ok ())
    | (ws, _) => ({ w with entries := ws, wsHasMetadata := true }, .ok ())

/-- What user space hands in: neither aborted nor tagged. -/
def submit (ws : List WsEntry) : Submitted := ⟨ws, false, false⟩

/-! ### Which write-sets pass -/

/-- What the loop asks of an entry before it looks at the size of the file. -/
structure Addresses (mm : Mm) (ent : WsEntry) (vma : Vma) : Prop where
  wellFormed : (entryBytes ent.streamControl).isSome
  found : sivfsFindVma mm ent.address wordBytes true = .ok vma
  aligned : ent.address % wordBytes = 0

/-- The entry writes below the size of its file. -/
def Passes (mm : Mm) (iSize : ℕ → ℕ) (ent : WsEntry) : Prop :=
  ∃ vma, Addresses mm ent vma ∧ vma.fileOffset ent.address < iSize vma.backingIno

/-- The entry writes at or beyond the size of its file. -/
def Overruns (mm : Mm) (iSize : ℕ → ℕ) (ent : WsEntry) : Prop :=
  ∃ vma, Addresses mm ent vma ∧ iSize vma.backingIno ≤ vma.fileOffset ent.address

/-- Every entry passes. -/
def AllPass (mm : Mm) (iSize : ℕ → ℕ → ℕ) (ws : List WsEntry) : Prop :=
  ∀ k ent, ws[k]? = some ent → Passes mm (iSize k) ent

/-- The first entry that does not pass is one that overruns. -/
def CutShort (mm : Mm) (iSize : ℕ → ℕ → ℕ) (ws : List WsEntry) : Prop :=
  ∃ pre ent post, ws = pre ++ ent :: post ∧ AllPass mm iSize pre ∧
    Overruns mm (iSize pre.length) ent

/-- The empty write-set passes. -/
theorem allPass_nil (mm : Mm) (iSize : ℕ → ℕ → ℕ) : AllPass mm iSize [] := by
  simp [AllPass]

/-- A write-set passes entry by entry. -/
theorem allPass_cons {mm : Mm} {iSize : ℕ → ℕ → ℕ} {ent : WsEntry} {ws : List WsEntry} :
    AllPass mm iSize (ent :: ws) ↔
      Passes mm (iSize 0) ent ∧ AllPass mm (fun k => iSize (k + 1)) ws := by
  constructor
  · exact fun h => ⟨h 0 ent rfl, fun k e he => h (k + 1) e he⟩
  · rintro ⟨h₀, h⟩ k e he
    cases k with
    | zero =>
      obtain rfl := Option.some.inj he
      exact h₀
    | succ k => exact h k e he

/-- It is cut short at its first entry, or behind it. -/
theorem cutShort_cons {mm : Mm} {iSize : ℕ → ℕ → ℕ} {ent : WsEntry} {ws : List WsEntry} :
    CutShort mm iSize (ent :: ws) ↔ Overruns mm (iSize 0) ent ∨
      (Passes mm (iSize 0) ent ∧ CutShort mm (fun k => iSize (k + 1)) ws) := by
  constructor
  · rintro ⟨pre, e, post, heq, hpre, he⟩
    cases pre with
    | nil =>
      obtain ⟨rfl, -⟩ := List.cons.inj heq
      exact .inl he
    | cons p pre =>
      obtain ⟨rfl, rfl⟩ := List.cons.inj heq
      obtain ⟨h₀, h⟩ := allPass_cons.1 hpre
      exact .inr ⟨h₀, pre, e, post, rfl, h, he⟩
  · rintro (h | ⟨h₀, pre, e, post, rfl, hpre, he⟩)
    · exact ⟨[], ent, ws, rfl, allPass_nil mm iSize, h⟩
    · exact ⟨ent :: pre, e, post, rfl, allPass_cons.2 ⟨h₀, hpre⟩, he⟩

/-! ### What the loop does -/

/-- The entry as the kernel tags it. -/
def located (mm : Mm) (ent : WsEntry) : WsEntry :=
  match sivfsFindVma mm ent.address wordBytes true with
  | .error _ => ent
  | .ok vma => withTag ent vma.backingIno (vma.fileOffset ent.address)

/-- What a located entry is tagged with. -/
theorem Addresses.located {mm : Mm} {ent : WsEntry} {vma : Vma} (h : Addresses mm ent vma) :
    located mm ent = withTag ent vma.backingIno (vma.fileOffset ent.address) := by
  rw [Update.located, h.found]

/-- An entry that passes has a length. -/
theorem Passes.wellFormed {mm : Mm} {iSize : ℕ → ℕ} {ent : WsEntry} (h : Passes mm iSize ent) :
    (entryBytes ent.streamControl).isSome := by
  obtain ⟨vma, ha, -⟩ := h
  exact ha.wellFormed

/-- An entry does not both pass and overrun. -/
theorem Passes.not_overruns {mm : Mm} {iSize : ℕ → ℕ} {ent : WsEntry}
    (h : Passes mm iSize ent) : ¬Overruns mm iSize ent := by
  rintro ⟨vma', h', hge⟩
  obtain ⟨vma, h, hlt⟩ := h
  obtain rfl := Except.ok.inj (h.found.symm.trans h'.found)
  exact absurd hlt (not_lt.2 hge)

/-- A write-set that passes is not cut short. -/
theorem AllPass.not_cutShort {mm : Mm} {iSize : ℕ → ℕ → ℕ} {ws : List WsEntry}
    (h : AllPass mm iSize ws) : ¬CutShort mm iSize ws := by
  rintro ⟨pre, ent, post, rfl, -, hent⟩
  exact (h pre.length ent (by simp)).not_overruns hent

/-- An entry that goes beyond the end of its file has a length, too. -/
theorem Overruns.wellFormed {mm : Mm} {iSize : ℕ → ℕ} {ent : WsEntry} (h : Overruns mm iSize ent) :
    (entryBytes ent.streamControl).isSome := by
  obtain ⟨vma, ha, -⟩ := h
  exact ha.wellFormed

/-- The body tags an entry that passes. -/
theorem Passes.tagEntry {mm : Mm} {iSize : ℕ → ℕ} {ent : WsEntry} (h : Passes mm iSize ent) :
    ∃ ino fileOffset, tagEntry mm iSize ent = .tag ino fileOffset ∧
      located mm ent = withTag ent ino fileOffset := by
  obtain ⟨vma, ha, hlt⟩ := h
  refine ⟨vma.backingIno, vma.fileOffset ent.address, ?_, ha.located⟩
  simp only [Update.tagEntry, ha.found, ha.aligned, ne_eq, not_true, if_false,
    if_neg (not_le.2 hlt)]

/-- It leaves the loop at an entry that overruns. -/
theorem Overruns.tagEntry {mm : Mm} {iSize : ℕ → ℕ} {ent : WsEntry} (h : Overruns mm iSize ent) :
    tagEntry mm iSize ent = .stop := by
  obtain ⟨vma, ha, hge⟩ := h
  simp only [Update.tagEntry, ha.found, ha.aligned, ne_eq, not_true, if_false, if_pos hge]

/-- It rejects any other. -/
theorem tagEntry_fails {mm : Mm} {iSize : ℕ → ℕ} {ent : WsEntry}
    (hw : (entryBytes ent.streamControl).isSome) (h : ¬Passes mm iSize ent)
    (h' : ¬Overruns mm iSize ent) : ∃ e, tagEntry mm iSize ent = .fail e := by
  cases hfind : sivfsFindVma mm ent.address wordBytes true with
  | error e => exact ⟨e, by simp only [tagEntry, hfind]⟩
  | ok vma =>
    rcases eq_or_ne (ent.address % wordBytes) 0 with halign | halign
    · have ha : Addresses mm ent vma := ⟨hw, hfind, halign⟩
      rcases Nat.lt_or_ge (vma.fileOffset ent.address) (iSize vma.backingIno) with hlt | hge
      · exact absurd ⟨vma, ha, hlt⟩ h
      · exact absurd ⟨vma, ha, hge⟩ h'
    · exact ⟨.einval, by simp only [tagEntry, hfind, if_pos halign]⟩

/-- The entry has the inode number of the mapping that contains its address, its
offset in that file, word-aligned and below the size. -/
def Tagged (mm : Mm) (iSize : ℕ → ℕ) (ent : WsEntry) : Prop :=
  ∃ vma ∈ mm.vmas, vma.Backs ent.address ∧ ent.ino = vma.backingIno ∧
    ent.fileOffset = (ent.address - vma.vmStart + vma.vmPgoff * pageSize) % u64Size ∧
    ent.fileOffset % wordBytes = 0 ∧ ent.fileOffset < iSize ent.ino

/-- The loop tags an entry that passes. -/
theorem Passes.tagged {mm : Mm} {iSize : ℕ → ℕ} {ent : WsEntry} (h : Passes mm iSize ent) :
    Tagged mm iSize (located mm ent) := by
  obtain ⟨vma, ha, hlt⟩ := h
  obtain ⟨hmem, hbacks⟩ := sivfsFindVma_ok ha.found
  rw [ha.located]
  exact ⟨vma, hmem, hbacks, rfl, rfl, Vma.fileOffset_mod hbacks.start_le ha.aligned, hlt⟩

section Loop

variable {mm : Mm} {iSize : ℕ → ℕ → ℕ}

/-- The loop at an entry that passes. -/
theorem addMetadataLoop_passes {ent : WsEntry} (h : Passes mm (iSize 0) ent) (ws : List WsEntry) :
    addMetadataLoop mm iSize (ent :: ws) =
      (located mm ent :: (addMetadataLoop mm (fun k => iSize (k + 1)) ws).1,
        (addMetadataLoop mm (fun k => iSize (k + 1)) ws).2) := by
  obtain ⟨ino, fileOffset, htag, hloc⟩ := h.tagEntry
  obtain ⟨info, hinfo⟩ := headInfo_ok h.wellFormed ws
  rw [addMetadataLoop, hinfo, hloc]
  simp only [htag]

/-- The loop at one that goes beyond the end of its file: it stops without an error. -/
theorem addMetadataLoop_overruns {ent : WsEntry} (h : Overruns mm (iSize 0) ent)
    (ws : List WsEntry) : addMetadataLoop mm iSize (ent :: ws) = (ent :: ws, .stopped) := by
  obtain ⟨info, hinfo⟩ := headInfo_ok h.wellFormed ws
  rw [addMetadataLoop, hinfo]
  simp only [h.tagEntry]

/-- The loop at any other. -/
theorem addMetadataLoop_fails {ent : WsEntry} (h : ¬Passes mm (iSize 0) ent)
    (h' : ¬Overruns mm (iSize 0) ent) (ws : List WsEntry) :
    ∃ e, addMetadataLoop mm iSize (ent :: ws) = (ent :: ws, .error e) := by
  rw [addMetadataLoop]
  cases hinfo : headInfo ent ws with
  | error e => exact ⟨e, rfl⟩
  | ok info =>
    obtain ⟨e, htag⟩ := tagEntry_fails (isSome_of_headInfo hinfo) h h'
    exact ⟨e, by simp only [htag]⟩

/-- **A write-set that passes is tagged to the end.** -/
theorem addMetadataLoop_of_allPass {ws : List WsEntry} (h : AllPass mm iSize ws) :
    addMetadataLoop mm iSize ws = (ws.map (located mm), .done) := by
  induction ws generalizing iSize with
  | nil => rfl
  | cons ent ws ih =>
    obtain ⟨h₀, hws⟩ := allPass_cons.1 h
    rw [addMetadataLoop_passes h₀, ih hws]
    rfl

/-- **A write-set that is cut short is tagged up to the entry that overruns.** -/
theorem addMetadataLoop_of_cutShort {pre : List WsEntry} {ent : WsEntry} (post : List WsEntry)
    (hpre : AllPass mm iSize pre) (hent : Overruns mm (iSize pre.length) ent) :
    addMetadataLoop mm iSize (pre ++ ent :: post) =
      (pre.map (located mm) ++ ent :: post, .stopped) := by
  induction pre generalizing iSize with
  | nil => exact addMetadataLoop_overruns hent post
  | cons p pre ih =>
    obtain ⟨h₀, h⟩ := allPass_cons.1 hpre
    rw [List.cons_append, addMetadataLoop_passes h₀, ih h hent]
    rfl

/-- **Any other write-set is rejected.** -/
theorem addMetadataLoop_error {ws : List WsEntry} (h : ¬AllPass mm iSize ws)
    (h' : ¬CutShort mm iSize ws) : ∃ ws' e, addMetadataLoop mm iSize ws = (ws', .error e) := by
  induction ws generalizing iSize with
  | nil => exact absurd (allPass_nil mm iSize) h
  | cons ent ws ih =>
    rw [allPass_cons] at h
    rw [cutShort_cons] at h'
    push Not at h h'
    by_cases hp : Passes mm (iSize 0) ent
    · obtain ⟨ws', e, he⟩ := ih (h hp) (h'.2 hp)
      exact ⟨_, e, by rw [addMetadataLoop_passes hp, he]⟩
    · obtain ⟨e, he⟩ := addMetadataLoop_fails hp h'.1 ws
      exact ⟨_, e, he⟩

/-! ### What user space hands in -/

theorem addMetadataToChanges_submit (mm : Mm) (iSize : ℕ → ℕ → ℕ) (ws : List WsEntry) :
    addMetadataToChanges mm iSize (submit ws) =
      match addMetadataLoop mm iSize ws with
      | (ws', .error e) => (⟨ws', false, false⟩, .error e)
      | (ws', .stopped) => (⟨ws', true, false⟩, .ok ())
      | (ws', _) => (⟨ws', false, true⟩, .ok ()) := rfl

/-- **A write-set that passes is tagged as a whole.** -/
theorem AllPass.addMetadata {ws : List WsEntry} (h : AllPass mm iSize ws) :
    addMetadataToChanges mm iSize (submit ws) = (⟨ws.map (located mm), false, true⟩, .ok ()) := by
  rw [addMetadataToChanges_submit, addMetadataLoop_of_allPass h]

/-- The call goes on with a write-set that is cut short. -/
theorem addMetadata_of_cutShort {pre : List WsEntry} {ent : WsEntry} (post : List WsEntry)
    (hpre : AllPass mm iSize pre) (hent : Overruns mm (iSize pre.length) ent) :
    addMetadataToChanges mm iSize (submit (pre ++ ent :: post)) =
      (⟨pre.map (located mm) ++ ent :: post, true, false⟩, .ok ()) := by
  rw [addMetadataToChanges_submit, addMetadataLoop_of_cutShort post hpre hent]

/-- One that neither passes nor is cut short is refused. -/
theorem addMetadata_error {ws : List WsEntry} (h : ¬AllPass mm iSize ws)
    (h' : ¬CutShort mm iSize ws) :
    ∃ w' e, addMetadataToChanges mm iSize (submit ws) = (w', .error e) := by
  obtain ⟨ws', e, he⟩ := addMetadataLoop_error h h'
  exact ⟨⟨ws', false, false⟩, e, by rw [addMetadataToChanges_submit, he]⟩

/-- The loop lets a write-set through that passes or is cut short. -/
theorem admitted {ws : List WsEntry} (h : AllPass mm iSize ws ∨ CutShort mm iSize ws) :
    ∃ w', addMetadataToChanges mm iSize (submit ws) = (w', .ok ()) := by
  rcases h with hpass | ⟨pre, ent, post, rfl, hpre, hent⟩
  · exact ⟨_, hpass.addMetadata⟩
  · exact ⟨_, addMetadata_of_cutShort post hpre hent⟩

/-- **A write-set that is admitted and not cut short passes.** -/
theorem allPass_of_admitted {ws : List WsEntry} {w' : Submitted} (hcut : ¬CutShort mm iSize ws)
    (h : addMetadataToChanges mm iSize (submit ws) = (w', .ok ())) : AllPass mm iSize ws := by
  by_contra hpass
  obtain ⟨w'', e, he⟩ := addMetadata_error hpass hcut
  rw [he] at h
  simp at h

end Loop

/-- One page of a file, mapped at `0x10000`. -/
def pageOf (ino pgoff : ℕ) : Mm :=
  ⟨[⟨65536, 69632, pgoff, false, true, true, true, ino % u64Size, rfl, Nat.mod_lt _ (by decide)⟩],
    List.pairwise_singleton _ _⟩

end Update
end Sivfs
