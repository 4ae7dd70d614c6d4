/-
# A checkpoint tree is a persistent map

`sivfs_apply_change_checkpoint` and `sivfs_checkpoint_traverse` as the update and
the lookup of a map from words to values, for any tree and not only for those that
`sivfs_make_checkpoint` comes across: nothing is said of the timestamps in the tree
except that a page that carries the one of the update is private to it
(`checkpoint_update`).

The build of a checkpoint starts from the tree of the one before it
(`Tree.advance`), so that what is said of one build holds of each in turn.
-/

import Sivfs.Checkpoint.Exact

open PathCopy

namespace Sivfs
namespace Checkpoint

/-! ### Trees -/

/-- A well-formed tree that is being built at `ts`.  The pages from `n₀` on are
private to it. -/
structure Tree (n₀ ts : ℕ) (b : Build) : Prop where
  ok : HeapWf b.heap
  le : n₀ ≤ b.heap.next
  root_ok : ∀ c, b.root = some c → Valid b.heap.next c ∧ b.heap.level c = 6
  /-- No page that is reached carries `ts`, unless it is private. -/
  fresh : ∀ c, b.root = some c ∨ Own n₀ c → ∀ ρ x, follow b.heap.child (some c) ρ = some x →
    b.heap.checkpointTs x = ts → Own n₀ x
  /-- A private page carries `ts`. -/
  own_ts : ∀ id, n₀ ≤ id → id < b.heap.next → (b.heap.page id).checkpointTs = ts
  /-- It is at one place of this tree and of no other. -/
  place : ∃ label, Labelled b.heap.child b.root (Own n₀) label

section Trees

variable {n₀ ts : ℕ} {label : Ref → List ℕ} {b : Build} (faults : Faults)

theorem Tree.building (ht : Tree n₀ ts b) : ∃ label, Building n₀ ts (· ≠ ts) label b := by
  obtain ⟨label, hlab⟩ := ht.place
  have hold : ∀ r k c, ¬Own n₀ r → b.heap.child r k = some c → ¬Own n₀ c := fun r k c hr hc h =>
    hr (hlab.child r k c hc h).1
  refine ⟨label, ht.ok, ht.le, ht.own_ts, fun c hc h ρ x hx hts => ?_, hlab, ht.root_ok⟩
  have hxold : ¬Own n₀ x := by
    refine follow_mem (p := fun r => ¬Own n₀ r) hold ?_ ρ x hx
    rintro y ⟨⟩
    exact hc
  rcases h with h | ⟨r, k, hr, h⟩
  · exact hxold (ht.fresh c (.inl h) ρ x hx hts)
  · exact hxold (ht.fresh r (.inr hr) (k :: ρ) x (by rw [follow_cons, h, hx]) hts)

theorem Building.tree (hb : Building n₀ ts (· ≠ ts) label b) : Tree n₀ ts b := by
  refine ⟨hb.ok, hb.le, hb.root_ok, fun c hc ρ => ?_, hb.own_ts, label, hb.labelled⟩
  induction ρ generalizing c with
  | nil =>
    intro x hx hts
    obtain rfl : c = x := by simpa using hx
    rcases hc with hc | hc
    · by_contra hown
      exact hb.dated c hown (.inl hc) [] c rfl hts
    · exact hc
  | cons k ρ ih =>
    intro x hx hts
    by_cases hown : Own n₀ c
    · rw [follow_cons] at hx
      rcases hd : b.heap.child c k with _ | d
      · simp [hd] at hx
      · rw [hd] at hx
        by_cases hd' : Own n₀ d
        · exact ih d (.inr hd') x hx hts
        · exact absurd hts (hb.dated d hd' (.inr ⟨c, k, hown, hd⟩) ρ x hx)
    · exact absurd hts (hb.dated c hown (.inl (hc.resolve_right hown)) (k :: ρ) x hx)

/-! ### Updates -/

/-- A sequence of updates, up to the first that fails. -/
def applyChanges (faults : Faults) (ts : ℕ) : List WsEntry → Build → Build × Except Errno Unit
  | [], b => (b, .ok ())
  | ent :: ws, b =>
    match applyChangeCheckpoint faults ts b ent with
    | (b, .error e) => (b, .error e)
    | (b, .ok ()) => applyChanges faults ts ws b

/-- **Any sequence of updates** leaves the older pages alone, wherever it stops. -/
theorem applyChanges_building {past : ℕ → Prop} (h₀ : past 0) (hpast : ¬past ts)
    (ws : List WsEntry) : ∀ {b : Build} {label : Ref → List ℕ}, Building n₀ ts past label b →
      ∃ label', Building n₀ ts past label' (applyChanges faults ts ws b).1 ∧
        Frozen n₀ b.heap (applyChanges faults ts ws b).1.heap := by
  induction ws with
  | nil =>
    intro b label hb
    exact ⟨label, hb, .refl _ _⟩
  | cons ent ws ih =>
    intro b label hb
    obtain ⟨label₁, hb₁, hf₁, -⟩ := applyChange_building h₀ hpast faults hb ent
    rw [applyChanges]
    rcases hres : applyChangeCheckpoint faults ts b ent with ⟨b₁, e | ⟨⟩⟩
    · rw [hres] at hb₁ hf₁
      exact ⟨label₁, hb₁, hf₁⟩
    · rw [hres] at hb₁ hf₁
      obtain ⟨label₂, hb₂, hf₂⟩ := ih hb₁
      exact ⟨label₂, hb₂, hf₁.trans hf₂⟩

/-- The walk over a write-set makes a sequence of updates. -/
theorem applyWriteset_fst (ws : List WsEntry) : ∀ b : Build,
    ∃ pre, (applyWriteset faults ts ws b).1 = (applyChanges faults ts pre b).1 := by
  induction ws with
  | nil => exact fun b => ⟨[], rfl⟩
  | cons ent ws ih =>
    intro b
    rw [applyWriteset]
    rcases headInfo ent ws with e | info
    · exact ⟨[], rfl⟩
    rcases hres : applyChangeCheckpoint faults ts b ent with ⟨b₁, e | ⟨⟩⟩
    · exact ⟨[ent], by rw [applyChanges, hres]⟩
    · obtain ⟨pre, hpre⟩ := ih b₁
      refine ⟨ent :: pre, ?_⟩
      rw [applyChanges, hres]
      exact hpre

theorem applyWriteset_building {past : ℕ → Prop} (h₀ : past 0) (hpast : ¬past ts)
    (ws : List WsEntry) {b : Build} {label : Ref → List ℕ} (hb : Building n₀ ts past label b) :
    ∃ label', Building n₀ ts past label' (applyWriteset faults ts ws b).1 ∧
      Frozen n₀ b.heap (applyWriteset faults ts ws b).1.heap := by
  obtain ⟨pre, hpre⟩ := applyWriteset_fst faults ws b
  rw [hpre]
  exact applyChanges_building faults h₀ hpast pre hb

/-- The same for any sequence of commits. -/
theorem applyLogEntries_building {past : ℕ → Prop} (h₀ : past 0) (hpast : ¬past ts)
    (log : List LogEntry) : ∀ {b : Build} {label : Ref → List ℕ}, Building n₀ ts past label b →
      ∃ label', Building n₀ ts past label' (applyLogEntries faults ts log b).1 ∧
        Frozen n₀ b.heap (applyLogEntries faults ts log b).1.heap := by
  induction log with
  | nil =>
    intro b label hb
    exact ⟨label, hb, .refl _ _⟩
  | cons l log ih =>
    intro b label hb
    obtain ⟨label₁, hb₁, hf₁⟩ : ∃ label',
        Building n₀ ts past label' (applyLogEntry faults ts l b).1 ∧
        Frozen n₀ b.heap (applyLogEntry faults ts l b).1.heap := by
      rw [applyLogEntry]
      cases l.aborted with
      | true => exact ⟨label, hb, .refl _ _⟩
      | false => exact applyWriteset_building faults h₀ hpast l.ws hb
    rw [applyLogEntries]
    rcases hres : applyLogEntry faults ts l b with ⟨b₁, e | ⟨⟩⟩
    · rw [hres] at hb₁ hf₁
      exact ⟨label₁, hb₁, hf₁⟩
    · rw [hres] at hb₁ hf₁
      obtain ⟨label₂, hb₂, hf₂⟩ := ih hb₁
      exact ⟨label₂, hb₂, hf₁.trans hf₂⟩

/-- The value of a word after an entry. -/
def wordAfter (ino off w : ℕ) (v : ℕ) (ent : WsEntry) : ℕ :=
  if ent.ino = ino ∧ ent.fileOffset = off + wordBytes * w then ent.value else v

/-- What a page reads after an entry. -/
theorem contents_wordAfter {h h' : Heap} {root root' : Option Ref} {ent : WsEntry}
    (hent : InRange ent.ino ent.fileOffset) (halign : ent.fileOffset % wordBytes = 0)
    (hcont : ∀ ρ, h'.contents root' ρ =
      if ρ = pathOf ent.ino ent.fileOffset then applyWsEntPg (h.contents root ρ) ent
      else h.contents root ρ)
    {ino off : ℕ} (hin : InRange ino off) (hoff : off % pageSize = 0) {w : ℕ} (hw : w < 512) :
    h'.contents root' (pathOf ino off) w =
      wordAfter ino off w (h.contents root (pathOf ino off) w) ent := by
  have hfile : ent.fileOffset = off + wordBytes * w ↔
      off / pageSize = ent.fileOffset / pageSize ∧ w = wordIndex ent.fileOffset := by
    simp only [wordIndex, pageSize, wordBytes] at hoff halign ⊢
    omega
  rw [hcont, wordAfter]
  by_cases hpath : pathOf ino off = pathOf ent.ino ent.fileOffset
  · obtain ⟨rfl, hpg⟩ := pathOf_injective hin hent hpath
    rw [if_pos hpath, applyWsEntPg, Function.update_apply]
    by_cases hidx : w = wordIndex ent.fileOffset
    · rw [if_pos hidx, if_pos ⟨rfl, hfile.2 ⟨hpg, hidx⟩⟩]
    · rw [if_neg hidx, if_neg fun h => hidx (hfile.1 h.2).2]
  · rw [if_neg hpath, if_neg]
    rintro ⟨rfl, hword⟩
    exact hpath (pathOf_congr _ (hfile.1 hword).1)

/-- What a successful update reads. -/
def Updated (b b' : Build) (ent : WsEntry) : Prop :=
  ∀ ino off, InRange ino off → off % pageSize = 0 →
    ∃ words words', readCheckpoint b.heap b.root ino off = .ok words ∧
      readCheckpoint b'.heap b'.root ino off = .ok words' ∧
      ∀ w < 512, words' w = wordAfter ino off w (words w) ent

/-- What a checkpoint that was there before keeps. -/
def Kept (prior : Option Ref) (h h' : Heap) : Prop :=
  (∀ ρ c, follow h.child prior ρ = some c → h'.mem c = h.mem c) ∧
    ∀ ino off, readCheckpoint h' prior ino off = readCheckpoint h prior ino off

theorem readCheckpoint_ok (h : Heap) (root : Option Ref) {ino off : ℕ} (hin : InRange ino off)
    (hoff : off % pageSize = 0) :
    readCheckpoint h root ino off = .ok (h.contents root (pathOf ino off)) := by
  rw [readCheckpoint, if_neg (not_not.2 hoff), checkpointIterInit_eq, if_pos hin]
  rfl

/-- Older pages are kept with all that can be read through them. -/
theorem Building.kept (hb : Building n₀ ts (· ≠ ts) label b) {h' : Heap}
    (hf : Frozen n₀ b.heap h') {prior : Option Ref} (hprior : ∀ c, prior = some c → Valid n₀ c) :
    Kept prior b.heap h' := by
  have hclosed : ∀ r k c, Valid n₀ r → b.heap.child r k = some c → Valid n₀ c := by
    intro r k c hr hc
    cases c with
    | zero => trivial
    | page id =>
      by_contra hge
      have hown := (hb.labelled.child r k _ hc (not_lt.1 hge)).1
      cases r with
      | zero => exact hown
      | page j => exact absurd hr (not_lt.2 hown)
  refine ⟨fun ρ c hc => ?_, fun ino off => ?_⟩
  · have hv := follow_mem hclosed hprior ρ c hc
    cases c with
    | zero => rfl
    | page id => exact hf.mem id hv
  · simp only [readCheckpoint, hf.contents hclosed hprior]

/-- Without failing allocations, a page is found. -/
theorem cowPage_ok (hnofault : ∀ n, faults.page n = false ∧ faults.push n = false) (level : ℕ)
    (slot : Slot) : ∃ b' r, b.cowPage faults ts level slot = (b', .ok r) := by
  unfold Build.cowPage Build.newPage
  simp only [hnofault, Bool.false_eq_true, if_false]
  cases b.get slot with
  | none => exact ⟨_, _, rfl⟩
  | some old =>
    by_cases hold : b.heap.checkpointTs old = ts
    · simp only [hold, if_true]
      exact ⟨_, _, rfl⟩
    · simp only [hold, if_false]
      cases old with
      | zero => exact ⟨_, _, rfl⟩
      | page => exact ⟨_, _, rfl⟩

theorem applyLoop_ok (hnofault : ∀ n, faults.page n = false ∧ faults.push n = false)
    (ent : WsEntry) (offsets : List ℕ) :
    ∀ (b : Build) (slot : Slot), ∃ b', applyLoop faults ts ent offsets b slot = (b', .ok ()) := by
  induction offsets with
  | nil =>
    intro b slot
    obtain ⟨b', r, h⟩ := cowPage_ok (b := b) faults hnofault 0 slot
    rw [applyLoop, h]
    exact ⟨_, rfl⟩
  | cons offset offsets ih =>
    intro b slot
    obtain ⟨b', r, h⟩ := cowPage_ok (b := b) faults hnofault (offsets.length + 1) slot
    rw [applyLoop, h]
    exact ih _ _

/-- **A checkpoint tree update is a persistent map update.**  It gives the word its
value and every other word what it had; and any sequence of updates, also one that
stops at an error, leaves a tree again and all that `prior` reads. -/
theorem checkpoint_update (ht : Tree n₀ ts b) (hts : 0 < ts) :
    (∀ ent, InRange ent.ino ent.fileOffset → ent.fileOffset % wordBytes = 0 →
      ((∀ n, faults.page n = false ∧ faults.push n = false) →
        ∃ b', applyChangeCheckpoint faults ts b ent = (b', .ok ())) ∧
      ∀ b', applyChangeCheckpoint faults ts b ent = (b', .ok ()) → Updated b b' ent) ∧
    ∀ ws, Tree n₀ ts (applyChanges faults ts ws b).1 ∧
      ∀ prior, (∀ c, prior = some c → Valid n₀ c) →
        Kept prior b.heap (applyChanges faults ts ws b).1.heap := by
  obtain ⟨label, hb⟩ := ht.building
  refine ⟨fun ent hin halign => ⟨fun hnofault => ?_, fun b' hok ino off hin' hoff => ?_⟩,
    fun ws => ?_⟩
  · rw [applyChangeCheckpoint, checkpointIterInit_eq, if_pos hin]
    exact applyLoop_ok faults hnofault ent _ b .root
  · obtain ⟨-, -, -, hres⟩ := applyChange_building hts.ne (fun h => h rfl) faults hb ent
    obtain ⟨-, hcont⟩ := hres b' hok
    exact ⟨_, _, readCheckpoint_ok _ _ hin' hoff, readCheckpoint_ok _ _ hin' hoff,
      fun w hw => contents_wordAfter hin halign hcont hin' hoff hw⟩
  · obtain ⟨label', hb', hf⟩ := applyChanges_building faults hts.ne (fun h => h rfl) ws hb
    exact ⟨hb'.tree, fun prior hprior => hb.kept hf hprior⟩

end Trees

/-- Memory for every page. -/
def noFaults : Faults := ⟨fun _ => false, fun _ => false⟩

/-- The checkpoint without pages. -/
def emptyBuild : Build := ⟨⟨0, fun _ => blankPage⟩, none, []⟩

theorem emptyBuild_tree : Tree 0 1 emptyBuild := by
  refine ⟨heapOk_empty.toHeapWf, le_rfl, fun c hc => ?_, fun c _ ρ x _ hts => ?_,
    fun id _ hlt => ?_,
    fun _ => [], fun r hr => ?_, fun r k c hc hown => ?_⟩
  · exact absurd hc (by simp [emptyBuild])
  · cases x with
    | zero => exact absurd hts Nat.zero_ne_one
    | page => exact Nat.zero_le _
  · exact absurd hlt (Nat.not_lt_zero id)
  · exact absurd hr (by simp [emptyBuild])
  · cases c with
    | zero => exact absurd hown not_false
    | page id => exact absurd (heapOk_empty.bound r k id hc) (Nat.not_lt_zero id)

/-- A build of `ts` is finished; the next one, of a later time, starts from its tree
and has no private page yet. -/
theorem Tree.advance {ts ts' : ℕ} {b : Build} (ht : Tree 0 ts b) (hts : ts < ts') :
    Tree b.heap.next ts' b := by
  have hown : ∀ {r c : Ref} {k : ℕ}, b.heap.child r k = some c → ¬Own b.heap.next c := by
    intro r c k hc hc'
    cases c with
    | zero => exact hc'
    | page id => exact absurd (ht.ok.bound r k id hc) (not_lt.2 hc')
  refine ⟨ht.ok, le_rfl, ht.root_ok, fun c hc ρ x hx hx' => ?_, fun id hle hlt => ?_,
    fun _ => [], fun r hr hr' => ?_, fun r k c hc hc' => absurd hc' (hown hc)⟩
  · -- what the tree reaches is of time `0` or of time `ts`
    cases x with
    | zero => exact absurd hx' (by simp only [Heap.checkpointTs]; omega)
    | page id =>
      by_contra hid
      exact absurd ((ht.own_ts id (Nat.zero_le _) (not_le.1 hid)).symm.trans hx') hts.ne
  · exact absurd hlt (not_lt.2 hle)
  · cases r with
    | zero => exact hr'.elim
    | page id => exact absurd (ht.root_ok _ hr).1 (not_lt.2 hr')

/-- A word of the file at time 1 and a word of its next page at time 2: the second
checkpoint has both, the first one still reads as it did. -/
theorem checkpoint_update_secondCheckpoint : ∃ b b',
    applyChangeCheckpoint noFaults 1 emptyBuild ⟨1, 8, 0, 0, 5⟩ = (b, .ok ()) ∧
    applyChangeCheckpoint noFaults 2 b ⟨1, 4096, 0, 0, 7⟩ = (b', .ok ()) ∧
    (∃ words, readCheckpoint b'.heap b'.root 1 0 = .ok words ∧ words 1 = 5) ∧
    (∃ words, readCheckpoint b'.heap b'.root 1 4096 = .ok words ∧ words 0 = 7) ∧
    ∀ off, readCheckpoint b'.heap b.root 1 off = readCheckpoint b.heap b.root 1 off := by
  obtain ⟨hone, hmany⟩ := checkpoint_update noFaults emptyBuild_tree Nat.one_pos
  obtain ⟨hok, hupd⟩ := hone ⟨1, 8, 0, 0, 5⟩ (by decide) (by decide)
  obtain ⟨b, hb⟩ := hok fun _ => ⟨rfl, rfl⟩
  -- the tree of the first checkpoint
  have htree : Tree b.heap.next 2 b := by
    have ht := (hmany [⟨1, 8, 0, 0, 5⟩]).1
    rw [applyChanges, hb] at ht
    exact ht.advance Nat.one_lt_two
  obtain ⟨hone', hmany'⟩ := checkpoint_update noFaults htree Nat.two_pos
  obtain ⟨hok', hupd'⟩ := hone' ⟨1, 4096, 0, 0, 7⟩ (by decide) (by decide)
  obtain ⟨b', hb'⟩ := hok' fun _ => ⟨rfl, rfl⟩
  have hkept := (hmany' [⟨1, 4096, 0, 0, 7⟩]).2 b.root fun c hc => (htree.root_ok c hc).1
  rw [applyChanges, hb'] at hkept
  obtain ⟨words₀, words₁, -, hread₁, hword₁⟩ := hupd b hb 1 0 (by decide) (by decide)
  obtain ⟨words₂, words₃, hread₂, hread₃, hword₃⟩ := hupd' b' hb' 1 0 (by decide) (by decide)
  obtain ⟨words₅, words₄, -, hread₄, hword₄⟩ := hupd' b' hb' 1 4096 (by decide) (by decide)
  obtain rfl : words₁ = words₂ := Except.ok.inj (hread₁.symm.trans hread₂)
  refine ⟨b, b', hb, hb', ⟨words₃, hread₃, ?_⟩, ⟨words₄, hread₄, hword₄ 0 (by decide)⟩,
    fun off => hkept.2 1 off⟩
  exact (hword₃ 1 (by decide)).trans (hword₁ 1 (by decide))

end Checkpoint
end Sivfs
