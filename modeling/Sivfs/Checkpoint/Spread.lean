/-
# Where the pages of an attempt end up

An attempt that succeeds puts every page it makes somewhere in the new tree, below an offset
that a table has room for.  `sivfs_destroy_checkpoints` relies on both: it finds pages by
going down the tree, over the first `SIVFS_CHECKPOINT_CHILDREN_PER_NODE` entries of a table.

`KeptByTurns` is the rule that is used: what every turn of the loop of
`sivfs_apply_change_checkpoint` keeps, and what depends on the shape of the tree only, holds
after an attempt that succeeds (`KeptByTurns.applyLog`).
-/

import Sivfs.Checkpoint.Ledger

open PathCopy

namespace Sivfs
namespace Checkpoint

variable {n₀ ts level : ℕ} {past : ℕ → Prop} {label label' : Ref → List ℕ} {b b₁ b' : Build}
  {slot : Slot} {π : List ℕ} {faults : Faults} {P : Build → Prop}

/-! ### What an attempt keeps -/

/-- A turn of the loop keeps `P`, which depends on the shape of the tree only. -/
structure KeptByTurns (n₀ ts : ℕ) (past : ℕ → Prop) (faults : Faults) (P : Build → Prop) :
    Prop where
  place : ∀ {b b₁ : Build} {label label' : Ref → List ℕ} {level : ℕ} {slot : Slot} {π : List ℕ}
    {r : Ref} {ent : WsEntry}, P b → Building n₀ ts past label b →
    SlotOk n₀ label b slot level π → b.cowPage faults ts level slot = (b₁, .ok r) →
    Placed n₀ ts past level label' π slot b (b₁.put slot r) r → π <+: entPath ent →
    P (b₁.put slot r)
  congr : ∀ {b b' : Build}, P b → b'.heap.child = b.heap.child → b'.root = b.root →
    b'.heap.next = b.heap.next → P b'

/-- The loop of `sivfs_apply_change_checkpoint`. -/
theorem KeptByTurns.applyLoop (hk : KeptByTurns n₀ ts past faults P) (h₀ : past 0)
    (hpast : ¬past ts)
    {ent : WsEntry} (offsets : List ℕ) :
    ∀ {b : Build} {label : Ref → List ℕ} {slot : Slot} {π : List ℕ}, P b →
      Building n₀ ts past label b → SlotOk n₀ label b slot offsets.length π →
      π ++ offsets = entPath ent → ∀ b', applyLoop faults ts ent offsets b slot = (b', .ok ()) →
      P b' := by
  induction offsets with
  | nil =>
    intro b label slot π hP ha hs hpath b' hb'
    have hspec := cowPage_spec ha hs h₀ hpast faults
    rw [List.length_nil] at hspec
    unfold Checkpoint.applyLoop at hb'
    rcases hcow : b.cowPage faults ts 0 slot with ⟨b₁, e | r⟩
    · simp [hcow] at hb'
    · simp only [hcow, Prod.mk.injEq, and_true] at hspec hb'
      obtain ⟨label', hp⟩ := hspec
      rw [← hb', applyWsEnt_put hp.slot_ne]
      have hpre : π <+: entPath ent := ⟨[], hpath⟩
      exact hk.congr (hk.place hP ha hs hcow hp hpre) (hp.write_child ent)
        (applyWsEnt_root _ r ent) (applyWsEnt_next _ r ent)
  | cons offset offsets ih =>
    intro b label slot π hP ha hs hpath b' hb'
    have hspec := cowPage_spec ha hs h₀ hpast faults
    rw [List.length_cons] at hspec
    unfold Checkpoint.applyLoop at hb'
    rcases hcow : b.cowPage faults ts (offsets.length + 1) slot with ⟨b₁, e | r⟩
    · simp [hcow] at hb'
    · simp only [hcow] at hspec hb'
      obtain ⟨label', hp⟩ := hspec
      have hP' := hk.place hP ha hs hcow hp ⟨_, hpath⟩
      exact ih hP' hp.building hp.slotOk (by simpa using hpath) b' hb'

/-- One change. -/
theorem KeptByTurns.applyChange (hk : KeptByTurns n₀ ts past faults P) (h₀ : past 0)
    (hpast : ¬past ts)
    (hP : P b) (ha : Building n₀ ts past label b) {ent : WsEntry}
    (hb' : applyChangeCheckpoint faults ts b ent = (b', .ok ())) :
    P b' ∧ ∃ label', Building n₀ ts past label' b' := by
  obtain ⟨label', hbuild, -, -⟩ := applyChange_building h₀ hpast faults ha ent
  rw [hb'] at hbuild
  refine ⟨?_, label', hbuild⟩
  rw [applyChangeCheckpoint, checkpointIterInit_eq] at hb'
  split_ifs at hb' with hin
  · exact hk.applyLoop h₀ hpast _ hP ha (slotOk_root label b _ _) rfl b' hb'
  · simp at hb'

/-- One write-set. -/
theorem KeptByTurns.applyWriteset (hk : KeptByTurns n₀ ts past faults P) (h₀ : past 0)
    (hpast : ¬past ts)
    (ws : List WsEntry) : ∀ {b : Build} {label : Ref → List ℕ}, P b →
      Building n₀ ts past label b → ∀ b', applyWriteset faults ts ws b = (b', .ok ()) →
      P b' ∧ ∃ label', Building n₀ ts past label' b' := by
  induction ws with
  | nil =>
    intro b label hP ha b' hb'
    obtain rfl : b = b' := congrArg Prod.fst hb'
    exact ⟨hP, label, ha⟩
  | cons ent ws ih =>
    intro b label hP ha b' hb'
    rw [Checkpoint.applyWriteset] at hb'
    cases hinfo : headInfo ent ws with
    | error e => simp [hinfo] at hb'
    | ok info =>
    simp only [hinfo] at hb'
    rcases hone : applyChangeCheckpoint faults ts b ent with ⟨b₁, e | ⟨⟩⟩
    · simp [hone] at hb'
    · simp only [hone] at hb'
      obtain ⟨hP₁, label₁, ha₁⟩ := hk.applyChange h₀ hpast hP ha hone
      exact ih hP₁ ha₁ b' hb'

/-- The log. -/
theorem KeptByTurns.applyLogEntries (hk : KeptByTurns n₀ ts past faults P) (h₀ : past 0)
    (hpast : ¬past ts)
    (log : List LogEntry) : ∀ {b : Build} {label : Ref → List ℕ}, P b →
      Building n₀ ts past label b → ∀ b', applyLogEntries faults ts log b = (b', .ok ()) →
      P b' := by
  induction log with
  | nil =>
    intro b label hP _ b' hb'
    obtain rfl : b = b' := congrArg Prod.fst hb'
    exact hP
  | cons l log ih =>
    intro b label hP ha b' hb'
    rw [Checkpoint.applyLogEntries] at hb'
    rcases hone : applyLogEntry faults ts l b with ⟨b₁, e | ⟨⟩⟩
    · simp [hone] at hb'
    · simp only [hone] at hb'
      rw [applyLogEntry] at hone
      split_ifs at hone
      · obtain rfl : b = b₁ := congrArg Prod.fst hone
        exact ih hP ha b' hb'
      · obtain ⟨hP₁, label₁, ha₁⟩ := hk.applyWriteset h₀ hpast l.ws hP ha b₁ hone
        exact ih hP₁ ha₁ b' hb'

/-- **The rule.**  What the turns keep holds after an attempt that succeeds. -/
theorem KeptByTurns.applyLog {s : Shared} (h : SharedOk s) (hne : s.masterTs ≠ s.latest.cpTs)
    (hk : KeptByTurns s.heap.next s.masterTs (· < s.masterTs) faults P)
    (hP : P ⟨s.heap, s.latest.root, []⟩)
    (hb : applyLog faults s.log s.latest.cpTs s.masterTs ⟨s.heap, s.latest.root, []⟩ =
      (b, .ok ())) :
    P b := by
  have hlt : s.latest.cpTs < s.masterTs := lt_of_le_of_ne h.latest.le (Ne.symm hne)
  rw [h.applyLog_eq hne] at hb
  exact hk.applyLogEntries (Nat.zero_lt_of_lt hlt) (lt_irrefl _) _ hP (h.attempt hne).building b hb

/-! ### The pages of an attempt are in the tree -/

/-- The offsets of a path are those of tables. -/
def Narrow (ρ : List ℕ) : Prop := ∀ k ∈ ρ, k < childrenPerNode

theorem narrow_pathOf (ino off : ℕ) : Narrow (pathOf ino off) := by
  intro k hk
  simp only [pathOf, List.mem_cons, List.not_mem_nil, or_false] at hk
  rw [childrenPerNode]
  omega

theorem Narrow.take {ρ ρ' : List ℕ} (h : Narrow ρ') (hpre : ρ <+: ρ') : Narrow ρ :=
  fun k hk => h k (hpre.subset hk)

/-- The pages made from `n₀` on are in the tree, and every page of the tree is below offsets
that a table has room for. -/
structure Spread (n₀ : ℕ) (b : Build) : Prop where
  grown : ∀ id, n₀ ≤ id → id < b.heap.next → ∃ ρ, At b.heap b.root ρ id
  narrow : ∀ ρ id, At b.heap b.root ρ id → Narrow ρ

/-- A turn of the loop that succeeds finds a page of the attempt, or makes one. -/
theorem cowPage_ok_cases {r : Ref} (h : b.cowPage faults ts level slot = (b₁, .ok r)) :
    (b₁ = b ∧ b.get slot = some r) ∨
      ((∀ old, b.get slot = some old → b.heap.checkpointTs old ≠ ts) ∧
        b₁.heap.next = b.heap.next + 1 ∧ r = .page b.heap.next) := by
  unfold Build.cowPage Build.newPage at h
  rcases hget : b.get slot with _ | old
  · cases hf : faults.page b.heap.next with
    | true => simp [hget, hf] at h
    | false =>
      simp only [hget, hf, Bool.false_eq_true, if_false, Prod.mk.injEq, Except.ok.injEq] at h
      obtain ⟨rfl, rfl⟩ := h
      exact .inr ⟨by simp, rfl, rfl⟩
  · simp only [hget] at h
    by_cases hold : b.heap.checkpointTs old = ts
    · simp only [hold, if_true, Prod.mk.injEq, Except.ok.injEq] at h
      obtain ⟨rfl, rfl⟩ := h
      exact .inl ⟨rfl, rfl⟩
    · have hother : ∀ c, some old = some c → b.heap.checkpointTs c ≠ ts := by
        rintro c ⟨⟩
        exact hold
      simp only [hold, if_false] at h
      cases hf : faults.page b.heap.next with
      | true => simp [hf] at h
      | false =>
        simp only [hf, Bool.false_eq_true, if_false] at h
        cases old with
        | zero =>
          simp only [Prod.mk.injEq, Except.ok.injEq] at h
          obtain ⟨rfl, rfl⟩ := h
          exact .inr ⟨hother, rfl, rfl⟩
        | page id =>
          cases hpush : faults.push b.heap.next with
          | true => simp [hpush] at h
          | false =>
            simp only [hpush, Bool.false_eq_true, if_false, Prod.mk.injEq, Except.ok.injEq] at h
            obtain ⟨rfl, rfl⟩ := h
            exact .inr ⟨hother, rfl, rfl⟩

/-- **A turn of the loop keeps the pages of the attempt in the tree.** -/
theorem Spread.kept : KeptByTurns n₀ ts past faults (Spread n₀) := by
  constructor
  · intro b b₁ label label' level slot π r ent hsp ha hs hcow hp hpath
    have hπ : Narrow π := (narrow_pathOf ent.ino ent.fileOffset).take hpath
    rcases cowPage_ok_cases hcow with ⟨rfl, hget⟩ | ⟨hold, hnext, rfl⟩
    · rw [put_get hs.slotIn hget]
      exact hsp
    · refine ⟨fun id hid hlt => ?_, fun ρ id hat => ?_⟩
      · rw [put_next, hnext] at hlt
        rcases Nat.lt_succ_iff_lt_or_eq.1 hlt with hlt | rfl
        · obtain ⟨ρ, hat⟩ := hsp.grown id hid hlt
          -- the page that is replaced is not one of the attempt
          have hρ : ρ ≠ π := by
            rintro rfl
            exact hold _ (hs.get.symm.trans hat) (ha.own_ts id hid hlt)
          exact ⟨ρ, (hp.at_cases hρ).2 hat⟩
        · exact ⟨π, hp.follow⟩
      · by_cases hρ : ρ = π
        · exact hρ ▸ hπ
        · exact hsp.narrow ρ id ((hp.at_cases hρ).1 hat)
  · intro b b' hsp hchild hroot hnext
    have hat : ∀ {ρ id}, At b'.heap b'.root ρ id ↔ At b.heap b.root ρ id := by
      intro ρ id
      rw [At, At, hchild, hroot]
    refine ⟨fun id hid hlt => ?_, fun ρ id h => hsp.narrow ρ id (hat.1 h)⟩
    obtain ⟨ρ, h⟩ := hsp.grown id hid (hnext ▸ hlt)
    exact ⟨ρ, hat.2 h⟩

/-- **Where the pages of `_sivfs_make_checkpoint` end up**, if it succeeds. -/
theorem SharedOk.applyLog_spread {s : Shared} (h : SharedOk s) (hne : s.masterTs ≠ s.latest.cpTs)
    (hnarrow : ∀ ρ id, At s.heap s.latest.root ρ id → Narrow ρ)
    (hb : applyLog faults s.log s.latest.cpTs s.masterTs ⟨s.heap, s.latest.root, []⟩ =
      (b, .ok ())) :
    Spread s.heap.next b :=
  Spread.kept.applyLog h hne ⟨fun _ hid hlt => absurd hlt (not_lt.2 hid), hnarrow⟩ hb

end Checkpoint
end Sivfs
