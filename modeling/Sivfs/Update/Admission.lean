/-
# What commit admits and the checkpointer can apply

`sivfs_add_metadata_to_changes` asks that an offset is below the size of the file,
which may be anything up to `s_maxbytes`; the inode number is whatever
`get_next_ino` gave, and checkpoints take numbers from the same counter.
`sivfs_checkpoint_iter_init` has three levels of nine bits for the inode number
and three for the page: it returns `-EINVAL` from inode `2^27` and from offset
`2^39` on.  By then the write is in the log, and `_sivfs_make_checkpoint` fails on
it each time it is called.

A write-set that the tagging loop leaves at the end of a file is committed too, with
the inode numbers and offsets that user space put into the rest of it, and with
entries there that no walk gets past.

Here commits come from the tagging loop; everything else is the machine of
commits, checkpoints and checkouts.  Up to the latest checkpoint everything has been
applied (`Settled`); what the checkpointer can do with the rest is
`checkpointable_iff_logApplicable`.
-/

import Sivfs.Update.Metadata
import Sivfs.Checkpoint.Persistent

namespace Sivfs
namespace Update

open Checkpoint

/-! ### Commits of tagged write-sets -/

/-- What happens. -/
inductive Event (ι : Type*) where
  /-- The transaction of a caller with these mappings, while the files have these
  sizes. -/
  | commit (mm : Mm) (iSize : ℕ → ℕ → ℕ) (ws : List WsEntry) (aborted : Bool)
  | makeCheckpoint (faults : MakeFaults)
  | checkout (i : ι)
  | update (i : ι)
  | pause (i : ι)

variable {ι : Type*}

/-- A write-set goes into the log as the tagging loop leaves it, unless it is
rejected. -/
def Event.act : Event ι → Option (Act ι)
  | .commit mm iSize ws aborted =>
    match addMetadataLoop mm iSize ws with
    | (ws, .done) | (ws, .stopped) => some (.commit aborted ws)
    | _ => none
  | .makeCheckpoint faults => some (.makeCheckpoint faults)
  | .checkout i => some (.checkout i)
  | .update i => some (.update i)
  | .pause i => some (.pause i)

/-- Commits come from the tagging loop. -/
def admission (ι : Type*) [DecidableEq ι] : Machine (State ι) (Event ι) where
  init := Init
  step s a := a.act.bind (step s)

/-- The checkpoint tree has room for the write. -/
def HasRoom (mm : Mm) (ent : WsEntry) : Prop :=
  ∀ vma, sivfsFindVma mm ent.address wordBytes true = .ok vma →
    vma.backingIno < 2 ^ 27 ∧ vma.fileOffset ent.address < 2 ^ 39

/-- The checkpointer can apply the entry as user space wrote it. -/
def ApplicableAsIs (ent : WsEntry) : Prop :=
  Applicable ent ∧ ent.fileOffset % wordBytes = 0

/-- What the event commits can be applied: there is room where the entries are tagged,
and those that are left untagged can be applied as they are. -/
def Event.Roomy : Event ι → Prop
  | .commit mm iSize ws aborted => aborted = false →
    (AllPass mm iSize ws → ∀ ent ∈ ws, HasRoom mm ent) ∧
      ∀ pre ent post, ws = pre ++ ent :: post → AllPass mm iSize pre →
        Overruns mm (iSize pre.length) ent →
          (∀ x ∈ pre, HasRoom mm x) ∧ ∀ x ∈ ent :: post, ApplicableAsIs x
  | _ => True

section Applied

variable {faults : Faults} {ts : ℕ}

/-- What is applied can be applied. -/
theorem applyWriteset_applicable (ws : List WsEntry) : ∀ {b b' : Build},
    applyWriteset faults ts ws b = (b', .ok ()) → ∀ ent ∈ ws, Applicable ent := by
  induction ws with
  | nil => simp
  | cons ent ws ih =>
    intro b b' h
    rw [applyWriteset] at h
    cases hinfo : headInfo ent ws with
    | error e => simp [hinfo] at h
    | ok info =>
      simp only [hinfo] at h
      have hone : ∀ b₁ r, applyChangeCheckpoint faults ts b ent = (b₁, r) → r = .ok () →
          InRange ent.ino ent.fileOffset := by
        intro b₁ r hres hr
        rw [applyChangeCheckpoint, checkpointIterInit_eq] at hres
        split_ifs at hres with hin
        · exact hin
        · obtain rfl := (Prod.mk.inj hres).2
          cases hr
      rcases hres : applyChangeCheckpoint faults ts b ent with ⟨b₁, e | ⟨⟩⟩
      · simp [hres] at h
      · simp only [hres] at h
        rw [List.forall_mem_cons]
        exact ⟨⟨isSome_of_headInfo hinfo, hone b₁ _ hres rfl⟩, ih h⟩

/-- **An attempt that succeeds has been able to apply everything.** -/
theorem applyLogEntries_applicable (log : List LogEntry) : ∀ {b b' : Build},
    applyLogEntries faults ts log b = (b', .ok ()) → ∀ ent ∈ liveEntries log, Applicable ent := by
  induction log with
  | nil => simp [liveEntries]
  | cons l log ih =>
    intro b b' h
    rw [applyLogEntries] at h
    rcases hres : applyLogEntry faults ts l b with ⟨b₁, e | ⟨⟩⟩
    · simp [hres] at h
    · simp only [hres] at h
      rw [liveEntries_cons]
      intro ent hent
      rcases List.mem_append.1 hent with hent | hent
      · rw [applyLogEntry] at hres
        cases hab : l.aborted with
        | true => simp [liveEntries, hab] at hent
        | false =>
          rw [hab] at hres
          exact applyWriteset_applicable l.ws hres ent (by simpa [liveEntries, hab] using hent)
      · exact ih h ent hent

end Applied

/-! ### The log -/

/-- The checkpointer can apply the live entries of the log. -/
def LogApplicable (log : List LogEntry) : Prop :=
  ∀ l ∈ log, l.aborted = false → ∀ ent ∈ l.ws, Applicable ent

/-- A log with one commit more. -/
theorem logApplicable_append {log : List LogEntry} {l : LogEntry} : LogApplicable (log ++ [l]) ↔
    LogApplicable log ∧ (l.aborted = false → ∀ ent ∈ l.ws, Applicable ent) := by
  simp [LogApplicable, or_imp, forall_and]

/-- What is in the latest checkpoint could be applied. -/
def Settled (s : Shared) : Prop :=
  ∀ l ∈ s.log, l.ts ≤ s.latest.cpTs → l.aborted = false → ∀ ent ∈ l.ws, Applicable ent

/-- An attempt that succeeds applies what is behind the latest checkpoint. -/
theorem SharedOk.applicable_of_applyLog {s : Shared} (h : SharedOk s)
    (hne : s.masterTs ≠ s.latest.cpTs) {faults : Faults} {b : Build}
    (hok : applyLog faults s.log s.latest.cpTs s.masterTs ⟨s.heap, s.latest.root, []⟩ =
      (b, .ok ())) {l : LogEntry} (hl : l ∈ s.log) (hts : s.latest.cpTs < l.ts)
    (hlive : l.aborted = false) : ∀ ent ∈ l.ws, Applicable ent := by
  rw [h.applyLog_eq hne] at hok
  intro ent hent
  refine applyLogEntries_applicable _ hok ent ?_
  have hcons := h.log.tsToLogEntry_eq (Nat.le_add_left 1 s.latest.cpTs)
  rw [Nat.add_sub_cancel] at hcons
  have hdrop := h.log.drop s.latest.cpTs
  obtain ⟨i, hi⟩ := List.mem_iff_getElem?.1 hl
  have hlast := h.log.ts_of_getElem? hi
  have hlt := (List.getElem?_eq_some_iff.1 hi).1
  have hmaster := h.masterTs
  simp only [liveEntries, List.mem_flatMap, List.mem_filter]
  refine ⟨l, ⟨?_, by simp [hlive]⟩, hent⟩
  rw [hcons, hdrop.upTo_eq, List.take_of_length_le (by rw [List.length_drop]; omega)]
  exact h.log.mem_drop_iff.2 ⟨hl, hts⟩

/-- Making a checkpoint leaves the log alone, and what it publishes it has applied. -/
theorem Settled.makeCheckpoint {s : Shared} (h : SharedOk s) (hs : Settled s)
    (faults : MakeFaults) :
    (Checkpoint.makeCheckpoint faults s).1.log = s.log ∧
      Settled (Checkpoint.makeCheckpoint faults s).1 := by
  rw [Checkpoint.makeCheckpoint]
  split_ifs with heq
  · exact ⟨rfl, hs⟩
  cases faults.setup with
  | some e => exact ⟨rfl, hs⟩
  | none =>
    rcases hres : applyLog faults.pages s.log s.latest.cpTs s.masterTs
      ⟨s.heap, s.latest.root, []⟩ with ⟨b, e | ⟨⟩⟩
    · exact ⟨rfl, hs⟩
    · cases faults.insert with
      | some e => exact ⟨rfl, hs⟩
      | none =>
        cases faults.mark with
        | some e => exact ⟨rfl, hs⟩
        | none =>
          refine ⟨rfl, fun l hl _ hlive => ?_⟩
          rcases Nat.lt_or_ge s.latest.cpTs l.ts with hlt | hge
          · exact SharedOk.applicable_of_applyLog h heq hres hl hlt hlive
          · exact hs l hl hge hlive

/-! ### Whole runs -/

/-- A tagged entry can be applied if its mapping has room. -/
theorem hasRoom_iff {mm : Mm} {iSize : ℕ → ℕ} {ent : WsEntry} (h : Passes mm iSize ent) :
    HasRoom mm ent ↔ Applicable (located mm ent) := by
  obtain ⟨vma, ha, -⟩ := h
  rw [ha.located]
  constructor
  · exact fun hroom => ⟨ha.wellFormed, hroom vma ha.found⟩
  · intro happ vma' hfound
    obtain rfl := Except.ok.inj (ha.found.symm.trans hfound)
    exact happ.2

/-- Each entry of a write-set that passes does. -/
theorem AllPass.forall_mem {mm : Mm} {iSize : ℕ → ℕ → ℕ} {ws : List WsEntry}
    (h : AllPass mm iSize ws) : ∀ ent ∈ ws, ∃ k, Passes mm (iSize k) ent := by
  intro ent hent
  obtain ⟨k, hk⟩ := List.mem_iff_getElem?.1 hent
  exact ⟨k, h k ent hk⟩

/-- Tags that can be applied come from files that have room. -/
theorem AllPass.hasRoom_iff {mm : Mm} {iSize : ℕ → ℕ → ℕ} {ws : List WsEntry}
    (h : AllPass mm iSize ws) :
    (∀ ent ∈ ws.map (located mm), Applicable ent) ↔ ∀ ent ∈ ws, HasRoom mm ent := by
  rw [List.forall_mem_map]
  refine forall₂_congr fun ent hent => ?_
  obtain ⟨k, hk⟩ := h.forall_mem ent hent
  exact (Update.hasRoom_iff hk).symm

/-- A commit is of a write-set that passed, or of one that was cut short. -/
theorem Event.act_commit {mm : Mm} {iSize : ℕ → ℕ → ℕ} {ws : List WsEntry} {aborted : Bool}
    {a : Act ι} (h : (Event.commit mm iSize ws aborted).act = some a) :
    (AllPass mm iSize ws ∧ a = .commit aborted (ws.map (located mm))) ∨
      ∃ pre ent post, ws = pre ++ ent :: post ∧ AllPass mm iSize pre ∧
        Overruns mm (iSize pre.length) ent ∧
        a = .commit aborted (pre.map (located mm) ++ ent :: post) := by
  by_cases hpass : AllPass mm iSize ws
  · rw [Event.act, addMetadataLoop_of_allPass hpass] at h
    exact .inl ⟨hpass, (Option.some.inj h).symm⟩
  · by_cases hcut : CutShort mm iSize ws
    · obtain ⟨pre, ent, post, rfl, hpre, hent⟩ := hcut
      rw [Event.act, addMetadataLoop_of_cutShort post hpre hent] at h
      exact .inr ⟨pre, ent, post, rfl, hpre, hent, (Option.some.inj h).symm⟩
    · obtain ⟨ws', e, he⟩ := addMetadataLoop_error hpass hcut
      rw [Event.act, he] at h
      simp at h

/-- The entry at which a write-set is cut short is the first that does not pass. -/
theorem cutShort_unique {mm : Mm} {iSize : ℕ → ℕ → ℕ} {pre pre' post post' : List WsEntry}
    {ent ent' : WsEntry} (heq : pre ++ ent :: post = pre' ++ ent' :: post')
    (hpre : AllPass mm iSize pre) (hent : Overruns mm (iSize pre.length) ent)
    (hpre' : AllPass mm iSize pre') (hent' : Overruns mm (iSize pre'.length) ent') :
    pre = pre' ∧ ent = ent' ∧ post = post' := by
  have hlt : ∀ {p q r r' : List WsEntry} {x y : WsEntry}, p ++ x :: r = q ++ y :: r' →
      AllPass mm iSize q → Overruns mm (iSize p.length) x → q.length ≤ p.length := by
    intro p q r r' x y h hq hx
    by_contra hle
    have hpre : (q ++ y :: r')[p.length]? = q[p.length]? :=
      List.getElem?_append_left (not_le.1 hle)
    have hget : q[p.length]? = some x := by
      rw [← hpre, ← h]
      simp
    exact (hq _ _ hget).not_overruns hx
  have hlen : pre.length = pre'.length :=
    le_antisymm (hlt heq.symm hpre hent') (hlt heq hpre' hent)
  obtain ⟨rfl, htail⟩ := List.append_inj heq hlen
  obtain ⟨rfl, rfl⟩ := List.cons.inj htail
  exact ⟨rfl, rfl, rfl⟩

/-- **What a commit puts into the log can be applied exactly when the event is
roomy.** -/
theorem Event.roomy_iff {mm : Mm} {iSize : ℕ → ℕ → ℕ} {ws ws' : List WsEntry} {aborted : Bool}
    (h : (Event.commit (ι := ι) mm iSize ws aborted).act = some (.commit aborted ws'))
    (halign : ∀ ent ∈ ws', ent.fileOffset % wordBytes = 0) :
    (aborted = false → ∀ ent ∈ ws', Applicable ent) ↔
      (Event.commit (ι := ι) mm iSize ws aborted).Roomy := by
  refine imp_congr_right fun _ => ?_
  rcases Event.act_commit h with ⟨hpass, ha⟩ | ⟨pre, ent, post, rfl, hpre, hent, ha⟩
  · obtain ⟨-, rfl⟩ := Act.commit.inj ha
    rw [hpass.hasRoom_iff]
    refine ⟨fun hroom => ⟨fun _ => hroom, fun pre ent post heq hpre hent => ?_⟩,
      fun hroom => hroom.1 hpass⟩
    exact absurd ⟨pre, ent, post, heq, hpre, hent⟩ hpass.not_cutShort
  · obtain ⟨-, rfl⟩ := Act.commit.inj ha
    rw [List.forall_mem_append, hpre.hasRoom_iff]
    constructor
    · rintro ⟨hroom, hrest⟩
      refine ⟨fun hpass => absurd ⟨pre, ent, post, rfl, hpre, hent⟩ hpass.not_cutShort,
        fun pre' ent' post' heq hpre' hent' => ?_⟩
      obtain ⟨rfl, rfl, rfl⟩ := cutShort_unique heq hpre hent hpre' hent'
      exact ⟨hroom, fun x hx => ⟨hrest x hx, halign x (List.mem_append_right _ hx)⟩⟩
    · rintro ⟨-, hcut⟩
      obtain ⟨hroom, hrest⟩ := hcut pre ent post rfl hpre hent
      exact ⟨hroom, fun x hx => (hrest x hx).1⟩

variable [DecidableEq ι] {s s' : State ι}

/-- What the runs keep. -/
structure AdmissionInv (s : State ι) : Prop where
  inv : Inv s
  settled : Settled s.toShared

/-- **What a step adds to the log can be applied if the event is roomy.** -/
theorem AdmissionInv.step {a : Event ι} (hi : AdmissionInv s)
    (h : (admission ι).step s a = some s') :
    AdmissionInv s' ∧ (LogApplicable s'.log ↔ LogApplicable s.log ∧ a.Roomy) := by
  obtain ⟨b, hb, hstep⟩ := Option.bind_eq_some_iff.1 h
  have hinv : Inv s' := hi.inv.step hstep
  cases a with
  | commit mm iSize ws aborted =>
    obtain ⟨ws', rfl⟩ : ∃ ws', b = .commit aborted ws' := by
      rcases Event.act_commit hb with ⟨-, rfl⟩ | ⟨_, _, _, -, -, -, rfl⟩ <;> exact ⟨_, rfl⟩
    simp only [Checkpoint.step] at hstep
    split_ifs at hstep with halign
    obtain rfl := Option.some.inj hstep
    refine ⟨⟨hinv, fun l hl hle => ?_⟩, ?_⟩
    · rcases List.mem_append.1 hl with hl | hl
      · exact hi.settled l hl hle
      · obtain rfl := List.mem_singleton.1 hl
        have hcp : s.latest.cpTs ≤ s.masterTs := hi.inv.shared.latest.le
        exact absurd (show s.masterTs + 1 ≤ s.latest.cpTs from hle) (by omega)
    · rw [logApplicable_append, ← Event.roomy_iff hb halign]
  | makeCheckpoint faults =>
    obtain rfl := Option.some.inj hb
    obtain rfl := Option.some.inj hstep
    obtain ⟨hlog, hsettled⟩ := hi.settled.makeCheckpoint hi.inv.shared faults
    refine ⟨⟨hinv, hsettled⟩, ?_⟩
    change LogApplicable (Checkpoint.makeCheckpoint faults s.toShared).1.log ↔ _
    rw [hlog]
    exact (and_iff_left trivial).symm
  | checkout i | update i | pause i =>
    obtain rfl := Option.some.inj hb
    obtain rfl := Option.some.inj hstep
    exact ⟨⟨hinv, hi.settled⟩, (and_iff_left trivial).symm⟩

/-- **The run**: the log can be applied if and only if every event had room. -/
theorem AdmissionInv.run {as : List (Event ι)} (hi : AdmissionInv s)
    (h : (admission ι).run (fun _ _ => true) s as = some s') :
    AdmissionInv s' ∧ (LogApplicable s'.log ↔ LogApplicable s.log ∧ ∀ a ∈ as, a.Roomy) := by
  induction as generalizing s with
  | nil =>
    obtain rfl := Option.some.inj h
    exact ⟨hi, by simp⟩
  | cons a as ih =>
    rw [Machine.run, if_pos rfl] at h
    obtain ⟨s₁, hstep, hrun⟩ := Option.bind_eq_some_iff.1 h
    obtain ⟨hi₁, hone⟩ := hi.step hstep
    obtain ⟨hi', hrest⟩ := ih hi₁ hrun
    exact ⟨hi', by rw [hrest, hone, List.forall_mem_cons, and_assoc]⟩

/-- No page of a checkpoint is refused. -/
def noFaults : MakeFaults := ⟨none, ⟨fun _ => false, fun _ => false⟩, none, none⟩

end Update
end Sivfs
