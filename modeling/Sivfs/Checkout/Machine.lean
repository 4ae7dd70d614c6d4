/-
# Checking out, publishing and collecting checkpoints

One machine for the threads of `my_sivfs_commit_update` (`options == 0`), the
checkpoint thread (`sivfs_make_checkpoint`), the two collectors
(`sivfs_gc_checkpoints`, `sivfs_gc_log`) and the committers that move
`commit_started_ts` and `master_ts` and append to the log.

The turns of each, in order:

* a thread reads `latest.ts`, reads `latest.checkpoint`, stores `checkpoint_ts`, reads
  `latest.ts` again, reads `master_ts`, updates, and stores `prior_checkpoint_ts`;
* a thread that pauses stores `ts`, `checkpoint_ts`, `prior_checkpoint_ts` and `checkpoint`;
* the checkpoint thread copies pages of the last checkpoint, stamps and marks what is
  obsolete, and stores `INVALID` to `latest.ts`, then `latest.checkpoint`, `latest.ts` and
  `latest_checkpoint_published`;
* a collector reads `latest_checkpoint_published`, takes `threads_lock`, reads
  `checkpoint_ts` and `prior_checkpoint_ts` of each thread, and frees.

A checkpoint is the set of pages reachable from its root.  Copying page `p` to a
new page `q` puts `q` in its place, stamps `p` with the timestamp at which it is
obsolete, and remembers `p` for the collector.  Pages that stand for all-zero
memory are shared by every checkpoint, never freed, and left out.
-/

import Sivfs.Basic
import Sivfs.Lib.Machine
import Sivfs.Lib.TwoSlot
import Mathlib.Logic.Function.Basic

open TwoSlot

namespace Sivfs
namespace Checkout

/-- A checkpoint inode: `cp_ts`, `obsoleted_ts` and the pages under `cp_root`. -/
structure Checkpoint where
  cpTs : ℕ
  obsoletedTs : Ts
  reach : List ℕ
  /-- Past the point of no return of `sivfs_make_checkpoint`. -/
  committed : Bool
  deriving DecidableEq

/-- `struct sivfs_checkpoint_pginfo`. -/
structure Page where
  checkpointTs : ℕ
  obsoletedTs : Ts
  deriving DecidableEq

/-- `sivfs_gc_entry`: a page or a checkpoint inode. -/
inductive GcEntry where
  | page (p : ℕ)
  | inode (c : ℕ)
  deriving DecidableEq

/-- Where a thread is; `v` is its local `checkpoint_ts`. -/
inductive Pc where
  | idle
  | readLatest
  | readPtr (v : Ts)
  | publish (v : Ts)
  | validate (v : Ts)
  | reread
  | nullCheck (v : Ts)
  | readMaster (v : Ts)
  | update (v : Ts) (nextTs : ℕ)
  | advance (v : Ts)
  | ret (ok : Bool)
  | pauseTs
  | pauseCheckpointTs
  | pausePrior
  | pausePtr
  deriving DecidableEq

/-- `struct sivfs_state`. -/
structure Thread where
  ts : Ts
  checkpoint : Option ℕ
  /-- `checkpoint_ts` and `prior_checkpoint_ts`. -/
  slots : Slots ℕ
  pc : Pc

/-- `sivfs_new_state`. -/
def newState : Thread := ⟨invalidTs, none, .empty, .idle⟩

/-- The four stores of `_sivfs_checkpoints_insert_finish`. -/
inductive FinishStage where
  | hide
  | point
  | reveal
  | announce
  deriving DecidableEq

/-- Where the checkpoint thread is: `new` and `prior` are inodes, `ts` is
`next_ts`. -/
inductive MakerPc where
  | idle
  | build (new prior ts : ℕ) (obsoletedPages : List ℕ)
  | stamp (new prior ts : ℕ) (obsoletedPages : List ℕ)
  | mark (new prior ts : ℕ) (obsoletedPages : List ℕ)
  | finish (stage : FinishStage) (new ts : ℕ)

/-- The two collectors. -/
inductive Collector where
  | checkpoints
  | log
  deriving DecidableEq

/-- Where a collector is; `latest` is its `latest_snapshot`. -/
inductive GcPc (ι : Type*) where
  | idle
  | readPublished
  | scan (latest : ℕ) (sc : Scan ι ℕ)

/-- What the threads share, and the threads. -/
structure State (ι : Type*) where
  masterTs : ℕ
  commitStartedTs : ℕ
  /-- `log_cache`: the `next` pointer of every entry that is there. -/
  log : ℕ → Option (Option ℕ)
  deletedTs : ℕ
  /-- `latest_checkpoint.ts`. -/
  latestTs : Ts
  /-- `latest_checkpoint.checkpoint`. -/
  latestCp : Option ℕ
  /-- `latest_checkpoint_published`. -/
  published : ℕ
  cps : ℕ → Option Checkpoint
  pages : ℕ → Option Page
  obsoletedEntries : List GcEntry
  gcBlockedEntries : Ts → List GcEntry
  /-- What `sivfs_gc_free_entry` was called on. -/
  freed : List GcEntry
  maker : MakerPc
  gc : Collector → GcPc ι
  threadsLock : Option Collector
  registered : List ι
  threads : ι → Thread

/-! ### Committers -/

section Steps

variable {ι : Type*} [DecidableEq ι]

/-- `sivfs_create_log_entry` and `commit_started_ts`, under `commit_lock`. -/
def append (s : State ι) : State ι :=
  let n := s.commitStartedTs + 1
  { s with
    commitStartedTs := n
    log := Function.update
      (fun t => if t = s.commitStartedTs then (s.log t).map fun _ => some n else s.log t) n
      (some none) }

/-- `master_ts` moves on. -/
def release (s : State ι) : Option (State ι) :=
  if s.masterTs < s.commitStartedTs then some { s with masterTs := s.masterTs + 1 } else none

/-- `sivfs_ts_to_log_entry`. -/
def tsToLogEntry (s : State ι) (ts tsStart : ℕ) : Except Errno (Option (Option ℕ)) :=
  if tsStart < s.deletedTs then .error .enomem else .ok (s.log ts)

/-! ### The checkpoint thread -/

/-- The turns of the checkpoint thread. -/
inductive MakerAct where
  /-- Begin with a new inode. -/
  | start (new : ℕ)
  /-- Copy page `p` to page `q`. -/
  | cow (p q : ℕ)
  /-- Stamp page `p`, then run out of memory. -/
  | cowFails (p : ℕ)
  /-- Add page `q` where there was none. -/
  | grow (q : ℕ)
  /-- `_sivfs_checkpoints_insert`. -/
  | insert
  /-- `prior_cpinfo->obsoleted_ts = next_ts`. -/
  | stamp
  /-- `sivfs_gc_mark_pages_obsoleted`. -/
  | mark
  /-- The next store of `_sivfs_checkpoints_insert_finish`. -/
  | finish
  /-- An error before the point of no return. -/
  | fail

/-- Page `p` is obsolete from `ts` on. -/
def stampPage (pages : ℕ → Option Page) (p ts : ℕ) : ℕ → Option Page :=
  Function.update pages p ((pages p).map fun pg => { pg with obsoletedTs := (ts : Ts) })

/-- A turn of `sivfs_make_checkpoint`. -/
def makerStep (s : State ι) : MakerAct → Option (State ι)
  | .start new =>
    match s.maker, s.latestCp with
    | .idle, some c =>
      match s.cps c with
      | some cp =>
        if s.latestTs = (s.masterTs : Ts) ∨ s.latestTs ≠ (cp.cpTs : Ts) ∨ (s.cps new).isSome then
          none
        else some { s with
          cps := Function.update s.cps new (some ⟨s.masterTs, ⊤, cp.reach, false⟩)
          maker := .build new c s.masterTs [] }
      | none => none
    | _, _ => none
  | .cow p q =>
    match s.maker with
    | .build new prior ts obsoletedPages =>
      match s.cps new, s.pages p with
      | some cp, some pg =>
        if p ∈ cp.reach ∧ pg.checkpointTs ≠ ts ∧ s.pages q = none then
          some { s with
            pages := Function.update (stampPage s.pages p ts) q (some ⟨ts, ⊤⟩)
            cps := Function.update s.cps new
              (some { cp with reach := q :: cp.reach.filter (· ≠ p) })
            maker := .build new prior ts (p :: obsoletedPages) }
        else none
      | _, _ => none
    | _ => none
  | .cowFails p =>
    match s.maker with
    | .build new _ ts _ =>
      match s.cps new, s.pages p with
      | some cp, some pg =>
        if p ∈ cp.reach ∧ pg.checkpointTs ≠ ts then
          some { s with
            pages := stampPage s.pages p ts
            cps := Function.update s.cps new none
            maker := .idle }
        else none
      | _, _ => none
    | _ => none
  | .grow q =>
    match s.maker with
    | .build new _ ts _ =>
      match s.cps new with
      | some cp =>
        if s.pages q = none then
          some { s with
            pages := Function.update s.pages q (some ⟨ts, ⊤⟩)
            cps := Function.update s.cps new (some { cp with reach := q :: cp.reach }) }
        else none
      | none => none
    | _ => none
  | .insert =>
    match s.maker with
    | .build new prior ts obsoletedPages =>
      some { s with maker := .stamp new prior ts obsoletedPages }
    | _ => none
  | .stamp =>
    match s.maker with
    | .stamp new prior ts obsoletedPages =>
      some { s with
        cps := Function.update s.cps prior
          ((s.cps prior).map fun cp => { cp with obsoletedTs := (ts : Ts) })
        maker := .mark new prior ts obsoletedPages }
    | _ => none
  | .mark =>
    match s.maker with
    | .mark new prior ts obsoletedPages =>
      some { s with
        obsoletedEntries := s.obsoletedEntries ++ obsoletedPages.map .page ++ [.inode prior]
        cps := Function.update s.cps new ((s.cps new).map fun cp => { cp with committed := true })
        maker := .finish .hide new ts }
    | _ => none
  | .finish =>
    match s.maker with
    | .finish .hide new ts =>
      some { s with latestTs := invalidTs, maker := .finish .point new ts }
    | .finish .point new ts =>
      some { s with latestCp := some new, maker := .finish .reveal new ts }
    | .finish .reveal new ts =>
      some { s with latestTs := (ts : Ts), maker := .finish .announce new ts }
    | .finish .announce _ ts => some { s with published := ts, maker := .idle }
    | _ => none
  | .fail =>
    match s.maker with
    | .build new _ _ _ | .stamp new _ _ _ | .mark new _ _ _ =>
      some { s with cps := Function.update s.cps new none, maker := .idle }
    | _ => none

/-! ### The collectors -/

/-- The turns of a collector. -/
inductive GcAct where
  /-- Begin; `sivfs_gc_checkpoints` takes over `obsoleted_entries` first. -/
  | begin
  /-- The next read. -/
  | next
  /-- `sivfs_gc_or_reassign_entry` on the top of group `g`. -/
  | sweep (g : Ts)
  /-- `sivfs_delete_log` takes entry `t` out. -/
  | delete (t : ℕ)
  /-- Done, or given up. -/
  | stop

/-- `sivfs_gc_entry_to_lifetime`. -/
def gcEntryToLifetime (s : State ι) : GcEntry → Option (ℕ × Ts)
  | .page p => (s.pages p).map fun pg => (pg.checkpointTs, pg.obsoletedTs)
  | .inode c => (s.cps c).map fun cp => (cp.cpTs, cp.obsoletedTs)

/-- `sivfs_ts_range_contains`. -/
def tsRangeContains (start stop ts : Ts) : Bool := start ≤ ts ∧ ts < stop

/-- The group `sivfs_gc_or_reassign_entry` moves an entry to; `⊤` if it frees
the entry. -/
def reassignTo (latest : ℕ) (seen : List Ts) (start : ℕ) (obsoleted : Ts) : Ts :=
  if (latest : Ts) < obsoleted then (latest : Ts)
  else seen.foldl (fun r blocker => if tsRangeContains start obsoleted blocker then blocker else r)
    invalidTs

/-- The group is passed over. -/
def stillBlocked (latest : ℕ) (seen : List Ts) (g : Ts) : Bool :=
  g ≠ invalidTs ∧ ((latest : Ts) ≤ g ∨ g ∈ seen)

/-- `stop_ts` of `sivfs_gc_log`. -/
def stopTs (latest : ℕ) (seen : List Ts) : Ts := seen.foldl min (latest : Ts)

/-- Collector `k` goes on at `pc`. -/
def State.setGc (s : State ι) (k : Collector) (pc : GcPc ι) : State ι :=
  { s with gc := Function.update s.gc k pc }

/-- A turn of a collector. -/
def gcStep (s : State ι) (k : Collector) : GcAct → Option (State ι)
  | .begin =>
    match s.gc k, k with
    | .idle, .checkpoints =>
      let s := s.setGc k .readPublished
      some { s with
        gcBlockedEntries := Function.update s.gcBlockedEntries invalidTs
          (s.gcBlockedEntries invalidTs ++ s.obsoletedEntries)
        obsoletedEntries := [] }
    | .idle, .log => some (s.setGc k .readPublished)
    | _, _ => none
  | .next =>
    match s.gc k with
    | .readPublished => some (s.setGc k (.scan s.published .waiting))
    | .scan latest .waiting =>
      if s.threadsLock = none then
        let s := s.setGc k (.scan latest (.current s.registered []))
        some { s with threadsLock := some k }
      else none
    | .scan latest (.current (i :: rest) seen) =>
      some (s.setGc k (.scan latest (.prior i rest ((s.threads i).slots.current :: seen))))
    | .scan latest (.prior i rest seen) =>
      some (s.setGc k (.scan latest (.current rest ((s.threads i).slots.prior :: seen))))
    | .scan latest (.current [] seen) =>
      let s := s.setGc k (.scan latest (.done seen))
      some { s with threadsLock := none }
    | _ => none
  | .sweep g =>
    match k, s.gc k, s.gcBlockedEntries g with
    | .checkpoints, .scan latest (.done seen), e :: _ =>
      if stillBlocked latest seen g then none
      else
        match gcEntryToLifetime s e with
        | none => none
        | some (start, obsoleted) =>
          let r := reassignTo latest seen start obsoleted
          let blocked :=
            if r = invalidTs then s.gcBlockedEntries
            else Function.update s.gcBlockedEntries r (e :: s.gcBlockedEntries r)
          some { s with
            gcBlockedEntries := Function.update blocked g (blocked g).tail
            freed := if r = invalidTs then e :: s.freed else s.freed }
    | _, _, _ => none
  | .delete t =>
    match k, s.gc k with
    | .log, .scan latest (.done seen) =>
      if (t : Ts) < stopTs latest seen ∧ (s.log t).isSome ∧ ∀ u < t, s.log u = none then
        some { s with log := Function.update s.log t none }
      else none
    | _, _ => none
  | .stop =>
    let s' := s.setGc k .idle
    match k, s.gc k with
    | .log, .scan latest (.done seen) =>
      if ∀ u < (stopTs latest seen).untopD 0, s.log u = none then
        some { s' with deletedTs := (stopTs latest seen).untopD 0 }
      else none
    | .checkpoints, .scan _ (.done _) => some s'
    | _, .readPublished | _, .scan _ .waiting => some s'
    | _, .scan _ (.current _ _) | _, .scan _ (.prior _ _ _) => some { s' with threadsLock := none }
    | _, .idle => none

/-! ### The threads -/

/-- The turns of a thread. -/
inductive ThreadAct where
  /-- `sivfs_get_task_state`. -/
  | register
  /-- `sivfs_put_task_state`. -/
  | unregister
  /-- A call of `my_sivfs_commit_update` comes to the checkpoints. -/
  | call
  /-- A call returns an error before that. -/
  | callFails
  /-- `sivfs_ioctl_txn_pause`. -/
  | pause
  /-- The next access. -/
  | next
  /-- `sivfs_update` fails. -/
  | updateFails

/-- Thread `i` has become `th`. -/
def State.setThread (s : State ι) (i : ι) (th : Thread) : State ι :=
  { s with threads := Function.update s.threads i th }

/-- The next access of a thread. -/
def threadNext (s : State ι) (th : Thread) : Option Thread :=
  match th.pc with
  | .idle => none
  | .readLatest =>
    if th.slots.current = s.latestTs then some { th with pc := .readMaster s.latestTs }
    else some { th with pc := .readPtr s.latestTs }
  | .readPtr v => some { th with checkpoint := s.latestCp, pc := .publish v }
  | .publish v => some { th with slots := th.slots.announce v, pc := .validate v }
  | .validate v =>
    if s.latestTs = v ∧ v ≠ invalidTs then
      some { th with slots := th.slots.confirm, pc := .nullCheck v }
    else some { th with pc := .reread }
  | .reread => some { th with pc := .readPtr s.latestTs }
  | .nullCheck v =>
    if th.checkpoint = none then some { th with pc := .ret false }
    else some { th with pc := .readMaster v }
  | .readMaster v => some { th with pc := .update v s.masterTs }
  | .update v nextTs => some { th with ts := (nextTs : Ts), pc := .advance v }
  | .advance v =>
    if th.slots.prior ≠ v then some { th with slots := th.slots.advance, pc := .ret true }
    else some { th with pc := .ret true }
  | .ret _ => some { th with pc := .idle }
  | .pauseTs => some { th with ts := invalidTs, pc := .pauseCheckpointTs }
  | .pauseCheckpointTs =>
    some { th with slots := th.slots.announce invalidTs, pc := .pausePrior }
  | .pausePrior => some { th with slots := th.slots.dropPrior, pc := .pausePtr }
  | .pausePtr => some { th with checkpoint := none, pc := .idle }

/-- A turn of thread `i`. -/
def threadStep (s : State ι) (i : ι) : ThreadAct → Option (State ι)
  | .register =>
    if i ∉ s.registered ∧ s.threadsLock = none then
      some { s with
        registered := s.registered ++ [i]
        threads := Function.update s.threads i newState }
    else none
  | .unregister =>
    if i ∈ s.registered ∧ s.threadsLock = none ∧ (s.threads i).pc = .idle then
      some { s with
        registered := s.registered.filter (· ≠ i)
        threads := Function.update s.threads i newState }
    else none
  | .call =>
    if i ∈ s.registered ∧ (s.threads i).pc = .idle then
      some (s.setThread i { s.threads i with pc := .readLatest })
    else none
  | .callFails =>
    if i ∈ s.registered ∧ (s.threads i).pc = .idle then
      some (s.setThread i { s.threads i with pc := .ret false })
    else none
  | .pause =>
    if i ∈ s.registered ∧ (s.threads i).pc = .idle then
      some (s.setThread i { s.threads i with pc := .pauseTs })
    else none
  | .next => (threadNext s (s.threads i)).map fun th => s.setThread i th
  | .updateFails =>
    match (s.threads i).pc with
    | .update _ _ => some (s.setThread i { s.threads i with pc := .ret false })
    | _ => none

/-! ### The machine -/

/-- The turns a run is made of. -/
inductive Act (ι : Type*) where
  | append
  | release
  | maker (a : MakerAct)
  | gc (k : Collector) (a : GcAct)
  | thread (i : ι) (a : ThreadAct)

/-- One turn. -/
def step (s : State ι) : Act ι → Option (State ι)
  | .append => some (append s)
  | .release => release s
  | .maker a => makerStep s a
  | .gc k a => gcStep s k a
  | .thread i a => threadStep s i a

/-- After mounting: an empty checkpoint at time `0` is published, and no thread
is registered. -/
def Init (s : State ι) : Prop :=
  s.masterTs = 0 ∧ s.commitStartedTs = 0 ∧ (∀ t, s.log t = none) ∧ s.deletedTs = 0 ∧
    s.latestTs = ((0 : ℕ) : Ts) ∧ s.latestCp = some 0 ∧ s.published = 0 ∧
    (∀ c, s.cps c = if c = 0 then some ⟨0, ⊤, [], true⟩ else none) ∧ (∀ p, s.pages p = none) ∧
    s.obsoletedEntries = [] ∧ (∀ g, s.gcBlockedEntries g = []) ∧ s.freed = [] ∧
    s.maker = .idle ∧ (∀ k, s.gc k = .idle) ∧ s.threadsLock = none ∧ s.registered = [] ∧
    ∀ i, s.threads i = newState

/-- Checking out, publishing and collecting, for the threads `ι`. -/
def machine (ι : Type*) [DecidableEq ι] : Machine (State ι) (Act ι) where
  init := Init
  step := step

/-! ### What a turn can do -/

/-- The turns of the checkpoint thread. -/
inductive MakerTurn (s : State ι) : State ι → Prop where
  | start {new c : ℕ} {cp : Checkpoint} : s.maker = .idle → s.latestCp = some c →
      s.cps c = some cp → s.latestTs = (cp.cpTs : Ts) → s.latestTs ≠ (s.masterTs : Ts) →
      s.cps new = none →
      MakerTurn s { s with
        cps := Function.update s.cps new (some ⟨s.masterTs, ⊤, cp.reach, false⟩)
        maker := .build new c s.masterTs [] }
  | cow {new prior ts p q : ℕ} {stack : List ℕ} {cp : Checkpoint} {pg : Page} :
      s.maker = .build new prior ts stack → s.cps new = some cp → s.pages p = some pg →
      p ∈ cp.reach → pg.checkpointTs ≠ ts → s.pages q = none →
      MakerTurn s { s with
        pages := Function.update (stampPage s.pages p ts) q (some ⟨ts, ⊤⟩)
        cps := Function.update s.cps new (some { cp with reach := q :: cp.reach.filter (· ≠ p) })
        maker := .build new prior ts (p :: stack) }
  | cowFails {new prior ts p : ℕ} {stack : List ℕ} {cp : Checkpoint} {pg : Page} :
      s.maker = .build new prior ts stack → s.cps new = some cp → s.pages p = some pg →
      p ∈ cp.reach → pg.checkpointTs ≠ ts →
      MakerTurn s { s with
        pages := stampPage s.pages p ts
        cps := Function.update s.cps new none
        maker := .idle }
  | grow {new prior ts q : ℕ} {stack : List ℕ} {cp : Checkpoint} :
      s.maker = .build new prior ts stack → s.cps new = some cp → s.pages q = none →
      MakerTurn s { s with
        pages := Function.update s.pages q (some ⟨ts, ⊤⟩)
        cps := Function.update s.cps new (some { cp with reach := q :: cp.reach }) }
  | insert {new prior ts : ℕ} {stack : List ℕ} : s.maker = .build new prior ts stack →
      MakerTurn s { s with maker := .stamp new prior ts stack }
  | stamp {new prior ts : ℕ} {stack : List ℕ} : s.maker = .stamp new prior ts stack →
      MakerTurn s { s with
        cps := Function.update s.cps prior
          ((s.cps prior).map fun cp => { cp with obsoletedTs := (ts : Ts) })
        maker := .mark new prior ts stack }
  | mark {new prior ts : ℕ} {stack : List ℕ} : s.maker = .mark new prior ts stack →
      MakerTurn s { s with
        obsoletedEntries := s.obsoletedEntries ++ stack.map .page ++ [.inode prior]
        cps := Function.update s.cps new ((s.cps new).map fun cp => { cp with committed := true })
        maker := .finish .hide new ts }
  | hide {new ts : ℕ} : s.maker = .finish .hide new ts →
      MakerTurn s { s with latestTs := invalidTs, maker := .finish .point new ts }
  | point {new ts : ℕ} : s.maker = .finish .point new ts →
      MakerTurn s { s with latestCp := some new, maker := .finish .reveal new ts }
  | reveal {new ts : ℕ} : s.maker = .finish .reveal new ts →
      MakerTurn s { s with latestTs := (ts : Ts), maker := .finish .announce new ts }
  | announce {new ts : ℕ} : s.maker = .finish .announce new ts →
      MakerTurn s { s with published := ts, maker := .idle }
  | fail {new prior ts : ℕ} {stack : List ℕ} : s.maker = .build new prior ts stack ∨
      s.maker = .stamp new prior ts stack ∨ s.maker = .mark new prior ts stack →
      MakerTurn s { s with cps := Function.update s.cps new none, maker := .idle }

omit [DecidableEq ι] in
/-- What the checkpoint thread can do, turn by turn. -/
theorem makerStep_turn {s s' : State ι} {a : MakerAct} (h : makerStep s a = some s') :
    MakerTurn s s' := by
  cases a with
  | start new =>
    simp only [makerStep] at h
    split at h
    · rename_i c hm hc
      split at h
      · rename_i cp hcp
        split_ifs at h with hcond
        obtain rfl := Option.some.inj h
        push Not at hcond
        exact .start hm hc hcp hcond.2.1 hcond.1 (by simpa using hcond.2.2)
      · simp at h
    · simp at h
  | cow p q =>
    simp only [makerStep] at h
    split at h
    · rename_i new prior ts stack hm
      split at h
      · rename_i cp pg hcp hpg
        split_ifs at h with hcond
        obtain rfl := Option.some.inj h
        exact .cow hm hcp hpg hcond.1 hcond.2.1 hcond.2.2
      · simp at h
    · simp at h
  | cowFails p =>
    simp only [makerStep] at h
    split at h
    · rename_i new prior ts stack hm
      split at h
      · rename_i cp pg hcp hpg
        split_ifs at h with hcond
        obtain rfl := Option.some.inj h
        exact .cowFails hm hcp hpg hcond.1 hcond.2
      · simp at h
    · simp at h
  | grow q =>
    simp only [makerStep] at h
    split at h
    · rename_i new prior ts stack hm
      split at h
      · rename_i cp hcp
        split_ifs at h with hcond
        obtain rfl := Option.some.inj h
        exact .grow hm hcp hcond
      · simp at h
    · simp at h
  | insert =>
    simp only [makerStep] at h
    split at h
    · rename_i hm
      obtain rfl := Option.some.inj h
      exact .insert hm
    · simp at h
  | stamp =>
    simp only [makerStep] at h
    split at h
    · rename_i hm
      obtain rfl := Option.some.inj h
      exact .stamp hm
    · simp at h
  | mark =>
    simp only [makerStep] at h
    split at h
    · rename_i hm
      obtain rfl := Option.some.inj h
      exact .mark hm
    · simp at h
  | finish =>
    simp only [makerStep] at h
    split at h
    · rename_i hm
      obtain rfl := Option.some.inj h
      exact .hide hm
    · rename_i hm
      obtain rfl := Option.some.inj h
      exact .point hm
    · rename_i hm
      obtain rfl := Option.some.inj h
      exact .reveal hm
    · rename_i hm
      obtain rfl := Option.some.inj h
      exact .announce hm
    · simp at h
  | fail =>
    simp only [makerStep] at h
    split at h
    · rename_i hm
      obtain rfl := Option.some.inj h
      exact .fail (.inl hm)
    · rename_i hm
      obtain rfl := Option.some.inj h
      exact .fail (.inr (.inl hm))
    · rename_i hm
      obtain rfl := Option.some.inj h
      exact .fail (.inr (.inr hm))
    · simp at h

/-- The turns of a collector. -/
inductive GcTurn (s : State ι) (k : Collector) : State ι → Prop where
  | drain : k = .checkpoints → s.gc k = .idle →
      GcTurn s k { s.setGc k .readPublished with
        gcBlockedEntries := Function.update s.gcBlockedEntries invalidTs
          (s.gcBlockedEntries invalidTs ++ s.obsoletedEntries)
        obsoletedEntries := [] }
  | begin : s.gc k = .idle → GcTurn s k (s.setGc k .readPublished)
  | readPublished : s.gc k = .readPublished →
      GcTurn s k (s.setGc k (.scan s.published .waiting))
  | lock {latest : ℕ} : s.gc k = .scan latest .waiting →
      GcTurn s k { s.setGc k (.scan latest (.current s.registered [])) with threadsLock := some k }
  | readCurrent {latest : ℕ} {i : ι} {rest : List ι} {seen : List Ts} :
      s.gc k = .scan latest (.current (i :: rest) seen) →
      GcTurn s k (s.setGc k (.scan latest (.prior i rest ((s.threads i).slots.current :: seen))))
  | readPrior {latest : ℕ} {i : ι} {rest : List ι} {seen : List Ts} :
      s.gc k = .scan latest (.prior i rest seen) →
      GcTurn s k (s.setGc k (.scan latest (.current rest ((s.threads i).slots.prior :: seen))))
  | unlock {latest : ℕ} {seen : List Ts} : s.gc k = .scan latest (.current [] seen) →
      GcTurn s k { s.setGc k (.scan latest (.done seen)) with threadsLock := none }
  | free {latest start : ℕ} {obsoleted g : Ts} {seen : List Ts} {e : GcEntry}
      {es : List GcEntry} : k = .checkpoints → s.gc k = .scan latest (.done seen) →
      s.gcBlockedEntries g = e :: es → gcEntryToLifetime s e = some (start, obsoleted) →
      reassignTo latest seen start obsoleted = invalidTs →
      GcTurn s k { s with
        gcBlockedEntries := Function.update s.gcBlockedEntries g es
        freed := e :: s.freed }
  | reassign {g r : Ts} {e : GcEntry} {es : List GcEntry} {blocked : Ts → List GcEntry} :
      s.gcBlockedEntries g = e :: es →
      blocked = Function.update s.gcBlockedEntries r (e :: s.gcBlockedEntries r) →
      GcTurn s k { s with gcBlockedEntries := Function.update blocked g (blocked g).tail }
  | delete {latest t : ℕ} {seen : List Ts} : k = .log → s.gc k = .scan latest (.done seen) →
      (t : Ts) < stopTs latest seen →
      GcTurn s k { s with log := Function.update s.log t none }
  | deleted {latest : ℕ} {seen : List Ts} : k = .log → s.gc k = .scan latest (.done seen) →
      GcTurn s k { s.setGc k .idle with deletedTs := (stopTs latest seen).untopD 0 }
  | stop : GcTurn s k (s.setGc k .idle)
  | stopLocked : GcTurn s k { s.setGc k .idle with threadsLock := none }

omit [DecidableEq ι] in
/-- What a collector can do. -/
theorem gcStep_turn {s s' : State ι} {k : Collector} {a : GcAct} (h : gcStep s k a = some s') :
    GcTurn s k s' := by
  cases a with
  | begin =>
    simp only [gcStep] at h
    split at h
    · rename_i hg
      obtain rfl := Option.some.inj h
      exact .drain rfl hg
    · rename_i hg
      obtain rfl := Option.some.inj h
      exact .begin hg
    · simp at h
  | next =>
    simp only [gcStep] at h
    split at h
    · rename_i hg
      obtain rfl := Option.some.inj h
      exact .readPublished hg
    · rename_i hg
      split_ifs at h
      obtain rfl := Option.some.inj h
      exact .lock hg
    · rename_i hg
      obtain rfl := Option.some.inj h
      exact .readCurrent hg
    · rename_i hg
      obtain rfl := Option.some.inj h
      exact .readPrior hg
    · rename_i hg
      obtain rfl := Option.some.inj h
      exact .unlock hg
    · simp at h
  | sweep g =>
    simp only [gcStep] at h
    split at h
    · rename_i latest seen e es hb hg
      split_ifs at h
      split at h
      · simp at h
      · rename_i start obsoleted hl
        obtain rfl := Option.some.inj h
        by_cases hr : reassignTo latest seen start obsoleted = invalidTs
        · simp only [hr, if_true, hb, List.tail_cons]
          exact .free rfl hg hb hl hr
        · simp only [hr, if_false]
          exact .reassign hb rfl
    · simp at h
  | delete t =>
    simp only [gcStep] at h
    split at h
    · rename_i latest seen hg
      split_ifs at h with hcond
      obtain rfl := Option.some.inj h
      exact .delete rfl hg hcond.1
    · simp at h
  | stop =>
    simp only [gcStep] at h
    split at h
    · rename_i latest seen hg
      split_ifs at h
      obtain rfl := Option.some.inj h
      exact .deleted rfl hg
    · obtain rfl := Option.some.inj h
      exact .stop
    · obtain rfl := Option.some.inj h
      exact .stop
    · obtain rfl := Option.some.inj h
      exact .stop
    · obtain rfl := Option.some.inj h
      exact .stopLocked
    · obtain rfl := Option.some.inj h
      exact .stopLocked
    · simp at h

/-- The turns of thread `i`: what it becomes, and who is registered then. -/
inductive ThreadTurn (s : State ι) (i : ι) : ThreadAct → Thread → List ι → Prop where
  | register : i ∉ s.registered → ThreadTurn s i .register newState (s.registered ++ [i])
  | unregister : (s.threads i).pc = .idle →
      ThreadTurn s i .unregister newState (s.registered.filter (· ≠ i))
  | enter {a : ThreadAct} {p : Pc} : i ∈ s.registered → (s.threads i).pc = .idle →
      p = .readLatest ∨ p = .ret false ∨ p = .pauseTs →
      ThreadTurn s i a { s.threads i with pc := p } s.registered
  | next {th : Thread} : threadNext s (s.threads i) = some th →
      ThreadTurn s i .next th s.registered
  | updateFails {v : Ts} {n : ℕ} : (s.threads i).pc = .update v n →
      ThreadTurn s i .updateFails { s.threads i with pc := .ret false } s.registered

/-- What a thread can do: it changes nothing of the others. -/
theorem threadStep_turn {s s' : State ι} {i : ι} {a : ThreadAct}
    (h : threadStep s i a = some s') : ∃ th reg, ThreadTurn s i a th reg ∧
      s' = { s with registered := reg, threads := Function.update s.threads i th } := by
  cases a with
  | register =>
    simp only [threadStep] at h
    split_ifs at h with hc
    obtain rfl := Option.some.inj h
    exact ⟨_, _, .register hc.1, rfl⟩
  | unregister =>
    simp only [threadStep] at h
    split_ifs at h with hc
    obtain rfl := Option.some.inj h
    exact ⟨_, _, .unregister hc.2.2, rfl⟩
  | call =>
    simp only [threadStep] at h
    split_ifs at h with hc
    obtain rfl := Option.some.inj h
    exact ⟨_, _, .enter hc.1 hc.2 (.inl rfl), rfl⟩
  | callFails =>
    simp only [threadStep] at h
    split_ifs at h with hc
    obtain rfl := Option.some.inj h
    exact ⟨_, _, .enter hc.1 hc.2 (.inr (.inl rfl)), rfl⟩
  | pause =>
    simp only [threadStep] at h
    split_ifs at h with hc
    obtain rfl := Option.some.inj h
    exact ⟨_, _, .enter hc.1 hc.2 (.inr (.inr rfl)), rfl⟩
  | next =>
    obtain ⟨th, hth, rfl⟩ := Option.map_eq_some_iff.1 h
    exact ⟨th, _, .next hth, rfl⟩
  | updateFails =>
    simp only [threadStep] at h
    split at h
    · rename_i v n hpc
      obtain rfl := Option.some.inj h
      exact ⟨_, _, .updateFails hpc, rfl⟩
    · simp at h

end Steps

end Checkout
end Sivfs
