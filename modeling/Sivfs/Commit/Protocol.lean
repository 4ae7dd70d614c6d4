/-
# The commit protocol

`sivfs_commit_changes`, `sivfs_validate`, `_sivfs_validate`
(`kern/sivfs_commit_update_checkpoints.c`) and `sivfs_create_log_entry`,
`sivfs_ts_to_log_entry` (`kern/sivfs_shared_state.c`), as a machine in which
any number of threads take turns.

A turn of a thread is one access to what the threads share:

| program counter | the code there |
| --- | --- |
| `lock` | `spin_trylock(&sstate->commit_lock)`, left by `-EINTR` on a signal |
| `create` | `commit_started_ts + 1` and `sivfs_create_log_entry` |
| `write` | `commit_started_ts`, `ws`, `ts`, `aborted`, then `spin_unlock` |
| `check` | `next_ts >= state->ts + 2` |
| `lookup` | `sivfs_ts_to_log_entry(ts_start)` |
| `visit`, `compare` | `_sivfs_validate` against one entry of the log |
| `visited`, `follow`, `peek` | `clog->ts == ts_stop`, `clog->next`, `next_clog->ts` |
| `abort` | `log_writeset->aborted = true` at `conflict_abort` |
| `fill` | `commit_status_filled_in = true` |
| `release` | `master_ts` from `next_ts - 1` to `next_ts` |
| `report` | `*aborted = log_dest->aborted` |

A log entry is named by the timestamp it was reserved for, which is its key in
`log_cache`.  Entries are freed by `sivfs_delete_log`; a thread that reads a
missing or freed entry goes to `fault`.  Between transactions a thread takes a
new snapshot at `master_ts`, or gives its snapshot up (`SIVFS_TXN_PAUSE`).
-/

import Sivfs.Writeset
import Sivfs.Lib.Machine
import Mathlib.Logic.Function.Basic

namespace Sivfs
namespace Commit

/-- `sivfs_ws_ent_conflicts`. -/
def wsEntConflicts (a b : WsEntry) : Bool := a.ino == b.ino && a.fileOffset == b.fileOffset

/-- `sivfs_ws_ent_conflicts_log` for one entry of a write-set. -/
def wsEntConflictsLog (ent : WsEntry) (other : List WsEntry) : Bool :=
  other.any fun e => wsEntConflicts e ent

/-- The comparison in `_sivfs_validate`, entry by entry. -/
def wsConflicts (ws other : List WsEntry) : Bool := ws.any fun ent => wsEntConflictsLog ent other

/-- Two write-sets write a word in common. -/
def SharesWord (a b : List WsEntry) : Prop :=
  ∃ x ∈ a, ∃ y ∈ b, x.ino = y.ino ∧ x.fileOffset = y.fileOffset

/-- **The search finds a conflict** if and only if there is one. -/
theorem wsConflicts_iff {ws other : List WsEntry} :
    wsConflicts ws other = true ↔ SharesWord ws other := by
  simp only [wsConflicts, wsEntConflictsLog, wsEntConflicts, List.any_eq_true, Bool.and_eq_true,
    beq_iff_eq, SharesWord]
  constructor
  · rintro ⟨x, hx, y, hy, h⟩
    exact ⟨x, hx, y, hy, h.1.symm, h.2.symm⟩
  · rintro ⟨x, hx, y, hy, h⟩
    exact ⟨x, hx, y, hy, h.1.symm, h.2.symm⟩

/-- To share a word goes both ways. -/
theorem SharesWord.symm {a b : List WsEntry} (h : SharesWord a b) : SharesWord b a := by
  obtain ⟨x, hx, y, hy, h₁, h₂⟩ := h
  exact ⟨y, hy, x, hx, h₁.symm, h₂.symm⟩

/-- `struct sivfs_log_entry`. -/
structure LogEntry where
  ts : Ts
  ws : List WsEntry
  aborted : Bool
  commitStatusFilledIn : Bool
  /-- The entry linked behind this one. -/
  next : Option ℕ
  /-- `sivfs_delete_log` has freed the entry. -/
  freed : Bool
  /-- The snapshot it is committed with.  The code keeps it in `state->ts`. -/
  snap : Ts
  deriving DecidableEq

/-- `sivfs_init_log_entry`, by a thread with snapshot `snap`. -/
def initLogEntry (snap : Ts) : LogEntry where
  ts := invalidTs
  ws := []
  aborted := false
  commitStatusFilledIn := false
  next := none
  freed := false
  snap := snap

/-- The stores to the new entry under `commit_lock`, in their order. -/
inductive WriteStage where
  | started
  | copy
  | stamp
  | clear
  | unlock
  deriving DecidableEq, Repr

/-- Where a thread is, with its local variables: `n` is `next_ts`, `c` is
`clog`. -/
inductive Pc where
  | idle
  | lock (ws : List WsEntry)
  | create (ws : List WsEntry)
  | write (ws : List WsEntry) (n : ℕ) (stage : WriteStage)
  | check (n : ℕ)
  | lookup (n : ℕ)
  | visit (n c : ℕ)
  | compare (n c : ℕ)
  | visited (n c : ℕ)
  | follow (n c : ℕ)
  | peek (n c : ℕ)
  | abort (n : ℕ)
  | fill (n : ℕ)
  | release (n : ℕ)
  | report (n : ℕ)
  | fault
  deriving DecidableEq

/-- The part of `struct sivfs_state` the protocol uses. -/
structure Thread where
  ts : Ts
  pc : Pc
  deriving DecidableEq

/-- `struct sivfs_shared_state` and the threads. -/
structure State (ι : Type*) where
  masterTs : ℕ
  commitStartedTs : ℕ
  /-- The thread in the critical section of `commit_lock`. -/
  commitLock : Option ι
  /-- Every entry ever created, by its key in `log_cache`. -/
  log : ℕ → Option LogEntry
  /-- `master_log.latest`. -/
  latest : Option ℕ
  /-- `master_log_deleted_ts`. -/
  deletedTs : ℕ
  threads : ι → Thread

namespace State

variable {ι : Type*}

/-- The entry behind a pointer, if it is still there. -/
def deref (s : State ι) (t : ℕ) : Option LogEntry := (s.log t).filter fun e => !e.freed

/-- Thread `i` goes on at `pc`. -/
def goto [DecidableEq ι] (s : State ι) (i : ι) (pc : Pc) : State ι :=
  { s with threads := Function.update s.threads i { s.threads i with pc := pc } }

/-- Store to a log entry. -/
def setEntry (s : State ι) (t : ℕ) (e : LogEntry) : State ι :=
  { s with log := Function.update s.log t (some e) }

/-- Thread `i` reads entry `t`. -/
def withEntry [DecidableEq ι] (s : State ι) (i : ι) (t : ℕ) (k : LogEntry → State ι) : State ι :=
  match s.deref t with
  | some e => k e
  | none => s.goto i .fault

/-- The log after `prev_master->next = log`, if there is a `prev_master`. -/
def linkLatest (s : State ι) (n : ℕ) (t : ℕ) : Option LogEntry :=
  if s.latest = some t then (s.log t).map fun e => { e with next := some n } else s.log t

/-- `sivfs_create_log_entry` with key `n`, when memory suffices. -/
def createLogEntry (s : State ι) (n : ℕ) (snap : Ts) : State ι :=
  { s with
    log := Function.update (s.linkLatest n) n (some (initLogEntry snap))
    latest := some n }

end State

/-- The turns a run is made of. -/
inductive Act (ι : Type*) where
  /-- Between transactions, `state->ts = master_ts`. -/
  | checkout (i : ι)
  /-- `SIVFS_TXN_PAUSE`. -/
  | pause (i : ι)
  /-- A call of `sivfs_commit_changes`. -/
  | begin (i : ι) (ws : List WsEntry)
  /-- A signal while waiting for the lock. -/
  | interrupt (i : ι)
  /-- `spin_trylock` succeeds. -/
  | acquire (i : ι)
  /-- `sivfs_create_log_entry` fails. -/
  | createFails (i : ι)
  /-- The next access of a thread. -/
  | next (i : ι)
  /-- `sivfs_delete_log(stop)`. -/
  | deleteLog (stop : ℕ)

section Step

variable {ι : Type*} [DecidableEq ι]

/-- The next access of thread `i` in `sivfs_commit_changes`. -/
def next (s : State ι) (i : ι) : Option (State ι) :=
  let ts := (s.threads i).ts
  match (s.threads i).pc with
  | .idle => none
  | .lock _ => none
  | .create ws =>
    let n := s.commitStartedTs + 1
    -- `radix_tree_insert` refuses a key that is in use
    if (s.deref n).isSome then none
    else some ((s.createLogEntry n ts).goto i (.write ws n .started))
  | .write ws n .started => some ({ s with commitStartedTs := n }.goto i (.write ws n .copy))
  | .write ws n .copy => some <| s.withEntry i n fun e =>
      (s.setEntry n { e with ws := ws }).goto i (.write ws n .stamp)
  | .write ws n .stamp => some <| s.withEntry i n fun e =>
      (s.setEntry n { e with ts := n }).goto i (.write ws n .clear)
  | .write ws n .clear => some <| s.withEntry i n fun e =>
      (s.setEntry n { e with aborted := false }).goto i (.write ws n .unlock)
  | .write _ n .unlock => some ({ s with commitLock := none }.goto i (.check n))
  | .check n => some (s.goto i (if tsAdd ts 2 ≤ n then .lookup n else .fill n))
  | .lookup n =>
    let start := tsAdd ts 1
    let stop := n - 1
    some (s.goto i (if stop < start ∨ start < s.deletedTs then .abort n else .visit n start))
  | .visit n c => some <| s.withEntry i c fun e =>
      s.goto i (if e.aborted then .visited n c else .compare n c)
  | .compare n c => some <| s.withEntry i n fun own => s.withEntry i c fun e =>
      if wsConflicts own.ws e.ws then
        (s.setEntry n { own with aborted := true }).goto i (.visited n c)
      else s.goto i (.visited n c)
  | .visited n c => some <| s.withEntry i n fun own => s.withEntry i c fun e =>
      s.goto i (if own.aborted then .abort n else if e.ts = (n - 1 : ℕ) then .fill n
        else .follow n c)
  | .follow n c => some <| s.withEntry i c fun e =>
      s.goto i (match e.next with
        | none => .fill n
        | some d => .peek n d)
  | .peek n c => some <| s.withEntry i c fun e =>
      s.goto i (if (n - 1 : ℕ) < e.ts then .fill n else .visit n c)
  | .abort n => some <| s.withEntry i n fun own =>
      (s.setEntry n { own with aborted := true }).goto i (.fill n)
  | .fill n => some <| s.withEntry i n fun own =>
      (s.setEntry n { own with commitStatusFilledIn := true }).goto i (.release n)
  | .release n =>
    if s.masterTs = n - 1 then some ({ s with masterTs := n }.goto i (.report n)) else none
  | .report n => some <| s.withEntry i n fun _ => s.goto i .idle
  | .fault => none

/-- `sivfs_delete_log`: the entries below `stop` are freed. -/
def deleteLog (s : State ι) (stop : ℕ) : State ι :=
  { s with
    log := fun t => (s.log t).map fun e => if t < stop then { e with freed := true } else e
    deletedTs := stop }

/-- One turn. -/
def step (s : State ι) : Act ι → Option (State ι)
  | .checkout i =>
    if (s.threads i).pc = .idle then
      some { s with threads := Function.update s.threads i ⟨(s.masterTs : Ts), .idle⟩ }
    else none
  | .pause i =>
    if (s.threads i).pc = .idle then
      some { s with threads := Function.update s.threads i ⟨invalidTs, .idle⟩ }
    else none
  | .begin i ws => if (s.threads i).pc = .idle then some (s.goto i (.lock ws)) else none
  | .interrupt i =>
    match (s.threads i).pc with
    | .lock _ => some (s.goto i .idle)
    | _ => none
  | .acquire i =>
    match (s.threads i).pc with
    | .lock ws =>
      if s.commitLock = none then some ({ s with commitLock := some i }.goto i (.create ws))
      else none
    | _ => none
  | .createFails i =>
    match (s.threads i).pc with
    | .create _ => some ({ s with commitLock := none }.goto i .idle)
    | _ => none
  | .next i => next s i
  | .deleteLog stop => if s.commitLock = none then some (deleteLog s stop) else none

/-- `sivfs_init_shared_state`: no commit yet, every thread fresh. -/
def Init (s : State ι) : Prop :=
  s.masterTs = 0 ∧ s.commitStartedTs = 0 ∧ s.commitLock = none ∧ (∀ t, s.log t = none) ∧
    s.latest = none ∧ s.deletedTs = 0 ∧ ∀ i, s.threads i = ⟨invalidTs, .idle⟩

/-- The commit protocol of the threads `ι`. -/
def protocol (ι : Type*) [DecidableEq ι] : Machine (State ι) (Act ι) where
  init := Init
  step := step

/-- Log entries are deleted only below what a thread with a snapshot may still
ask for, and, as in `sivfs_gc_log`, at most up to a checkpoint that is made. -/
def LogKept (s : State ι) : Act ι → Prop
  | .deleteLog stop => stop ≤ s.masterTs ∧
      ∀ i, ∀ x : ℕ, (s.threads i).ts = (x : Ts) → stop ≤ x + 1
  | _ => True

end Step

/-! ### The state after a turn -/

namespace State

variable {ι : Type*} (s : State ι) (i j : ι) (t : ℕ) (e : LogEntry)

/-- The program counter of a thread. -/
def pc : Pc := (s.threads i).pc

/-- The last entry created, `0` before the first. -/
def top : ℕ := s.latest.getD 0

@[simp] theorem setEntry_masterTs : (s.setEntry t e).masterTs = s.masterTs := rfl
@[simp] theorem setEntry_commitStartedTs :
    (s.setEntry t e).commitStartedTs = s.commitStartedTs := rfl
@[simp] theorem setEntry_commitLock : (s.setEntry t e).commitLock = s.commitLock := rfl
@[simp] theorem setEntry_deletedTs : (s.setEntry t e).deletedTs = s.deletedTs := rfl
@[simp] theorem setEntry_threads : (s.setEntry t e).threads = s.threads := rfl
@[simp] theorem setEntry_pc : (s.setEntry t e).pc i = s.pc i := rfl
@[simp] theorem setEntry_top : (s.setEntry t e).top = s.top := rfl

@[simp] theorem setEntry_log_self : (s.setEntry t e).log t = some e := by
  simp [setEntry]

variable {t} in
/-- The other entries are what they were. -/
theorem setEntry_log_of_ne {t' : ℕ} (h : t' ≠ t) : (s.setEntry t e).log t' = s.log t' := by
  simp [setEntry, Function.update_of_ne h]

variable {s t e} in
/-- What can be read is there and not freed. -/
theorem deref_eq_some : s.deref t = some e ↔ s.log t = some e ∧ e.freed = false := by
  simp [deref]

variable [DecidableEq ι] (p : Pc)

@[simp] theorem goto_masterTs : (s.goto i p).masterTs = s.masterTs := rfl
@[simp] theorem goto_commitStartedTs : (s.goto i p).commitStartedTs = s.commitStartedTs := rfl
@[simp] theorem goto_commitLock : (s.goto i p).commitLock = s.commitLock := rfl
@[simp] theorem goto_log : (s.goto i p).log = s.log := rfl
@[simp] theorem goto_deletedTs : (s.goto i p).deletedTs = s.deletedTs := rfl
@[simp] theorem goto_top : (s.goto i p).top = s.top := rfl

@[simp] theorem goto_pc_self : (s.goto i p).pc i = p := by
  simp [pc, goto]

@[simp] theorem goto_ts : ((s.goto i p).threads j).ts = (s.threads j).ts := by
  by_cases h : j = i
  · subst h
    simp [goto]
  · simp [goto, Function.update_of_ne h]

variable {i j} in
/-- The others stay where they are. -/
theorem goto_pc_of_ne (h : j ≠ i) : (s.goto i p).pc j = s.pc j := by
  simp [pc, goto, Function.update_of_ne h]

variable {s i} in
/-- A new snapshot moves no program counter. -/
theorem snapshot_pc (h : s.pc i = .idle) (ts : Ts) (j : ι) :
    ({ s with threads := Function.update s.threads i ⟨ts, .idle⟩ } : State ι).pc j = s.pc j := by
  by_cases hji : j = i
  · subst hji
    simpa [pc] using h.symm
  · simp [pc, Function.update_of_ne hji]

end State

/-! ### What a turn can do -/

/-- The log entries a thread is about to read. -/
def Pc.reads : Pc → List ℕ
  | .write _ n .copy | .write _ n .stamp | .write _ n .clear | .abort n | .fill n |
    .report n => [n]
  | .visit _ c | .follow _ c | .peek _ c => [c]
  | .compare n c | .visited n c => [n, c]
  | _ => []

section Turn

variable {ι : Type*} [DecidableEq ι]

/-- The turns of thread `i` that store to nothing that is shared. -/
inductive Moves (s : State ι) (i : ι) : Pc → Pc → Prop where
  | begin (ws : List WsEntry) : Moves s i .idle (.lock ws)
  | interrupt (ws : List WsEntry) : Moves s i (.lock ws) .idle
  | concurrent {n : ℕ} : tsAdd (s.threads i).ts 2 ≤ n → Moves s i (.check n) (.lookup n)
  | alone {n : ℕ} : n < tsAdd (s.threads i).ts 2 → Moves s i (.check n) (.fill n)
  | giveUp {n : ℕ} : n - 1 < tsAdd (s.threads i).ts 1 ∨ tsAdd (s.threads i).ts 1 < s.deletedTs →
      Moves s i (.lookup n) (.abort n)
  | lookup {n : ℕ} : tsAdd (s.threads i).ts 1 ≤ n - 1 →
      Moves s i (.lookup n) (.visit n (tsAdd (s.threads i).ts 1))
  | skip {n c : ℕ} {e : LogEntry} : s.deref c = some e → e.aborted = true →
      Moves s i (.visit n c) (.visited n c)
  | look {n c : ℕ} : Moves s i (.visit n c) (.compare n c)
  | pass {n c : ℕ} {own e : LogEntry} : s.deref n = some own → s.deref c = some e →
      wsConflicts own.ws e.ws = false → Moves s i (.compare n c) (.visited n c)
  | conflict {n c : ℕ} : Moves s i (.visited n c) (.abort n)
  | last {n c : ℕ} {own e : LogEntry} : s.deref n = some own → own.aborted = false →
      s.deref c = some e → e.ts = (n - 1 : ℕ) → Moves s i (.visited n c) (.fill n)
  | more {n c : ℕ} {own e : LogEntry} : s.deref n = some own → own.aborted = false →
      s.deref c = some e → e.ts ≠ (n - 1 : ℕ) → Moves s i (.visited n c) (.follow n c)
  | unlinked {n c : ℕ} {e : LogEntry} : s.deref c = some e → e.next = none →
      Moves s i (.follow n c) (.fill n)
  | follow {n c d : ℕ} {e : LogEntry} : s.deref c = some e → e.next = some d →
      Moves s i (.follow n c) (.peek n d)
  | past {n c : ℕ} {e : LogEntry} : s.deref c = some e → (n - 1 : ℕ) < e.ts →
      Moves s i (.peek n c) (.fill n)
  | peek {n c : ℕ} : Moves s i (.peek n c) (.visit n c)
  | report {n : ℕ} : Moves s i (.report n) .idle
  | fault {p : Pc} {t : ℕ} : t ∈ p.reads → s.deref t = none → Moves s i p .fault

/-- The turns that store to the thread's own entry. -/
inductive Stores (s : State ι) (n : ℕ) (own : LogEntry) : Pc → Pc → LogEntry → Prop where
  | copy (ws : List WsEntry) :
      Stores s n own (.write ws n .copy) (.write ws n .stamp) { own with ws := ws }
  | stamp (ws : List WsEntry) :
      Stores s n own (.write ws n .stamp) (.write ws n .clear) { own with ts := n }
  | clear (ws : List WsEntry) :
      Stores s n own (.write ws n .clear) (.write ws n .unlock) { own with aborted := false }
  | conflict (c : ℕ) : Stores s n own (.compare n c) (.visited n c) { own with aborted := true }
  | abort : Stores s n own (.abort n) (.fill n) { own with aborted := true }
  | fill : Stores s n own (.fill n) (.release n) { own with commitStatusFilledIn := true }

/-- Everything a turn can do. -/
inductive Turn (s : State ι) : State ι → Prop where
  | snapshot (i : ι) (ts : Ts) : s.pc i = .idle → ts = invalidTs ∨ ts = (s.masterTs : Ts) →
      Turn s { s with threads := Function.update s.threads i ⟨ts, .idle⟩ }
  | move {i : ι} {p : Pc} : Moves s i (s.pc i) p → Turn s (s.goto i p)
  | store {i : ι} {n : ℕ} {own own' : LogEntry} {p : Pc} : s.deref n = some own →
      Stores s n own (s.pc i) p own' → Turn s ((s.setEntry n own').goto i p)
  | acquire {i : ι} {ws : List WsEntry} : s.pc i = .lock ws → s.commitLock = none →
      Turn s ({ s with commitLock := some i }.goto i (.create ws))
  | createFails {i : ι} {ws : List WsEntry} : s.pc i = .create ws →
      Turn s ({ s with commitLock := none }.goto i .idle)
  | create {i : ι} {ws : List WsEntry} : s.pc i = .create ws →
      Turn s ((s.createLogEntry (s.commitStartedTs + 1) (s.threads i).ts).goto i
        (.write ws (s.commitStartedTs + 1) .started))
  | started {i : ι} {ws : List WsEntry} {n : ℕ} : s.pc i = .write ws n .started →
      Turn s ({ s with commitStartedTs := n }.goto i (.write ws n .copy))
  | unlock {i : ι} {ws : List WsEntry} {n : ℕ} : s.pc i = .write ws n .unlock →
      Turn s ({ s with commitLock := none }.goto i (.check n))
  | release {i : ι} {n : ℕ} : s.pc i = .release n → s.masterTs = n - 1 →
      Turn s ({ s with masterTs := n }.goto i (.report n))
  | delete (stop : ℕ) : LogKept s (.deleteLog stop) → Turn s (deleteLog s stop)

/-- A read of an entry succeeds or faults. -/
theorem withEntry_turn {s s' : State ι} {i : ι} {t : ℕ} {k : LogEntry → State ι}
    (h : s.withEntry i t k = s') (ht : t ∈ (s.pc i).reads)
    (hk : ∀ e, s.deref t = some e → k e = s' → Turn s s') : Turn s s' := by
  unfold State.withEntry at h
  rcases hd : s.deref t with _ | e <;> rw [hd] at h
  · subst h
    exact .move (.fault ht hd)
  · exact hk e hd h

/-- The next access of a thread is one of these turns. -/
theorem next_turn {s s' : State ι} {i : ι} (h : next s i = some s') : Turn s s' := by
  have hpc : s.pc i = (s.threads i).pc := rfl
  unfold next at h
  rcases hp : (s.threads i).pc with
    _ | ws | ws | ⟨ws, n, _ | _ | _ | _ | _⟩ | n | n | ⟨n, c⟩ | ⟨n, c⟩ | ⟨n, c⟩ | ⟨n, c⟩ | ⟨n, c⟩ |
    n | n | n | n | _ <;>
    rw [hp] at hpc <;> simp only [hp, reduceCtorEq, Option.some.injEq] at h
  case create =>
    split_ifs at h
    obtain rfl := Option.some.inj h
    exact .create hpc
  case write.started =>
    subst h
    exact .started hpc
  case write.copy =>
    refine withEntry_turn h (by simp [hpc, Pc.reads]) fun own hown hs => ?_
    subst hs
    exact .store hown (by rw [hpc]; exact .copy ws)
  case write.stamp =>
    refine withEntry_turn h (by simp [hpc, Pc.reads]) fun own hown hs => ?_
    subst hs
    exact .store hown (by rw [hpc]; exact .stamp ws)
  case write.clear =>
    refine withEntry_turn h (by simp [hpc, Pc.reads]) fun own hown hs => ?_
    subst hs
    exact .store hown (by rw [hpc]; exact .clear ws)
  case write.unlock =>
    subst h
    exact .unlock hpc
  case check =>
    subst h
    split_ifs with hc
    · exact .move (by rw [hpc]; exact .concurrent hc)
    · exact .move (by rw [hpc]; exact .alone (not_le.1 hc))
  case lookup =>
    subst h
    split_ifs with hc
    · exact .move (by rw [hpc]; exact .giveUp hc)
    · exact .move (by rw [hpc]; exact .lookup (not_lt.1 fun h => hc (.inl h)))
  case visit =>
    refine withEntry_turn h (by simp [hpc, Pc.reads]) fun e he hs => ?_
    subst hs
    split_ifs with ha
    · exact .move (by rw [hpc]; exact .skip he ha)
    · exact .move (by rw [hpc]; exact .look)
  case compare =>
    refine withEntry_turn h (by simp [hpc, Pc.reads]) fun own hown hs => ?_
    refine withEntry_turn hs (by simp [hpc, Pc.reads]) fun e he hs => ?_
    subst hs
    split_ifs with hc
    · exact .store hown (by rw [hpc]; exact .conflict c)
    · exact .move (by rw [hpc]; exact .pass hown he (by simpa using hc))
  case visited =>
    refine withEntry_turn h (by simp [hpc, Pc.reads]) fun own hown hs => ?_
    refine withEntry_turn hs (by simp [hpc, Pc.reads]) fun e he hs => ?_
    subst hs
    split_ifs with ha hts
    · exact .move (by rw [hpc]; exact .conflict)
    · exact .move (by rw [hpc]; exact .last hown (by simpa using ha) he hts)
    · exact .move (by rw [hpc]; exact .more hown (by simpa using ha) he hts)
  case follow =>
    refine withEntry_turn h (by simp [hpc, Pc.reads]) fun e he hs => ?_
    subst hs
    rcases hn : e.next with _ | d
    · exact .move (by rw [hpc]; exact .unlinked he hn)
    · exact .move (by rw [hpc]; exact .follow he hn)
  case peek =>
    refine withEntry_turn h (by simp [hpc, Pc.reads]) fun e he hs => ?_
    subst hs
    split_ifs with hlt
    · exact .move (by rw [hpc]; exact .past he hlt)
    · exact .move (by rw [hpc]; exact .peek)
  case abort =>
    refine withEntry_turn h (by simp [hpc, Pc.reads]) fun own hown hs => ?_
    subst hs
    exact .store hown (by rw [hpc]; exact .abort)
  case fill =>
    refine withEntry_turn h (by simp [hpc, Pc.reads]) fun own hown hs => ?_
    subst hs
    exact .store hown (by rw [hpc]; exact .fill)
  case release =>
    split_ifs at h with hm
    obtain rfl := Option.some.inj h
    exact .release hpc hm
  case report =>
    refine withEntry_turn h (by simp [hpc, Pc.reads]) fun e he hs => ?_
    subst hs
    exact .move (by rw [hpc]; exact .report)

/-- **Every step is one of these turns.** -/
theorem step_turn {s s' : State ι} {a : Act ι} (h : step s a = some s') (hk : LogKept s a) :
    Turn s s' := by
  cases a with
  | checkout i =>
    simp only [step] at h
    split_ifs at h with hp
    obtain rfl := Option.some.inj h
    exact .snapshot i _ hp (.inr rfl)
  | pause i =>
    simp only [step] at h
    split_ifs at h with hp
    obtain rfl := Option.some.inj h
    exact .snapshot i _ hp (.inl rfl)
  | begin i ws =>
    simp only [step] at h
    split_ifs at h with hp
    obtain rfl := Option.some.inj h
    exact .move (by rw [State.pc, hp]; exact .begin ws)
  | interrupt i =>
    simp only [step] at h
    split at h
    · rename_i ws hp
      obtain rfl := Option.some.inj h
      exact .move (by rw [State.pc, hp]; exact .interrupt ws)
    · simp at h
  | acquire i =>
    simp only [step] at h
    split at h
    · rename_i ws hp
      split_ifs at h with hl
      obtain rfl := Option.some.inj h
      exact .acquire hp hl
    · simp at h
  | createFails i =>
    simp only [step] at h
    split at h
    · rename_i ws hp
      obtain rfl := Option.some.inj h
      exact .createFails hp
    · simp at h
  | next i => exact next_turn h
  | deleteLog stop =>
    simp only [step] at h
    split_ifs at h
    obtain rfl := Option.some.inj h
    exact .delete stop hk

end Turn

end Commit
end Sivfs
